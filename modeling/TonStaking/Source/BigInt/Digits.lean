import Mathlib.Algebra.Order.Ring.Int
import Mathlib.Data.List.Induction
import Mathlib.Tactic.Linarith
import Mathlib.Tactic.Ring

/-!
# Integers in balanced digits (bigint.hpp:42-75, 671-699, 1057-1152)

`AnyIntView` keeps an integer in signed 64-bit words, the least significant first, with
the base 2^52. A number without digits is the NaN. In canonical form every digit lies in
`[-Half, Half)` and the top digit is zero only for the number zero; then sizes and
digits, read from the top, decide equality and order.
-/
namespace TonStaking.Source.BigInt

variable {d z : Int} {ds xs ys : List Int}

/-- `BigIntInfo::Base`, two to `word_shift`. -/
abbrev Base : Int := 4503599627370496

/-- `BigIntInfo::Half`. -/
abbrev Half : Int := 2251799813685248

/-- The signed 64-bit word an operation leaves. -/
def word (x : Int) : Int := Int.bmod x 18446744073709551616

theorem word_eq {x : Int} (low : -9223372036854775808 ≤ x) (high : x < 9223372036854775808) : word x = x := by
  unfold word
  rw [Int.bmod_def]
  split <;> omega

/-- The number the digits stand for. -/
def value : List Int → Int
  | [] => 0
  | d :: ds => d + Base * value ds

@[simp] theorem value_nil : value [] = 0 := rfl

@[simp] theorem value_cons (d : Int) (ds : List Int) : value (d :: ds) = d + Base * value ds := rfl

theorem value_append (xs ys : List Int) : value (xs ++ ys) = value xs + Base ^ xs.length * value ys := by
  induction xs with
  | nil => simp
  | cons x xs ih =>
    rw [List.cons_append, value_cons, value_cons, ih, List.length_cons, pow_succ]
    ring

/-- Every digit lies in the balanced range. -/
def Balanced (ds : List Int) : Prop := ∀ d ∈ ds, -Half ≤ d ∧ d < Half

instance (ds : List Int) : Decidable (Balanced ds) :=
  inferInstanceAs (Decidable (∀ d ∈ ds, -Half ≤ d ∧ d < Half))

/-- The form `normalize_bool_any` leaves: digits in range, no zero on top but for zero. -/
structure Canonical (ds : List Int) : Prop where
  nonempty : ds ≠ []
  balanced : Balanced ds
  top : ds.getLast? = some 0 → ds = [0]

theorem Balanced.cons (low : -Half ≤ d) (high : d < Half) (rest : Balanced ds) : Balanced (d :: ds) := by
  intro x member
  rcases List.mem_cons.mp member with rfl | later
  · exact ⟨low, high⟩
  · exact rest x later

theorem Canonical.single (low : -Half ≤ d) (high : d < Half) : Canonical [d] :=
  ⟨by simp, Balanced.cons low high (by simp [Balanced]), by simp⟩

theorem Balanced.head (balanced : Balanced (d :: ds)) : -Half ≤ d ∧ d < Half :=
  balanced d List.mem_cons_self

theorem Balanced.tail (balanced : Balanced (d :: ds)) : Balanced ds :=
  fun x member => balanced x (List.mem_cons_of_mem d member)

theorem Balanced.left (balanced : Balanced (xs ++ ys)) : Balanced xs :=
  fun x member => balanced x (List.mem_append_left ys member)

theorem Balanced.right (balanced : Balanced (xs ++ ys)) : Balanced ys :=
  fun x member => balanced x (List.mem_append_right xs member)

/-- The number with `n` digits 1. -/
def ones : Nat → Int
  | 0 => 0
  | n + 1 => 1 + Base * ones n

/-- The numbers `n` balanced digits can hold. -/
def Within (n : Nat) (z : Int) : Prop := -(Half * ones n) ≤ z ∧ z ≤ (Half - 1) * ones n

instance (n : Nat) (z : Int) : Decidable (Within n z) := by
  unfold Within
  infer_instance

theorem ones_succ (n : Nat) : ones (n + 1) = 1 + Base * ones n := rfl

theorem ones_nonneg (n : Nat) : 0 ≤ ones n := by
  induction n with
  | zero => exact le_refl 0
  | succ n ih =>
    rw [ones_succ]
    linarith

/-- The ranges of `n` digits tile the integers: their width is a power of the base. -/
theorem ones_width (n : Nat) : Base ^ n = (Base - 1) * ones n + 1 := by
  induction n with
  | zero => simp [ones]
  | succ n ih =>
    rw [pow_succ, ih, ones_succ]
    ring

theorem Balanced.within {ds : List Int} (balanced : Balanced ds) : Within ds.length (value ds) := by
  induction ds with
  | nil => simp [Within, ones]
  | cons d ds ih =>
    have head := balanced.head
    have rest := ih balanced.tail
    unfold Within at rest ⊢
    rw [List.length_cons, value_cons, ones_succ]
    constructor <;> linarith

theorem Within.mono {n m : Nat} (within : Within n z) (less : n ≤ m) : Within m z := by
  have grows : ones n ≤ ones m := by
    induction less with
    | refl => exact le_refl _
    | @step m _ ih =>
      have nonneg := ones_nonneg m
      rw [ones_succ]
      linarith
  unfold Within at within ⊢
  constructor <;> linarith

/-- A digit on top of `n` balanced ones decides the sign, by a margin. -/
theorem Balanced.over {ds : List Int} (balanced : Balanced ds) (top : Int) :
    (0 < top → Base ^ ds.length - Half * ones ds.length ≤ value ds + Base ^ ds.length * top) ∧
      (top < 0 → value ds + Base ^ ds.length * top ≤ (Half - 1) * ones ds.length - Base ^ ds.length) := by
  have within := balanced.within
  have positive : 0 < Base ^ ds.length := pow_pos (by norm_num) _
  unfold Within at within
  constructor
  · intro above
    nlinarith
  · intro below
    nlinarith

theorem Balanced.not_within {ds : List Int} {top : Int} (balanced : Balanced ds) (nonzero : top ≠ 0) :
    ¬ Within ds.length (value ds + Base ^ ds.length * top) := by
  have width := ones_width ds.length
  unfold Within
  rcases lt_or_gt_of_ne nonzero with below | above
  · have bound := (balanced.over top).2 below
    intro range
    linarith
  · have bound := (balanced.over top).1 above
    intro range
    linarith

section Order

variable {xs ys : List Int} {n : Nat}

theorem eq_of_value_eq (first : Balanced xs) (second : Balanced ys) (sizes : xs.length = ys.length)
    (same : value xs = value ys) : xs = ys := by
  induction xs generalizing ys with
  | nil => exact (List.length_eq_zero_iff.mp sizes.symm).symm
  | cons x xs ih =>
    cases ys with
    | nil => simp at sizes
    | cons y ys =>
      have low := first.head
      have other := second.head
      rw [value_cons, value_cons] at same
      have digits : x = y := by grind
      have rest : value xs = value ys := by grind
      rw [digits, ih first.tail second.tail (by simpa using sizes) rest]

/-- A canonical number of more than one digit, seen from its top digit. -/
theorem Canonical.split {ds : List Int} (canonical : Canonical ds) :
    ∃ low top, ds = low ++ [top] ∧ Balanced low ∧ -Half ≤ top ∧ top < Half ∧ (top = 0 → low = []) := by
  have shape : ds = ds.dropLast ++ [ds.getLast canonical.nonempty] :=
    (List.dropLast_concat_getLast canonical.nonempty).symm
  have balanced := canonical.balanced
  rw [shape] at balanced
  have range := balanced.right (ds.getLast canonical.nonempty) (by simp)
  refine ⟨ds.dropLast, ds.getLast canonical.nonempty, shape, balanced.left, range.1, range.2, ?_⟩
  intro zero
  rw [canonical.top (by rw [List.getLast?_eq_some_getLast canonical.nonempty, zero])]
  rfl

theorem value_snoc (low : List Int) (top : Int) : value (low ++ [top]) = value low + Base ^ low.length * top := by
  rw [value_append]
  simp

/-- Fewer digits than a canonical number has hold no number as far from zero on its side. -/
theorem Canonical.beyond (canonical : Canonical xs) (shorter : n < xs.length) (small : 0 < n)
    (within : Within n z) :
    (xs.getLastD 0 < 0 → value xs < z) ∧ (xs.getLastD 0 ≥ 0 → z < value xs) := by
  obtain ⟨low, top, rfl, balanced, -, -, lone⟩ := canonical.split
  rw [List.length_append, List.length_singleton] at shorter
  have wide : Within low.length z := within.mono (by omega)
  have width := ones_width low.length
  have nonzero : top ≠ 0 := by
    intro zero
    rw [lone zero] at shorter
    simp at shorter
    omega
  rw [value_snoc, List.getLastD_concat]
  unfold Within at wide
  constructor
  · intro below
    have bound := (balanced.over top).2 below
    linarith
  · intro above
    have bound := (balanced.over top).1 (lt_of_le_of_ne above nonzero.symm)
    linarith

/-- The size of a canonical number is the least its value has room in. -/
theorem Canonical.length_le (canonical : Canonical xs) (small : 0 < n) (within : Within n (value xs)) : xs.length ≤ n := by
  by_contra longer
  have bound := canonical.beyond (Nat.lt_of_not_le longer) small within
  rcases lt_or_ge (xs.getLastD 0) 0 with below | above
  · exact lt_irrefl _ (bound.1 below)
  · exact lt_irrefl _ (bound.2 above)

theorem Canonical.length_pos (canonical : Canonical xs) : 0 < xs.length :=
  List.length_pos_iff.mpr canonical.nonempty

theorem Canonical.unique (first : Canonical xs) (second : Canonical ys) (same : value xs = value ys) : xs = ys := by
  have less := first.length_le second.length_pos (same ▸ second.balanced.within)
  have more := second.length_le first.length_pos (same ▸ first.balanced.within)
  exact eq_of_value_eq first.balanced second.balanced (Nat.le_antisymm less more) same

end Order

/-- `AnyIntView::eq_any`: the sizes and the words are the same. -/
def eqAny (x y : List Int) : Bool := if y.length ≠ x.length then false else x == y

/-- The loop of `cmp_any` over digits of the same size, the most significant first. -/
def cmpDigits : List Int → List Int → Int
  | x :: xs, y :: ys => if x < y then -1 else if x > y then 1 else cmpDigits xs ys
  | _, _ => 0

def cmpAny (x y : List Int) : Int :=
  if y.length < x.length then if x.getLastD 0 < 0 then -1 else 1
  else if y.length > x.length then if y.getLastD 0 > 0 then -1 else 1
  else cmpDigits x.reverse y.reverse

theorem eqAny_iff {x y : List Int} (first : Canonical x) (second : Canonical y) :
    eqAny x y = true ↔ value x = value y := by
  have decides : eqAny x y = true ↔ x = y := by
    unfold eqAny
    split
    · next different =>
      constructor
      · nofun
      · rintro rfl
        exact absurd rfl different
    · exact beq_iff_eq
  rw [decides]
  exact ⟨fun same => same ▸ rfl, first.unique second⟩

theorem cmpDigits_eq (x y : List Int) (first : Balanced x) (second : Balanced y) (sizes : x.length = y.length) :
    cmpDigits x.reverse y.reverse = (value x - value y).sign := by
  induction x using List.reverseRecOn generalizing y with
  | nil =>
    rw [List.length_eq_zero_iff.mp sizes.symm]
    rfl
  | append_singleton low top ih =>
    rcases List.eq_nil_or_concat y with rfl | ⟨low', top', rfl⟩
    · simp at sizes
    rw [List.concat_eq_append] at second sizes ⊢
    have lengths : low.length = low'.length := by simpa using sizes
    have within := first.left.within
    have within' := second.left.within
    have width := ones_width low.length
    rw [← lengths] at within'
    unfold Within at within within'
    rw [List.reverse_concat, List.reverse_concat, value_snoc, value_snoc, ← lengths, cmpDigits]
    have lower := ih low' first.left second.left lengths
    rcases lt_trichotomy top top' with less | same | more
    · rw [if_pos less, Int.sign_eq_neg_one_of_neg (by nlinarith)]
    · subst same
      rw [if_neg (lt_irrefl top), if_neg (lt_irrefl top), lower, add_sub_add_right_eq_sub]
    · rw [if_neg (not_lt.mpr (le_of_lt more)), if_pos more, Int.sign_eq_one_of_pos (by nlinarith)]

theorem cmpAny_eq {x y : List Int} (first : Canonical x) (second : Canonical y) :
    cmpAny x y = (value x - value y).sign := by
  unfold cmpAny
  split
  · next shorter =>
    have bound := first.beyond shorter second.length_pos second.balanced.within
    split
    · next below =>
      rw [Int.sign_eq_neg_one_of_neg (by omega)]
    · next above =>
      rw [Int.sign_eq_one_of_pos (by omega)]
  · split
    · next longer =>
      have bound := second.beyond longer first.length_pos first.balanced.within
      split
      · next above =>
        rw [Int.sign_eq_neg_one_of_neg (by omega)]
      rename_i below
      have nonzero : y.getLastD 0 ≠ 0 := by
        obtain ⟨low, top, rfl, -, -, -, lone⟩ := second.split
        rw [List.getLastD_concat]
        intro zero
        rw [lone zero] at longer
        simp at longer
        exact first.nonempty longer
      rw [Int.sign_eq_one_of_pos (by omega)]
    · next shorter longer =>
      exact cmpDigits_eq x y first.balanced second.balanced (by omega)

end TonStaking.Source.BigInt
