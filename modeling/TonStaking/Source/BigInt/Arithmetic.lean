import TonStaking.Source.BigInt.Digits
import Mathlib.Algebra.Order.Ring.Abs
import Mathlib.Data.List.TakeWhile
import Mathlib.Tactic.LinearCombination
import Mathlib.Tactic.NormNum

/-!
# Sums and products of digit arrays (bigint.hpp:671-699, 754-806, 914-956, 1156-1167, 1666-1716)

Sums, negations and products are formed digit by digit without carries and brought into
canonical form afterwards. `m` is `max_size()`, the number of words the integer has room
for.
-/
namespace TonStaking.Source.BigInt

/-- The condition of the loop that skips digits already in range. -/
def inRange (d : Int) : Bool := decide (d < Half) && decide (d ≥ -Half)

/-- The carrying loop of `normalize_bool_any`: the digits it leaves and the last carry. -/
def carry (val : Int) : List Int → List Int × Int
  | [] => ([], val)
  | d :: ds =>
    let val := word (val + word (d + Half))
    let rest := carry (val / Base) ds
    ((val % Base - Half) :: rest.1, rest.2)

/-- The digits appended while a carry is left; none if the room is used up. -/
def grow : Nat → Int → Option (List Int)
  | 0, val => if val = 0 then some [] else none
  | room + 1, val =>
    if val = 0 then some []
    else
      let val := word (val + Half)
      (grow room (val / Base)).map (fun more => (val % Base - Half) :: more)

/-- `while (size() > 1 && !digits[size() - 1]) dec_size()`. -/
def trim : List Int → List Int
  | [] => []
  | d :: ds =>
    match ds with
    | [] => [d]
    | _ :: _ => if trim ds = [0] then [d] else d :: trim ds

/-- `AnyIntView::normalize_bool_any`. -/
def normalizeAny (m : Nat) (ds : List Int) : List Int :=
  if ds = [] then []
  else
    let rest := carry 0 (ds.dropWhile inRange)
    match grow (m - ds.length) rest.2 with
    | none => []
    | some more => trim (ds.takeWhile inRange ++ rest.1 ++ more)

/-- Digits with room for a carry in a 64-bit word. -/
def Small (ds : List Int) : Prop := ∀ d ∈ ds, -4611686018427387904 ≤ d ∧ d ≤ 4611686018427387904

theorem Balanced.small {ds : List Int} (balanced : Balanced ds) : Small ds := by
  intro d member
  have range := balanced d member
  simp only [Half] at range
  omega

theorem carry_spec (ds : List Int) (val : Int) (small : Small ds) (low : -4096 ≤ val) (high : val ≤ 4096) :
    value (carry val ds).1 + Base ^ ds.length * (carry val ds).2 = val + value ds ∧
      Balanced (carry val ds).1 ∧ (carry val ds).1.length = ds.length ∧
      -4096 ≤ (carry val ds).2 ∧ (carry val ds).2 ≤ 4096 := by
  induction ds generalizing val with
  | nil => exact ⟨by simp [carry], fun _ member => (List.not_mem_nil member).elim, rfl, low, high⟩
  | cons d ds ih =>
    have range := small d List.mem_cons_self
    have sum : word (val + word (d + Half)) = val + d + Half := by
      rw [word_eq (x := d + Half) (by linarith) (by linarith), word_eq (by linarith) (by linarith)]
      ring
    have below : -4096 ≤ (val + d + Half) / Base := by
      simp only [Base, Half]
      omega
    have above : (val + d + Half) / Base ≤ 4096 := by
      simp only [Base, Half]
      omega
    have rest := ih ((val + d + Half) / Base) (fun x member => small x (List.mem_cons_of_mem d member)) below above
    have parts := Int.emod_add_mul_ediv (val + d + Half) Base
    have digit := Int.emod_nonneg (val + d + Half) (show Base ≠ 0 by norm_num)
    have digit' := Int.emod_lt_of_pos (val + d + Half) (show 0 < Base by norm_num)
    rw [carry, sum]
    refine ⟨?_, rest.2.1.cons (by linarith) (by linarith), by simp [rest.2.2.1], rest.2.2.2⟩
    rw [value_cons, List.length_cons, pow_succ, value_cons]
    linear_combination Base * rest.1 + parts

theorem grow_eq (room : Nat) {val : Int} (low : -4096 ≤ val) (high : val ≤ 4096) :
    grow room val = if val = 0 then some [] else if room = 0 then none else some [val] := by
  cases room with
  | zero => simp [grow]
  | succ room =>
    rw [grow]
    split
    · rfl
    rename_i nonzero
    have sum : word (val + Half) = val + Half := word_eq (by linarith) (by linarith)
    have done : (val + Half) / Base = 0 := Int.ediv_eq_zero_of_lt (by linarith) (by linarith)
    have digit : (val + Half) % Base = val + Half := Int.emod_eq_of_lt (by linarith) (by linarith)
    have last : grow room 0 = some [] := by cases room <;> rfl
    simp only [sum, done, digit, last, if_neg (Nat.succ_ne_zero room)]
    simp

theorem trim_spec (ds : List Int) (nonempty : ds ≠ []) (balanced : Balanced ds) :
    Canonical (trim ds) ∧ value (trim ds) = value ds := by
  induction ds with
  | nil => exact absurd rfl nonempty
  | cons d ds ih =>
    cases ds with
    | nil => exact ⟨⟨nonempty, balanced, by simp [trim]⟩, rfl⟩
    | cons e es =>
      have rest := ih (by simp) balanced.tail
      rw [trim]
      split
      · next zero =>
        have nothing : value (e :: es) = 0 := by rw [← rest.2, zero]; rfl
        refine ⟨⟨by simp, Balanced.cons balanced.head.1 balanced.head.2 (by simp [Balanced]), by simp⟩, ?_⟩
        rw [value_cons, value_cons, nothing, value_nil]
      · next more =>
        refine ⟨⟨by simp, rest.1.balanced.cons balanced.head.1 balanced.head.2, ?_⟩, ?_⟩
        · intro top
          rw [List.getLast?_cons_of_ne_nil rest.1.nonempty] at top
          exact absurd (rest.1.top top) more
        · rw [value_cons, rest.2, value_cons d]

/-- Skipping the digits in range changes nothing: the carry there is zero. -/
theorem lower_spec (ds : List Int) (small : Small ds) :
    ∃ low top, ds.takeWhile inRange ++ (carry 0 (ds.dropWhile inRange)).1 = low ∧
      (carry 0 (ds.dropWhile inRange)).2 = top ∧ Balanced low ∧ low.length = ds.length ∧
      value ds = value low + Base ^ ds.length * top ∧ -4096 ≤ top ∧ top ≤ 4096 := by
  have shape : ds.takeWhile inRange ++ ds.dropWhile inRange = ds := List.takeWhile_append_dropWhile
  have rest := carry_spec (ds.dropWhile inRange) 0
    (fun d member => small d (by rw [← shape]; exact List.mem_append_right _ member)) (by norm_num) (by norm_num)
  have kept : Balanced (ds.takeWhile inRange) := by
    intro d member
    have range := List.mem_takeWhile_imp member
    unfold inRange at range
    simp only [Bool.and_eq_true, decide_eq_true_eq] at range
    exact ⟨range.2, range.1⟩
  have lengths := congrArg List.length shape
  rw [List.length_append] at lengths
  refine ⟨_, _, rfl, rfl, ?_, ?_, ?_, rest.2.2.2⟩
  · intro d member
    rcases List.mem_append.mp member with first | second
    · exact kept d first
    · exact rest.2.1 d second
  · rw [List.length_append, rest.2.2.1, lengths]
  · calc value ds = value (ds.takeWhile inRange ++ ds.dropWhile inRange) := by rw [shape]
      _ = _ := by
        rw [value_append, value_append, ← lengths, pow_add]
        linear_combination -(Base ^ (ds.takeWhile inRange).length) * rest.1

/-- Normalization gives the canonical digits of the number, if there is room for them. -/
theorem normalizeAny_spec {m : Nat} {ds : List Int} (nonempty : ds ≠ []) (room : ds.length ≤ m) (small : Small ds) :
    (Within m (value ds) → Canonical (normalizeAny m ds) ∧ value (normalizeAny m ds) = value ds) ∧
      (¬ Within m (value ds) → normalizeAny m ds = []) := by
  obtain ⟨low, top, kept, carried, balanced, size, split, below, above⟩ := lower_spec ds small
  have positive : 0 < low.length := by rw [size]; exact List.length_pos_iff.mpr nonempty
  have some_low : low ≠ [] := List.length_pos_iff.mp positive
  rw [normalizeAny, if_neg nonempty]
  simp only [kept, carried, grow_eq _ below above]
  rw [← size] at split room ⊢
  by_cases zero : top = 0
  · have within : Within m (value ds) := by
      rw [split, zero, mul_zero, add_zero]
      exact balanced.within.mono room
    simp only [zero, ↓reduceIte, List.append_nil]
    refine ⟨fun _ => ?_, fun outside => absurd within outside⟩
    rw [split, zero, mul_zero, add_zero]
    exact trim_spec low some_low balanced
  · simp only [if_neg zero]
    by_cases full : m - low.length = 0
    · have same : m = low.length := by omega
      simp only [full, ↓reduceIte, implies_true, and_true]
      intro within
      rw [split, same] at within
      exact absurd within (balanced.not_within zero)
    have longer : Balanced (low ++ [top]) := by
      intro d member
      rcases List.mem_append.mp member with first | second
      · exact balanced d first
      · rw [List.mem_singleton.mp second]
        constructor <;> linarith
    have within : Within m (value ds) := by
      rw [split, ← value_snoc]
      refine longer.within.mono ?_
      rw [List.length_append, List.length_singleton]
      omega
    simp only [if_neg full]
    refine ⟨fun _ => ?_, fun outside => absurd within outside⟩
    rw [split, ← value_snoc]
    exact trim_spec (low ++ [top]) (by simp) longer

/-- The loops of `add_any` and `sub_any`: `digits[i] ± yp.digits[i]`, missing digits being zero. -/
def combine (sign : Int) : List Int → List Int → List Int
  | x :: xs, y :: ys => word (x + sign * y) :: combine sign xs ys
  | xs, [] => xs
  | [], ys => ys.map (fun y => word (sign * y))

/-- The common body of `add_any` and `sub_any`. -/
def combineAny (sign : Int) (m : Nat) (x y : List Int) : List Int :=
  if y.length ≤ x.length then if y = [] then [] else combine sign x y
  else if x = [] then []
  else if y.length > m then []
  else combine sign x y

def addAny : Nat → List Int → List Int → List Int := combineAny 1

def subAny : Nat → List Int → List Int → List Int := combineAny (-1)

def negateAny (x : List Int) : List Int := x.map (fun d => word (-d))

def mulTinyAny (y : Int) (x : List Int) : List Int := x.map (fun d => word (d * y))

/-- `BigIntG::add_tiny`; the word below a NaN is not read again. -/
def addTiny (y : Int) : List Int → List Int
  | [] => []
  | d :: ds => word (d + y) :: ds

theorem scale_spec {f : Int → Int} {factor : Int} {x : List Int} (balanced : Balanced x)
    (linear : ∀ d, f d = word (d * factor)) (low : -1024 ≤ factor) (high : factor ≤ 1024) :
    value (x.map f) = value x * factor ∧ Small (x.map f) := by
  have exact_ : ∀ d ∈ x, f d = d * factor ∧ -4611686018427387904 ≤ d * factor ∧ d * factor ≤ 4611686018427387904 := by
    intro d member
    have range := balanced d member
    have below : -4611686018427387904 ≤ d * factor := by nlinarith
    have above : d * factor ≤ 4611686018427387904 := by nlinarith
    exact ⟨by rw [linear, word_eq (by linarith) (by linarith)], below, above⟩
  constructor
  · clear balanced
    induction x with
    | nil => simp
    | cons d ds ih =>
      rw [List.map_cons, value_cons, value_cons, (exact_ d List.mem_cons_self).1,
        ih (fun e member => exact_ e (List.mem_cons_of_mem d member))]
      ring
  · intro e member
    obtain ⟨d, place, rfl⟩ := List.mem_map.mp member
    rw [(exact_ d place).1]
    exact (exact_ d place).2

theorem combine_spec {sign : Int} (unit : sign = 1 ∨ sign = -1) (x y : List Int) (first : Balanced x)
    (second : Balanced y) :
    value (combine sign x y) = value x + sign * value y ∧ Small (combine sign x y) ∧
      (combine sign x y).length = max x.length y.length := by
  fun_induction combine sign x y with
  | case1 x xs y ys ih =>
    have rest := ih first.tail second.tail
    have low := first.head
    have other := second.head
    have sum : word (x + sign * y) = x + sign * y := by
      rcases unit with rfl | rfl <;> exact word_eq (by linarith) (by linarith)
    refine ⟨?_, ?_, ?_⟩
    · rw [value_cons, value_cons, value_cons, rest.1, sum]
      ring
    · intro d member
      rcases List.mem_cons.mp member with rfl | later
      · rw [sum]
        rcases unit with rfl | rfl <;> constructor <;> linarith
      · exact rest.2.1 d later
    · rw [List.length_cons, List.length_cons, List.length_cons, rest.2.2]
      omega
  | case2 xs => exact ⟨by simp, first.small, by simp⟩
  | case3 ys _ =>
    have scaled := scale_spec (f := fun y => word (sign * y)) second
      (fun d => by rw [mul_comm]) (by rcases unit with rfl | rfl <;> norm_num)
      (by rcases unit with rfl | rfl <;> norm_num)
    refine ⟨?_, scaled.2, by simp⟩
    rw [scaled.1, value_nil]
    ring

section Products

variable {k d yv : Int} {ds low x y : List Int} {m : Nat}

/-- One row of `add_mul_any`: the products of `yv` with the digits of the other factor,
each split by `Tr::add_mul` over two neighbouring words. -/
def addRow (yv : Int) : List Int → List Int → List Int
  | z :: zs, lo :: hi :: rest =>
    word (lo + yv * z % Base) :: addRow yv zs (word (hi + word (yv * z / Base)) :: rest)
  | _, ds => ds

/-- All rows, each one word higher than the one before. -/
def addRows (zs : List Int) : List Int → List Int → List Int
  | yv :: ys, ds =>
    match addRow yv zs ds with
    | [] => []
    | d :: rest => d :: addRows zs ys rest
  | [], ds => ds

/-- The last row when there is one word less than the product may need: the high part of
the last product is kept apart. -/
def addRowTop (yv : Int) : List Int → List Int → List Int × Int
  | [z], lo :: rest => (word (lo + yv * z % Base) :: rest, word (yv * z / Base))
  | z :: zs, lo :: hi :: rest =>
    let row := addRowTop yv zs (word (hi + word (yv * z / Base)) :: rest)
    (word (lo + yv * z % Base) :: row.1, row.2)
  | _, ds => (ds, 0)

def addRowsTop (zs : List Int) : List Int → List Int → List Int × Int
  | [yv], ds => addRowTop yv zs ds
  | yv :: ys, ds =>
    match addRow yv zs ds with
    | [] => ([], 0)
    | d :: rest =>
      let rows := addRowsTop zs ys rest
      (d :: rows.1, rows.2)
  | [], ds => (ds, 0)

/-- `while (size() < n) digits[inc_size()] = 0`. -/
def pad (n : Nat) (ds : List Int) : List Int := ds ++ List.replicate (n - ds.length) 0

/-- `digits[size() - 1] += v`. -/
def addToLast (v : Int) : List Int → List Int
  | [] => []
  | [d] => [word (d + v)]
  | d :: ds => d :: addToLast v ds

def addMulAny (m : Nat) (x y z : List Int) : List Int :=
  let rn := y.length + z.length
  if y = [] ∨ z = [] ∨ x = [] then []
  else if rn > m + 1 then []
  else if rn < m + 1 then addRows z y (pad rn x)
  else
    let rows := addRowsTop z y (pad (rn - 1) x)
    if rows.2 ≠ 0 ∧ rows.2 ≠ -1 then [] else addToLast (word (rows.2 * Base)) rows.1

/-- Every digit is at most `k` from zero. -/
def AtMost (k : Int) (ds : List Int) : Prop := ∀ d ∈ ds, -k ≤ d ∧ d ≤ k

theorem AtMost.cons (head : -k ≤ d ∧ d ≤ k) (rest : AtMost k ds) : AtMost k (d :: ds) := by
  intro x member
  rcases List.mem_cons.mp member with rfl | later
  · exact head
  · exact rest x later

theorem AtMost.head (bound : AtMost k (d :: ds)) : -k ≤ d ∧ d ≤ k :=
  bound d List.mem_cons_self

theorem AtMost.tail (bound : AtMost k (d :: ds)) : AtMost k ds :=
  fun x member => bound x (List.mem_cons_of_mem d member)

theorem AtMost.mono {l : Int} (bound : AtMost k ds) (more : k ≤ l) : AtMost l ds := by
  intro d member
  have range := bound d member
  constructor <;> linarith

theorem product_split {y z : Int} (first : -Half ≤ y ∧ y < Half) (second : -Half ≤ z ∧ z < Half) :
    word (y * z / Base) = y * z / Base ∧ -Half ≤ y * z / Base ∧ y * z / Base ≤ Half ∧
      0 ≤ y * z % Base ∧ y * z % Base < Base ∧ y * z % Base + Base * (y * z / Base) = y * z := by
  have above : y * z ≤ Half * Half := by nlinarith
  have below : -(Half * Half) ≤ y * z := by nlinarith
  simp only [Base, Half] at above below ⊢
  have high : y * z / 4503599627370496 ≤ 2251799813685248 := by omega
  have low : -2251799813685248 ≤ y * z / 4503599627370496 := by omega
  refine ⟨word_eq (by linarith) (by linarith), low, high, ?_, ?_, ?_⟩ <;> omega

theorem addRow_spec (digit : -Half ≤ yv ∧ yv < Half) (small : k ≤ 1152921504606846976) (zs rest : List Int) (d : Int)
    (balanced : Balanced zs) (head : -(k + Base) ≤ d ∧ d ≤ k + Base) (bound : AtMost k rest)
    (long : zs.length ≤ rest.length) :
    value (addRow yv zs (d :: rest)) = value (d :: rest) + yv * value zs ∧
      AtMost (k + 2 * Base) (addRow yv zs (d :: rest)) ∧ (addRow yv zs (d :: rest)).length = rest.length + 1 := by
  induction zs generalizing d rest with
  | nil =>
    rw [addRow]
    · refine ⟨by simp, AtMost.cons (by constructor <;> linarith) (bound.mono (by linarith)), by simp⟩
    · simp
  | cons z zs ih =>
    cases rest with
    | nil => simp at long
    | cons hi rest =>
      obtain ⟨high, below, above, nonneg, less, parts⟩ := product_split digit balanced.head
      have near := bound.head
      have first : word (d + yv * z % Base) = d + yv * z % Base := word_eq (by linarith) (by linarith)
      have next : word (hi + word (yv * z / Base)) = hi + yv * z / Base := by
        rw [high]
        exact word_eq (by linarith) (by linarith)
      have later := ih rest (hi + yv * z / Base) balanced.tail (by constructor <;> linarith) bound.tail
        (by simpa using long)
      rw [addRow, first, next]
      refine ⟨?_, AtMost.cons (by constructor <;> linarith) later.2.1, by simp [later.2.2]⟩
      rw [value_cons, later.1, value_cons, value_cons, value_cons, value_cons]
      linear_combination parts

theorem addRows_spec (zs ys ds : List Int) (first : Balanced ys) (second : Balanced zs) (bound : AtMost k ds)
    (small : k + 2 * Base * ys.length ≤ 1152921504606846976) (long : ys.length + zs.length ≤ ds.length) :
    value (addRows zs ys ds) = value ds + value ys * value zs ∧
      AtMost (k + 2 * Base * ys.length) (addRows zs ys ds) ∧ (addRows zs ys ds).length = ds.length := by
  induction ys generalizing ds k with
  | nil => exact ⟨by simp [addRows], by simpa [addRows] using bound, rfl⟩
  | cons yv ys ih =>
    cases ds with
    | nil => simp at long
    | cons d ds =>
      have near := bound.head
      push_cast [List.length_cons] at small long
      have row := addRow_spec (k := k) first.head (by linarith [Int.natCast_nonneg ys.length]) zs ds d second
        (by constructor <;> linarith) bound.tail (by omega)
      rw [addRows]
      cases shape : addRow yv zs (d :: ds) with
      | nil => simp [shape] at row
      | cons e rest =>
        rw [shape] at row
        have size : rest.length = ds.length := by simpa using row.2.2
        have later := ih (k := k + 2 * Base) rest first.tail row.2.1.tail (by linarith) (by omega)
        refine ⟨?_, AtMost.cons ?_ (later.2.1.mono ?_), by simp [later.2.2, size]⟩
        · simp only [value_cons] at row ⊢
          rw [later.1]
          linear_combination row.1
        · have head := row.2.1.head
          push_cast [List.length_cons]
          constructor <;> linarith [Int.natCast_nonneg ys.length]
        · push_cast [List.length_cons]
          linarith

theorem addRowTop_spec (digit : -Half ≤ yv ∧ yv < Half) (small : k ≤ 1152921504606846976) (zs rest : List Int)
    (d : Int) (nonempty : zs ≠ []) (balanced : Balanced zs) (head : -(k + Base) ≤ d ∧ d ≤ k + Base)
    (bound : AtMost k rest) (long : zs.length ≤ rest.length + 1) :
    value (addRowTop yv zs (d :: rest)).1 + Base ^ zs.length * (addRowTop yv zs (d :: rest)).2 =
        value (d :: rest) + yv * value zs ∧
      AtMost (k + 2 * Base) (addRowTop yv zs (d :: rest)).1 ∧
      (addRowTop yv zs (d :: rest)).1.length = rest.length + 1 ∧
      (addRowTop yv zs (d :: rest)).2 = yv * zs.getLastD 0 / Base := by
  induction zs generalizing d rest with
  | nil => exact absurd rfl nonempty
  | cons z zs ih =>
    obtain ⟨high, below, above, nonneg, less, parts⟩ := product_split digit balanced.head
    have first : word (d + yv * z % Base) = d + yv * z % Base := word_eq (by linarith) (by linarith)
    cases zs with
    | nil =>
      rw [addRowTop, first, high]
      refine ⟨?_, AtMost.cons (by constructor <;> linarith) (bound.mono (by linarith)), by simp, by simp⟩
      simp only [value_cons, value_nil, List.length_cons, List.length_nil]
      linear_combination parts
    | cons z' zs =>
      cases rest with
      | nil => simp at long
      | cons hi rest =>
        have near := bound.head
        have next : word (hi + word (yv * z / Base)) = hi + yv * z / Base := by
          rw [high]
          exact word_eq (by linarith) (by linarith)
        have later := ih rest (hi + yv * z / Base) (by simp) balanced.tail (by constructor <;> linarith) bound.tail
          (by simpa using long)
        rw [addRowTop, first, next]
        · refine ⟨?_, AtMost.cons (by constructor <;> linarith) later.2.1, by simp [later.2.2.1], ?_⟩
          · rw [List.length_cons, pow_succ, value_cons]
            simp only [value_cons] at later ⊢
            linear_combination Base * later.1 + parts
          · rw [later.2.2.2]
            rfl
        · simp

theorem addRowsTop_spec (zs ys ds : List Int) (some_ys : ys ≠ []) (some_zs : zs ≠ []) (first : Balanced ys)
    (second : Balanced zs) (bound : AtMost k ds) (small : k + 2 * Base * ys.length ≤ 1152921504606846976)
    (long : ys.length + zs.length ≤ ds.length + 1) :
    value (addRowsTop zs ys ds).1 + Base ^ (ys.length + zs.length - 1) * (addRowsTop zs ys ds).2 =
        value ds + value ys * value zs ∧
      AtMost (k + 2 * Base * ys.length) (addRowsTop zs ys ds).1 ∧
      (addRowsTop zs ys ds).1.length = ds.length ∧
      (addRowsTop zs ys ds).2 = ys.getLastD 0 * zs.getLastD 0 / Base := by
  have others : 0 < zs.length := List.length_pos_iff.mpr some_zs
  induction ys generalizing ds k with
  | nil => exact absurd rfl some_ys
  | cons yv ys ih =>
    cases ds with
    | nil =>
      simp at long
      omega
    | cons d ds =>
      have near := bound.head
      push_cast [List.length_cons] at small long
      have shorter : k ≤ 1152921504606846976 := by linarith [Int.natCast_nonneg ys.length]
      cases ys with
      | nil =>
        have row := addRowTop_spec first.head shorter zs ds d some_zs second (by constructor <;> linarith) bound.tail
          (by simp at long; omega)
        rw [addRowsTop, show [yv].length + zs.length - 1 = zs.length by simp]
        exact ⟨by rw [row.1]; simp, by simpa using row.2.1, row.2.2⟩
      | cons y' ys =>
        have row := addRow_spec (k := k) first.head shorter zs ds d second (by constructor <;> linarith) bound.tail
          (by simp at long; omega)
        rw [addRowsTop]
        · cases shape : addRow yv zs (d :: ds) with
          | nil => simp [shape] at row
          | cons e rest =>
            rw [shape] at row
            have size : rest.length = ds.length := by simpa using row.2.2
            have later := ih (k := k + 2 * Base) rest (by simp) first.tail row.2.1.tail (by linarith) (by omega)
            refine ⟨?_, AtMost.cons ?_ (later.2.1.mono ?_), by simp [later.2.2.1, size], later.2.2.2⟩
            · have power : (yv :: y' :: ys).length + zs.length - 1 = (y' :: ys).length + zs.length - 1 + 1 := by
                simp
                omega
              rw [power, pow_succ, value_cons, value_cons yv, value_cons d]
              rw [value_cons, value_cons] at row
              linear_combination Base * later.1 + row.1
            · have head := row.2.1.head
              push_cast [List.length_cons]
              constructor <;> linarith [Int.natCast_nonneg ys.length]
            · push_cast [List.length_cons]
              linarith
        · simp

theorem addToLast_spec {v : Int} (ds : List Int) (nonempty : ds ≠ []) (bound : AtMost k ds) (low : -Base ≤ v)
    (high : v ≤ Base) (small : k ≤ 2305843009213693952) :
    value (addToLast v ds) = value ds + Base ^ (ds.length - 1) * v ∧ AtMost (k + Base) (addToLast v ds) ∧
      (addToLast v ds).length = ds.length := by
  induction ds with
  | nil => exact absurd rfl nonempty
  | cons d ds ih =>
    have near := bound.head
    cases ds with
    | nil =>
      have sum : word (d + v) = d + v := word_eq (by linarith) (by linarith)
      rw [addToLast, sum]
      refine ⟨?_, AtMost.cons (by constructor <;> linarith) (by simp [AtMost]), rfl⟩
      simp
    | cons e es =>
      have rest := ih (by simp) bound.tail
      rw [addToLast]
      · refine ⟨?_, AtMost.cons (by constructor <;> linarith) rest.2.1, by simp [rest.2.2]⟩
        have power : (d :: e :: es).length - 1 = (e :: es).length - 1 + 1 := by simp
        rw [value_cons, rest.1, power, pow_succ, value_cons d]
        ring
      · simp

theorem Balanced.magnitude (top : Int) (balanced : Balanced low) :
    Base ^ low.length * |top| ≤ 3 * |value (low ++ [top])| := by
  have within := balanced.within
  have width := ones_width low.length
  rw [value_snoc]
  unfold Within at within
  rcases lt_trichotomy top 0 with below | rfl | above
  · rw [abs_of_neg below, abs_of_neg (by nlinarith)]
    nlinarith
  · simp
  · rw [abs_of_pos above, abs_of_pos (by nlinarith)]
    nlinarith

theorem Balanced.product_magnitude {low' : List Int} (top top' : Int) (first : Balanced low) (second : Balanced low') :
    Base ^ (low.length + low'.length) * |top * top'| ≤ 9 * |value (low ++ [top]) * value (low' ++ [top'])| := by
  have large := mul_le_mul (first.magnitude top) (second.magnitude top') (by positivity) (by positivity)
  rw [abs_mul, abs_mul, pow_add]
  linarith

theorem base_le_of_high {p : Int} (high : p / Base ≠ 0 ∧ p / Base ≠ -1) : Base ≤ |p| := by
  simp only [Base] at high ⊢
  rcases abs_cases p with ⟨same, nonneg⟩ | ⟨same, negative⟩ <;> rw [same] <;> omega

theorem zeros_spec (n : Nat) : Balanced (List.replicate n 0) ∧ value (List.replicate n 0) = 0 := by
  induction n with
  | zero => exact ⟨by simp [Balanced], rfl⟩
  | succ n ih =>
    rw [List.replicate_succ]
    exact ⟨ih.1.cons (by norm_num) (by norm_num), by rw [value_cons, ih.2]; rfl⟩

theorem pad_zero (n : Nat) : AtMost 0 (pad n [0]) ∧ value (pad n [0]) = 0 ∧ (0 < n → (pad n [0]).length = n) := by
  refine ⟨?_, ?_, ?_⟩
  · intro d member
    simp [pad] at member
    omega
  · rw [pad, value_append, (zeros_spec _).2]
    rfl
  · intro positive
    simp [pad]
    omega

/-- The last row is added in full when its high word is the sign of the product. -/
theorem addRowsTop_closed (first : Canonical x) (second : Canonical y) (sizes : x.length + y.length = m + 1)
    (few : x.length ≤ 32) (unit : (addRowsTop y x (pad m [0])).2 = 0 ∨ (addRowsTop y x (pad m [0])).2 = -1) :
    (addToLast (word ((addRowsTop y x (pad m [0])).2 * Base)) (addRowsTop y x (pad m [0])).1).length = m ∧
      Small (addToLast (word ((addRowsTop y x (pad m [0])).2 * Base)) (addRowsTop y x (pad m [0])).1) ∧
      value (addToLast (word ((addRowsTop y x (pad m [0])).2 * Base)) (addRowsTop y x (pad m [0])).1) =
        value x * value y := by
  have start := pad_zero m
  have positive : 0 < m := by
    have := first.length_pos
    have := second.length_pos
    omega
  have rows := addRowsTop_spec y x (pad m [0]) first.nonempty second.nonempty first.balanced second.balanced start.1
    (by linarith) (by rw [start.2.2 positive]; omega)
  rw [start.2.2 positive, start.2.1, zero_add, show x.length + y.length - 1 = m by omega] at rows
  have last := addToLast_spec (v := word ((addRowsTop y x (pad m [0])).2 * Base)) _
    (List.length_pos_iff.mp (by omega)) rows.2.1 (by rcases unit with h | h <;> rw [h] <;> decide)
    (by rcases unit with h | h <;> rw [h] <;> decide) (by linarith)
  rw [rows.2.2.1] at last
  refine ⟨last.2.2, fun d member => ?_, ?_⟩
  · have range := last.2.1 d member
    constructor <;> linarith
  · rw [last.1, ← rows.1]
    have power : Base ^ m = Base ^ (m - 1) * Base := by
      rw [← pow_succ]
      congr 1
      omega
    rcases unit with h | h
    · rw [h, show word (0 * Base) = 0 by decide]
      ring
    · rw [h, show word (-1 * Base) = -Base by decide, power]
      ring

/-- The product of canonical numbers, or none if it is too large for the words. -/
theorem addMulAny_spec (first : Canonical x) (second : Canonical y) (short : x.length ≤ m) (short' : y.length ≤ m)
    (few : m ≤ 32) :
    (addMulAny m [0] x y ≠ [] ∧ (addMulAny m [0] x y).length ≤ m ∧ Small (addMulAny m [0] x y) ∧
        value (addMulAny m [0] x y) = value x * value y) ∨
      (addMulAny m [0] x y = [] ∧ Base ^ m ≤ 9 * |value x * value y|) := by
  have some_x := first.length_pos
  simp only [addMulAny, first.nonempty, second.nonempty, List.cons_ne_nil, or_self, ↓reduceIte]
  rcases lt_trichotomy (x.length + y.length) (m + 1) with room | exact_ | tooLong
  · left
    rw [if_neg (by omega), if_pos room]
    have start := pad_zero (x.length + y.length)
    have rows := addRows_spec y x (pad (x.length + y.length) [0]) first.balanced second.balanced start.1 (by linarith)
      (by rw [start.2.2 (by omega)])
    rw [start.2.2 (by omega), start.2.1, zero_add] at rows
    refine ⟨List.length_pos_iff.mp (by omega), by omega, fun d member => ?_, rows.1⟩
    have range := rows.2.1 d member
    constructor <;> linarith
  · rw [if_neg (by omega), if_neg (by omega), show x.length + y.length - 1 = m by omega]
    have rows := addRowsTop_spec y x (pad m [0]) first.nonempty second.nonempty first.balanced second.balanced
      (pad_zero m).1 (by linarith) (by rw [(pad_zero m).2.2 (by omega)]; omega)
    split
    · next high =>
      right
      obtain ⟨low, top, rfl, balanced, -⟩ := first.split
      obtain ⟨low', top', rfl, balanced', -⟩ := second.split
      rw [rows.2.2.2, List.getLastD_concat, List.getLastD_concat] at high
      have wide := base_le_of_high high
      have product := balanced.product_magnitude top top' balanced'
      have power : Base ^ m = Base ^ (low.length + low'.length) * Base := by
        rw [← pow_succ]
        congr 1
        simp at exact_
        omega
      have positive : 0 < Base ^ (low.length + low'.length) := pow_pos (by norm_num) _
      exact ⟨rfl, by nlinarith⟩
    · next inside =>
      left
      have closed := addRowsTop_closed first second exact_ (by omega) (by
        by_contra neither
        exact inside (not_or.mp neither))
      exact ⟨List.length_pos_iff.mp (by omega), by omega, closed.2⟩
  · right
    rw [if_pos tooLong]
    obtain ⟨low, top, rfl, balanced, -, -, lone⟩ := first.split
    obtain ⟨low', top', rfl, balanced', -, -, lone'⟩ := second.split
    simp only [List.length_append, List.length_singleton] at short short' tooLong
    have nonzero : top ≠ 0 := fun zero => by simp [lone zero] at tooLong; omega
    have nonzero' : top' ≠ 0 := fun zero => by simp [lone' zero] at tooLong; omega
    have unit : 1 ≤ |top * top'| := Int.one_le_abs (mul_ne_zero nonzero nonzero')
    have product := balanced.product_magnitude top top' balanced'
    have power : Base ^ m ≤ Base ^ (low.length + low'.length) := pow_le_pow_right₀ (by norm_num) (by omega)
    have positive : 0 < Base ^ (low.length + low'.length) := pow_pos (by norm_num) _
    exact ⟨rfl, by nlinarith⟩

end Products

end TonStaking.Source.BigInt
