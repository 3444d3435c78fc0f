import Mathlib.Data.Nat.Bitwise

/-!
# The lowest set bit of a word

Words whose lowest set bit marks the end of a bit string: the bits above it are
the string. Masks made from the lowest bit by negation and shifts compare, cut and
extend such strings.
-/
namespace TonStaking.Word

open BitVec

section LowestBit

variable {w : Nat}
variable {x y : BitVec w} {i k l : Nat}

/-- The position of the lowest set bit; the width of the word if there is none. -/
def lowest (x : BitVec w) : Nat := x.ctz.toNat

theorem lowest_lt (nonzero : x ≠ 0) : lowest x < w := by
  by_contra high
  have set : x.getLsbD (lowest x) = true := getLsbD_true_ctz_of_ne_zero nonzero
  rw [getLsbD_of_ge x _ (Nat.not_lt.mp high)] at set
  cases set

theorem getLsbD_lowest (nonzero : x ≠ 0) : x.getLsbD (lowest x) = true :=
  getLsbD_true_ctz_of_ne_zero nonzero

theorem getLsbD_below (below : i < lowest x) : x.getLsbD i = false :=
  getLsbD_false_of_lt_ctz below

theorem lowest_eq (set : x.getLsbD k = true) (clear : ∀ i < k, x.getLsbD i = false) : lowest x = k := by
  have nonzero : x ≠ 0 := by
    rintro rfl
    simp at set
  rcases Nat.lt_trichotomy (lowest x) k with less | same | more
  · have low := getLsbD_lowest nonzero
    rw [clear _ less] at low
    cases low
  · exact same
  · rw [getLsbD_below more] at set
    cases set

theorem and_neg_self (nonzero : x ≠ 0) : x &&& -x = twoPow w (lowest x) := by
  apply eq_of_getLsbD_eq
  intro i inside
  rw [getLsbD_and, getLsbD_neg, getLsbD_twoPow]
  have position := lowest_lt nonzero
  rcases Nat.lt_trichotomy i (lowest x) with less | rfl | more
  · rw [getLsbD_below less]
    have different : ¬ lowest x = i := by omega
    simp [different]
  · have first : ¬ ∃ j < lowest x, x.getLsbD j = true := by
      rintro ⟨j, below, set⟩
      rw [getLsbD_below below] at set
      cases set
    simp [getLsbD_lowest nonzero, first, position]
  · have some : ∃ j < i, x.getLsbD j = true := ⟨lowest x, more, getLsbD_lowest nonzero⟩
    have different : ¬ lowest x = i := by omega
    cases bit : x.getLsbD i with
    | false => simp [different]
    | true => simp [some, inside, different]

theorem getLsbD_neg_twoPow (position : k < w) : (-(twoPow w k)).getLsbD i = decide (k ≤ i ∧ i < w) := by
  have bits : (∃ j < i, (twoPow w k).getLsbD j = true) ↔ k < i := by
    constructor
    · rintro ⟨j, below, set⟩
      rw [getLsbD_twoPow, Bool.and_eq_true, decide_eq_true_eq, decide_eq_true_eq] at set
      omega
    · intro above
      exact ⟨k, above, by simp [position]⟩
  rw [getLsbD_neg, getLsbD_twoPow]
  simp only [bits]
  grind

theorem getLsbD_mask (position : k < w) : ((-(twoPow w k)) <<< 1).getLsbD i = decide (k < i ∧ i < w) := by
  rw [getLsbD_shiftLeft, getLsbD_neg_twoPow position]
  grind

/-- Two words agree above a position. -/
def AgreeAbove (k : Nat) (x y : BitVec w) : Prop := ∀ i, k < i → i < w → x.getLsbD i = y.getLsbD i

theorem xor_and_mask_eq_zero (position : k < w) : (x ^^^ y) &&& ((-(twoPow w k)) <<< 1) = 0 ↔ AgreeAbove k x y := by
  constructor
  · intro zero i above inside
    have bit := congrArg (fun word => word.getLsbD i) zero
    rw [getLsbD_and, getLsbD_xor, getLsbD_mask position] at bit
    simpa [above, inside] using bit
  · intro agree
    apply eq_of_getLsbD_eq
    intro i inside
    rw [getLsbD_and, getLsbD_xor, getLsbD_mask position]
    by_cases above : k < i
    · simp [agree i above inside]
    · simp [above]

theorem AgreeAbove.symm (agree : AgreeAbove k x y) : AgreeAbove k y x :=
  fun i above inside => (agree i above inside).symm

theorem AgreeAbove.trans {z : BitVec w} (first : AgreeAbove k x y) (second : AgreeAbove k y z) : AgreeAbove k x z :=
  fun i above inside => (first i above inside).trans (second i above inside)

theorem AgreeAbove.mono (agree : AgreeAbove k x y) (higher : k ≤ l) : AgreeAbove l x y :=
  fun i above inside => agree i (Nat.lt_of_le_of_lt higher above) inside

theorem twoPow_le_iff (position : k < w) (position' : l < w) : twoPow w k ≤ twoPow w l ↔ k ≤ l := by
  rw [BitVec.le_def, toNat_twoPow_of_lt position, toNat_twoPow_of_lt position']
  exact Nat.pow_le_pow_iff_right (by decide)

theorem twoPow_lt_iff (position : k < w) (position' : l < w) : twoPow w k < twoPow w l ↔ k < l := by
  rw [BitVec.lt_def, toNat_twoPow_of_lt position, toNat_twoPow_of_lt position']
  exact Nat.pow_lt_pow_iff_right (by decide)

theorem twoPow_shiftLeft_one : (twoPow w k <<< 1).getLsbD i = decide (i = k + 1 ∧ i < w) := by
  rw [shiftLeft_eq_mul_twoPow, twoPow_mul_twoPow_eq, getLsbD_twoPow]
  grind

theorem twoPow_ushiftRight_one (position : k + 1 < w) : twoPow w (k + 1) >>> 1 = twoPow w k := by
  apply eq_of_getLsbD_eq
  intro i inside
  rw [getLsbD_ushiftRight, getLsbD_twoPow, getLsbD_twoPow, decide_eq_true position,
    decide_eq_true (by omega : k < w), Bool.true_and, Bool.true_and]
  exact decide_eq_decide.mpr (by omega)

theorem add_twoPow_of_clear (clear : x.getLsbD k = false) : x + twoPow w k = x ||| twoPow w k := by
  apply add_eq_or_of_and_eq_zero
  rw [and_twoPow, clear]
  rfl

theorem or_twoPow_of_set (set : x.getLsbD k = true) : x &&& ~~~ twoPow w k ||| twoPow w k = x := by
  apply eq_of_getLsbD_eq
  intro i inside
  rw [getLsbD_or, getLsbD_and, getLsbD_not, getLsbD_twoPow]
  grind

theorem sub_twoPow_of_set (set : x.getLsbD k = true) : x - twoPow w k = x &&& ~~~ twoPow w k := by
  have disjoint : (x &&& ~~~ twoPow w k).getLsbD k = false := by
    simp
  have sum := add_twoPow_of_clear disjoint
  rw [or_twoPow_of_set set] at sum
  nth_rewrite 1 [← sum]
  rw [BitVec.add_sub_cancel]

theorem getLsbD_twoPow_sub_one (position : k < w) : (twoPow w k - 1#w).getLsbD i = decide (i < k) := by
  have small : 1 ≤ 2 ^ k := Nat.one_le_two_pow
  have large : 2 ^ k < 2 ^ w := Nat.pow_lt_pow_right (by decide) position
  have value : (twoPow w k - 1#w).toNat = 2 ^ k - 1 := by
    have one : 1 % 2 ^ w = 1 := Nat.mod_eq_of_lt (by omega)
    rw [toNat_sub_of_le, toNat_twoPow_of_lt position, toNat_ofNat, one]
    rw [BitVec.le_def, toNat_twoPow_of_lt position, toNat_ofNat, one]
    exact small
  rw [← testBit_toNat, value, Nat.testBit_two_pow_sub_one]

theorem and_ones_eq_zero (position : k < w) : x &&& (twoPow w k - 1#w) = 0#w ↔ ∀ i < k, x.getLsbD i = false := by
  constructor
  · intro zero i below
    have bit := congrArg (fun word => word.getLsbD i) zero
    simpa [getLsbD_twoPow_sub_one position, below] using bit
  · intro clear
    apply eq_of_getLsbD_eq
    intro i inside
    rw [getLsbD_and, getLsbD_twoPow_sub_one position]
    by_cases below : i < k
    · simp [clear i below]
    · simp [below]

theorem getLsbD_sub_one (nonzero : x ≠ 0) (inside : i < w) :
    (x - 1#w).getLsbD i = (decide (i < lowest x) || x.getLsbD i && decide (i ≠ lowest x)) := by
  have position := lowest_lt nonzero
  have disjoint : (x &&& ~~~ twoPow w (lowest x)) &&& (twoPow w (lowest x) - 1#w) = 0#w := by
    refine (and_ones_eq_zero position).mpr fun j below => ?_
    simp [getLsbD_below below]
  have sum : x - 1#w = (x &&& ~~~ twoPow w (lowest x)) + (twoPow w (lowest x) - 1#w) := by
    rw [← sub_twoPow_of_set (getLsbD_lowest nonzero)]
    generalize twoPow w (lowest x) = t
    rw [BitVec.sub_eq_add_neg t 1#w, ← BitVec.add_assoc, BitVec.sub_add_cancel, BitVec.sub_eq_add_neg]
  rw [sum, add_eq_or_of_and_eq_zero _ _ disjoint, getLsbD_or, getLsbD_twoPow_sub_one position, getLsbD_and,
    getLsbD_not, getLsbD_twoPow, Bool.or_comm]
  simp [inside, position, eq_comm]

theorem and_sub_one (nonzero : x ≠ 0) : x &&& (x - 1#w) = x &&& ~~~ twoPow w (lowest x) := by
  apply eq_of_getLsbD_eq
  intro i inside
  rw [getLsbD_and, getLsbD_sub_one nonzero inside]
  by_cases below : i < lowest x
  · simp [getLsbD_below below]
  · simp [below, inside]

theorem agreeAbove_iff_div : AgreeAbove k x y ↔ x.toNat / 2 ^ (k + 1) = y.toNat / 2 ^ (k + 1) := by
  constructor
  · intro agree
    apply Nat.eq_of_testBit_eq
    intro i
    rw [Nat.testBit_div_two_pow, Nat.testBit_div_two_pow, testBit_toNat, testBit_toNat]
    by_cases inside : i + (k + 1) < w
    · exact agree _ (by omega) inside
    · rw [getLsbD_of_ge x _ (Nat.not_lt.mp inside), getLsbD_of_ge y _ (Nat.not_lt.mp inside)]
  · intro same i above inside
    have bit := congrArg (fun n => n.testBit (i - (k + 1))) same
    simp only [Nat.testBit_div_two_pow] at bit
    rwa [Nat.sub_add_cancel (by omega), testBit_toNat, testBit_toNat] at bit

/-- The words that agree with `x` above its lowest bit form an interval. -/
theorem interval_iff {h : BitVec w} (nonzero : x ≠ 0) :
    x &&& (x - 1#w) ≤ h ∧ h ≤ x ||| (x - 1#w) ↔ AgreeAbove (lowest x) x h := by
  have position := lowest_lt nonzero
  have lowBits : (x &&& (x - 1#w)).toNat % 2 ^ (lowest x + 1) = 0 := by
    apply Nat.eq_of_testBit_eq
    intro i
    rw [Nat.testBit_mod_two_pow, testBit_toNat, Nat.zero_testBit]
    by_cases low : i < lowest x + 1
    · rw [getLsbD_and, getLsbD_sub_one nonzero (by omega)]
      rcases Nat.lt_or_eq_of_le (Nat.le_of_lt_succ low) with below | rfl
      · simp [getLsbD_below below]
      · simp
    · simp [low]
  have highBits : (x ||| (x - 1#w)).toNat % 2 ^ (lowest x + 1) = 2 ^ (lowest x + 1) - 1 := by
    apply Nat.eq_of_testBit_eq
    intro i
    rw [Nat.testBit_mod_two_pow, testBit_toNat, Nat.testBit_two_pow_sub_one]
    by_cases low : i < lowest x + 1
    · rw [getLsbD_or, getLsbD_sub_one nonzero (by omega)]
      rcases Nat.lt_or_eq_of_le (Nat.le_of_lt_succ low) with below | rfl
      · simp [below, low]
      · simp [getLsbD_lowest nonzero]
    · simp [low]
  have same : ∀ y : BitVec w, (y = x &&& (x - 1#w) ∨ y = x ||| (x - 1#w)) →
      y.toNat / 2 ^ (lowest x + 1) = x.toNat / 2 ^ (lowest x + 1) := by
    intro y either
    rw [← agreeAbove_iff_div]
    intro i above inside
    have different : i ≠ lowest x := by omega
    have notBelow : ¬ i < lowest x := by omega
    rcases either with rfl | rfl
    · rw [getLsbD_and, getLsbD_sub_one nonzero inside]
      simp [different, notBelow]
    · rw [getLsbD_or, getLsbD_sub_one nonzero inside]
      simp [different, notBelow]
  have bottom := same _ (.inl rfl)
  have top := same _ (.inr rfl)
  rw [BitVec.le_def, BitVec.le_def, agreeAbove_iff_div]
  generalize (x &&& (x - 1#w)).toNat = low at *
  generalize (x ||| (x - 1#w)).toNat = high at *
  have size : 0 < 2 ^ (lowest x + 1) := Nat.two_pow_pos _
  have lowIs := Nat.div_add_mod low (2 ^ (lowest x + 1))
  have highIs := Nat.div_add_mod high (2 ^ (lowest x + 1))
  rw [lowBits, bottom, Nat.add_zero] at lowIs
  rw [highBits, top] at highIs
  constructor
  · intro between
    symm
    rw [Nat.div_eq_iff size, Nat.mul_comm]
    omega
  · intro equal
    have hIs := Nat.div_add_mod h.toNat (2 ^ (lowest x + 1))
    rw [← equal] at hIs
    omega

def highest (x : BitVec w) : Nat := w - 1 - x.clz.toNat

theorem getLsbD_highest (nonzero : x ≠ 0) : x.getLsbD (highest x) = true := by
  have positive : 0 < w := Nat.zero_lt_of_lt (lowest_lt nonzero)
  exact getLsbD_true_clz_of_ne_zero positive nonzero

theorem clz_lt (nonzero : x ≠ 0) : x.clz.toNat < w := by
  have less := clz_lt_iff_ne_zero.mpr nonzero
  refine Nat.lt_of_lt_of_le less ?_
  exact Nat.mod_le _ _

theorem le_highest (set : x.getLsbD i = true) : i ≤ highest x := by
  have bound : x.toNat < 2 ^ (w - x.clz.toNat) := toNat_lt_two_pow_sub_clz
  by_contra higher
  have large := Nat.ge_two_pow_of_testBit set
  have powers : 2 ^ (w - x.clz.toNat) ≤ 2 ^ i := Nat.pow_le_pow_right (by decide) (by unfold highest at higher; omega)
  omega

theorem lowest_le (set : x.getLsbD i = true) : lowest x ≤ i := by
  by_contra lower
  rw [getLsbD_below (Nat.not_le.mp lower)] at set
  cases set

end LowestBit

end TonStaking.Word
