import Mathlib.Data.Int.Bitwise
import Mathlib.Tactic.Ring

/-!
# Bitwise operations on integers, one block of bits at a time

An operation on the bits of two integers in two's complement acts on the blocks of `k`
low bits and on the integers above them separately.
-/
namespace TonStaking.Word

variable (f : Bool → Bool → Bool)

theorem bitwise_step (m n : ℤ) :
    Int.bitwise f m n = 2 * Int.bitwise f (m / 2) (n / 2) + cond (f m.bodd n.bodd) 1 0 := by
  have split := Int.bitwise_bit f m.bodd m.div2 n.bodd n.div2
  rwa [Int.bit_decomp, Int.bit_decomp, Int.bit_val, Int.div2_val, Int.div2_val] at split

theorem bitwise_div (k : ℕ) (m n : ℤ) : Int.bitwise f m n / 2 ^ k = Int.bitwise f (m / 2 ^ k) (n / 2 ^ k) := by
  induction k generalizing m n with
  | zero => simp
  | succ k ih =>
    have half : Int.bitwise f m n / 2 = Int.bitwise f (m / 2) (n / 2) := by
      rw [bitwise_step f m n]
      cases f m.bodd n.bodd <;> simp only [cond_true, cond_false] <;> omega
    rw [pow_succ', ← Int.ediv_ediv_of_nonneg (by norm_num), ← Int.ediv_ediv_of_nonneg (by norm_num),
      ← Int.ediv_ediv_of_nonneg (by norm_num), half, ih]

theorem bitwise_low (k : ℕ) (a b p q : ℤ) :
    2 ^ k ∣ Int.bitwise f (a + 2 ^ k * p) (b + 2 ^ k * q) - Int.bitwise f a b := by
  induction k generalizing a b with
  | zero => simp
  | succ k ih =>
    have half : ∀ c t : ℤ, (c + 2 ^ (k + 1) * t) / 2 = c / 2 + 2 ^ k * t := by
      intro c t
      rw [pow_succ', mul_assoc, Int.add_mul_ediv_left c _ (by norm_num)]
    have parity : ∀ c t : ℤ, (c + 2 ^ (k + 1) * t).bodd = c.bodd := by
      intro c t
      rw [pow_succ', mul_assoc, Int.bodd_add, Int.bodd_mul, Int.bodd_two]
      simp
    rw [bitwise_step f (a + _), bitwise_step f a, half, half, parity, parity, add_sub_add_right_eq_sub, ← mul_sub,
      pow_succ']
    exact mul_dvd_mul_left 2 (ih (a / 2) (b / 2))

theorem bitwise_split (k : ℕ) (a b p q : ℤ) :
    Int.bitwise f (a + 2 ^ k * p) (b + 2 ^ k * q) =
      Int.bitwise f a b % 2 ^ k + 2 ^ k * Int.bitwise f (a / 2 ^ k + p) (b / 2 ^ k + q) := by
  have nonzero : (2 : ℤ) ^ k ≠ 0 := pow_ne_zero k (by norm_num)
  have parts := Int.emod_add_mul_ediv (Int.bitwise f (a + 2 ^ k * p) (b + 2 ^ k * q)) (2 ^ k)
  rw [bitwise_div, Int.add_mul_ediv_left _ _ nonzero, Int.add_mul_ediv_left _ _ nonzero,
    (Int.emod_eq_emod_iff_emod_sub_eq_zero.mpr (Int.emod_eq_zero_of_dvd (bitwise_low f k a b p q)))] at parts
  exact parts.symm

end TonStaking.Word
