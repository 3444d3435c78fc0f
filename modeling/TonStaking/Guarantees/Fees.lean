import Mathlib.Algebra.Order.Floor.Div
import TonStaking.Source.Transaction.Effects

/-!
# Fees follow their formulas

Forwarding fees are computed in words of 64 bits, and the part for instant hypercube routing
is rounded down where the formula in front of `compute_fwd_fees` rounds up.
-/
namespace TonStaking.Guarantees.Fees

open TonStaking.Source.Transaction

variable (p : MsgPrices) (cells bits : Nat)

/-- `msg_fwd_fees` as the source states it. -/
def fwdFormula : Nat := p.lumpPrice + (p.bitPrice * bits + p.cellPrice * cells) ⌈/⌉ 2 ^ 16

structure FollowsFormula : Prop where
  fwd : p.computeFwdFees cells bits = fwdFormula p cells bits
  ihr : (p.computeFwdIhrFees cells bits false).2 = (fwdFormula p cells bits * p.ihrFactor) ⌈/⌉ 2 ^ 16
  firstPart : ∀ total : Nat, 0 ≤ p.getFirstPart total ∧ p.getFirstPart total ≤ total

/-- Nothing may exceed a word, and the division for the routing may leave no remainder. -/
theorem followsFormula_iff (cells : Fin (maxMsgCells + 1)) (bits : Fin (maxMsgBits + 1)) :
    FollowsFormula p cells bits ↔ fwdFormula p cells bits < 2 ^ 64 ∧
      2 ^ 16 ∣ fwdFormula p cells bits * p.ihrFactor ∧ fwdFormula p cells bits * p.ihrFactor / 2 ^ 16 < 2 ^ 64 := by
  have fwd : p.computeFwdFees cells bits = fwdFormula p cells bits % 2 ^ 64 := by
    rw [MsgPrices.computeFwdFees, fwdFormula, Nat.ceilDiv_eq_add_pred_div]
    omega
  have routing (fits : fwdFormula p cells bits < 2 ^ 64) : (p.computeFwdIhrFees cells bits false).2 =
      fwdFormula p cells bits * p.ihrFactor / 2 ^ 16 % 2 ^ 64 := by
    simp only [MsgPrices.computeFwdIhrFees, fwd, Nat.mod_eq_of_lt fits, Bool.false_eq_true, if_false]
    omega
  constructor
  · intro holds
    have fits : fwdFormula p cells bits < 2 ^ 64 := by
      rw [← holds.fwd, fwd]
      exact Nat.mod_lt _ (by decide)
    have ihr := holds.ihr
    rw [routing fits, Nat.ceilDiv_eq_add_pred_div] at ihr
    omega
  · rintro ⟨fits, whole, small⟩
    refine ⟨by rw [fwd, Nat.mod_eq_of_lt fits], ?_, fun total => getFirstPart_bounds p (Int.natCast_nonneg total)⟩
    rw [routing fits, Nat.ceilDiv_eq_add_pred_div]
    omega

/-- One nanogram at a factor of 1/65536: the fee is 0 and not 1. -/
theorem routing_rounded_down : ¬ FollowsFormula ⟨1, 0, 0, 1, 0⟩ 0 0 := by
  intro holds
  have free := holds.ihr
  rw [fwdFormula, Nat.ceilDiv_eq_add_pred_div, Nat.ceilDiv_eq_add_pred_div] at free
  cases free

end TonStaking.Guarantees.Fees
