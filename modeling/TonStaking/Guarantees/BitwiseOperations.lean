import TonStaking.Source.BigInt.Logic

/-!
# Bitwise operations of the virtual machine

NOT is exact. AND, OR and XOR are exact, in canonical form and without an overflow unless
the first operand has fewer digits than the second and the result more: there the carry
out of the last digit is taken for an overflow. With the operands exchanged the same
operation succeeds.
-/
namespace TonStaking.Guarantees.BitwiseOperations

open TonStaking.Source.BigInt

/-- The finite integers of the virtual machine. -/
def Number : Type := { x : TvmInt // x.digits ≠ [] }

namespace Number

def digits (x : Number) : List Int := x.1.digits

def int (x : Number) : Int := value x.digits

theorem canonical (x : Number) : Canonical x.digits := (x.1.number x.2).1

theorem fits (x : Number) : Fits x.int := (x.1.number x.2).2

theorem length_le (x : Number) : x.digits.length ≤ 5 := x.1.length_le x.2

end Number

variable (l : LogOp) (quiet : Bool) (stack : List (List Int))

/-- The stack an instruction leaves holds the number on top, in canonical form. -/
def Pushes (z : Int) (r : Except Excno (List (List Int))) : Prop :=
  ∃ x, Canonical x ∧ value x = z ∧ r = .ok (x :: stack)

/-- The digits of the first operand are fewer than those of the second, and those of the
result more. -/
def CarriesOut (x y : Number) : Prop :=
  x.digits.length < y.digits.length ∧ ¬ Within y.digits.length (l.op x.int y.int)

/-- The operand decides the result whatever the other one is. -/
def Absorbs (x : TvmInt) : Prop :=
  l = .and ∧ x.value? = some 0 ∨ l = .or ∧ x.value? = some (-1)

instance (x : TvmInt) : Decidable (Absorbs l x) := by
  unfold Absorbs
  infer_instance

/-- What the instruction leaves next to a NaN. -/
def withNan (x : TvmInt) : Except Excno (List (List Int)) :=
  if Absorbs l x then .ok (x.digits :: stack) else if quiet then .ok ([] :: stack) else .error .intOv

theorem Leaves.pushes {quiet : Bool} {stack : List (List Int)} {z : Int} {r : Except Excno (List (List Int))}
    (leaves : Leaves quiet stack (some z) r) (fits : Fits z) : Pushes stack z r := by
  simpa [Leaves, fits, Pushes] using leaves

theorem exec_pushes_iff (x y : Number) :
    Pushes stack (l.op x.int y.int) (l.exec quiet (y.digits :: x.digits :: stack)) ↔ ¬ CarriesOut l x y := by
  have fits := l.fits_op x.fits y.fits
  have spec := l.logOpAny_spec x.canonical y.canonical x.length_le y.length_le fits.within
  change Pushes _ _ (pushIntQuiet quiet stack (l.logOpAny 5 x.digits y.digits)) ↔
    ¬ (x.digits.length < y.digits.length ∧ ¬ Within y.digits.length (l.op (value x.digits) (value y.digits)))
  constructor
  · rintro ⟨r, canonical, -, pushed⟩ carries
    rw [if_pos carries] at spec
    rw [spec] at pushed
    cases quiet
    · cases pushed
    · injection pushed with pushed
      injection pushed with digits _
      exact canonical.nonempty digits.symm
  · intro fine
    rw [if_neg fine] at spec
    have within : Within 5 (l.op (value x.digits) (value y.digits)) := fits.within
    rw [← spec.2] at within
    have pushed := push_canonical quiet stack spec.1 (spec.1.length_le (by norm_num) within)
    rw [spec.2] at pushed
    exact Leaves.pushes pushed fits

theorem not_pushes (x : Number) :
    Pushes stack x.int.lnot (execNot quiet (x.digits :: stack)) := by
  have fits := x.fits
  have complement : x.int.lnot = -x.int - 1 := by
    cases x.int with
    | ofNat n => simp [Int.lnot, Int.negSucc_eq]; ring
    | negSucc n => simp [Int.lnot]
  have fits' : Fits (-x.int - 1) := by
    unfold Fits at fits ⊢
    omega
  obtain ⟨same, small, nonempty, size⟩ := logicalNot_spec x.canonical.balanced x.canonical.nonempty
  have pushed := push_normalized quiet stack nonempty (size ▸ x.length_le) small
  rw [same] at pushed
  rw [complement]
  exact Leaves.pushes pushed fits'

theorem value?_eq_some_iff (x : TvmInt) {d : Int} (low : -Half ≤ d) (high : d < Half) :
    x.value? = some d ↔ x.digits = [d] := by
  unfold TvmInt.value?
  by_cases nan : x.digits = []
  · simp [nan]
  rw [if_neg nan, Option.some.injEq]
  have single := Canonical.single low high
  have one : value [d] = d := by simp
  constructor
  · intro same
    exact (x.number nan).1.unique single (same.trans one.symm)
  · intro same
    rw [same, one]

theorem absorbs_iff (x : TvmInt) : Absorbs l x ↔ l.hasZero = true ∧ x.digits = [l.zero] := by
  have zero := value?_eq_some_iff x (d := 0) (by norm_num) (by norm_num)
  have ones := value?_eq_some_iff x (d := -1) (by norm_num) (by norm_num)
  cases l <;> simp [Absorbs, LogOp.hasZero, LogOp.zero, zero, ones]

theorem exec_nan (x : TvmInt) :
    l.exec quiet ([] :: x.digits :: stack) = withNan l quiet stack x ∧
      l.exec quiet (x.digits :: [] :: stack) = withNan l quiet stack x := by
  have nan : pushIntQuiet quiet stack [] = if quiet then .ok ([] :: stack) else .error .intOv := push_nan quiet stack
  unfold withNan
  change pushIntQuiet quiet stack (l.logOpAny 5 x.digits []) = _ ∧ pushIntQuiet quiet stack (l.logOpAny 5 [] x.digits) = _
  by_cases absorbs : Absorbs l x
  · obtain ⟨has, digits⟩ := (absorbs_iff l x).mp absorbs
    have fits : signedFitsBits 257 [l.zero] = true := by cases l <;> decide
    simp [if_pos absorbs, LogOp.logOpAny, has, digits, pushIntQuiet, fits]
    rfl
  · have other := (absorbs_iff l x).not.mp absorbs
    rw [if_neg absorbs, ← nan]
    have left : l.logOpAny 5 x.digits [] = [] := by simp [LogOp.logOpAny, other]
    have right : l.logOpAny 5 [] x.digits = [] := by simp +contextual [LogOp.logOpAny, other]
    rw [left, right]
    exact ⟨rfl, rfl⟩

/-- NOT, and the rules for a NaN, hold without exception; AND, OR and XOR leave the bits
of the operation unless a carry runs out of a longer second operand. -/
theorem bitwise_exact_iff (x y : Number) (w : TvmInt) :
    ((∀ k, (l.op x.int y.int).testBit k = l.bit (x.int.testBit k) (y.int.testBit k)) ∧
      Fits (l.op x.int y.int) ∧ l.op x.int y.int = l.op y.int x.int ∧
      (Pushes stack (l.op x.int y.int) (l.exec quiet (y.digits :: x.digits :: stack)) ↔ ¬ CarriesOut l x y)) ∧
    ((∀ k, x.int.lnot.testBit k = !x.int.testBit k) ∧
      Pushes stack x.int.lnot (execNot quiet (x.digits :: stack))) ∧
    (l.exec quiet ([] :: w.digits :: stack) = withNan l quiet stack w ∧
      l.exec quiet (w.digits :: [] :: stack) = withNan l quiet stack w) ∧
    execNot quiet ([] :: stack) = if quiet then .ok ([] :: stack) else .error .intOv := by
  refine ⟨⟨?_, ?_, ?_, ?_⟩, ⟨?_, ?_⟩, exec_nan l quiet stack w, push_nan quiet stack⟩
  · exact l.testBit_op x.int y.int
  · exact l.fits_op x.fits y.fits
  · exact l.op_comm x.int y.int
  · exact exec_pushes_iff l quiet stack x y
  · exact Int.testBit_lnot x.int
  · exact not_pushes quiet stack x

/-- The complement of -(2^103 + 2^51) has a digit more, and -1 is shorter: XOR overflows in
one order of the operands and not in the other. -/
theorem xor_refused :
    LogOp.xor.exec false [[-Half, -Half], [-1]] = .error .intOv ∧
      LogOp.xor.exec false [[-1], [-Half, -Half]] = .ok [[Half - 1, -Half, 1]] ∧
      value [Half - 1, -Half, 1] = LogOp.xor.op (value [-1]) (value [-Half, -Half]) ∧
      Canonical [-1] ∧ Canonical [-Half, -Half] ∧ Fits (value [-1]) ∧ Fits (value [-Half, -Half]) := by
  have one : Canonical [-1] := Canonical.single (by norm_num) (by norm_num)
  have two : Canonical [-Half, -Half] := ⟨by simp, by decide +kernel, by simp⟩
  exact ⟨by decide +kernel, by decide +kernel, by decide +kernel, one, two, by decide +kernel, by decide +kernel⟩

end TonStaking.Guarantees.BitwiseOperations
