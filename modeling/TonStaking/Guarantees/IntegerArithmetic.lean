import TonStaking.Source.BigInt.Instructions

/-!
# Addition and multiplication of the virtual machine are exact

For operands in canonical form every instruction of the addition and multiplication
group leaves the exact result in canonical form when it has 257 bits, and reports an
overflow (a NaN in the quiet forms) otherwise. On canonical digits `operator==` and
`cmp` decide equality and order of the numbers.
-/
namespace TonStaking.Guarantees.IntegerArithmetic

open TonStaking.Source.BigInt

section Instructions

variable (quiet : Bool) (stack : List (List Int)) (x y : TvmInt)

theorem binary_nan (instr : Binary) (nan : x.digits = [] ∨ y.digits = []) :
    Leaves quiet stack none (instr.exec quiet (y.digits :: x.digits :: stack)) := by
  have empty : instr.exec quiet (y.digits :: x.digits :: stack) = pushIntQuiet quiet stack [] := by
    rcases nan with nan | nan <;> cases instr <;>
      simp [Binary.exec, add, sub, mul, addAny, subAny, combineAny_nan, addMulAny, normalizeAny, nan]
  rw [empty]
  exact push_nan quiet stack

theorem binary_exact (instr : Binary) (first : x.digits ≠ []) (second : y.digits ≠ []) :
    Leaves quiet stack (some (instr.result (value x.digits) (value y.digits)))
      (instr.exec quiet (y.digits :: x.digits :: stack)) := by
  cases instr with
  | add =>
    have pushed := push_combined quiet stack (.inl rfl) x y first second
    rwa [one_mul] at pushed
  | sub =>
    have pushed := push_combined quiet stack (.inr rfl) x y first second
    rwa [neg_one_mul, ← sub_eq_add_neg] at pushed
  | subr =>
    have pushed := push_combined quiet stack (.inr rfl) y x second first
    rwa [neg_one_mul, ← sub_eq_add_neg] at pushed
  | mul => exact push_mul quiet stack x y first second

theorem unary_nan (instr : Unary) (nan : x.digits = []) :
    Leaves quiet stack none (instr.exec quiet (x.digits :: stack)) := by
  have empty : instr.exec quiet (x.digits :: stack) = pushIntQuiet quiet stack [] := by
    cases instr <;> simp [Unary.exec, neg, addShort, mulShort, negateAny, addTiny, mulTinyAny, normalizeAny, nan]
  rw [empty]
  exact push_nan quiet stack

theorem unary_exact (instr : Unary) (finite : x.digits ≠ []) :
    Leaves quiet stack (some (instr.result (value x.digits))) (instr.exec quiet (x.digits :: stack)) := by
  have byte : ∀ args : BitVec 8, -1024 ≤ args.toInt ∧ args.toInt ≤ 1024 := by
    intro args
    have low := BitVec.le_toInt args
    have high := BitVec.toInt_lt (x := args)
    omega
  cases instr with
  | negate =>
    have linear : ∀ d, word (-d) = word (d * -1) := fun d => by rw [mul_neg_one]
    have pushed := push_scaled quiet stack x finite linear (by norm_num) (by norm_num)
    rwa [mul_neg_one] at pushed
  | inc | dec => exact push_addShort quiet stack x finite (by norm_num) (by norm_num)
  | addInt args => exact push_addShort quiet stack x finite (byte args).1 (byte args).2
  | mulInt args => exact push_scaled quiet stack x finite (fun _ => rfl) (byte args).1 (byte args).2

end Instructions

/-- Every instruction leaves the exact result, or overflows because there is none. -/
theorem arithmetic_exact :
    (∀ (instr : Binary) (quiet : Bool) (stack : List (List Int)) (x y : TvmInt),
      Leaves quiet stack (do return instr.result (← x.value?) (← y.value?))
        (instr.exec quiet (y.digits :: x.digits :: stack))) ∧
    (∀ (instr : Unary) (quiet : Bool) (stack : List (List Int)) (x : TvmInt),
      Leaves quiet stack (do return instr.result (← x.value?)) (instr.exec quiet (x.digits :: stack))) ∧
    (∀ x y : { ds : List Int // Canonical ds },
      (eqAny x.1 y.1 = true ↔ value x.1 = value y.1) ∧ cmpAny x.1 y.1 = (value x.1 - value y.1).sign) := by
  refine ⟨?_, ?_, fun x y => ⟨eqAny_iff x.2 y.2, cmpAny_eq x.2 y.2⟩⟩
  · intro instr quiet stack x y
    by_cases first : x.digits = []
    · simpa [TvmInt.value?, first] using binary_nan quiet stack x y instr (.inl first)
    by_cases second : y.digits = []
    · simpa [TvmInt.value?, second] using binary_nan quiet stack x y instr (.inr second)
    · simpa [TvmInt.value?, first, second] using binary_exact quiet stack x y instr first second
  · intro instr quiet stack x
    by_cases finite : x.digits = []
    · simpa [TvmInt.value?, finite] using unary_nan quiet stack x instr finite
    · simpa [TvmInt.value?, finite] using unary_exact quiet stack x instr finite

end TonStaking.Guarantees.IntegerArithmetic
