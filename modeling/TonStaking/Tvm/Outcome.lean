import Mathlib.Tactic.Zify
import Mathlib.Tactic.Linarith

/-!
# Outcomes of a virtual machine computation

A computation either returns or raises one of the exceptions of
`crypto/vm/excno.hpp`; `code n` is a contract's own `throw_unless(n, ..)`.
Stack integers are unbounded here and the 257-bit range is checked where the
machine checks it. A store of an integer into a field of fixed width returns a
value that carries its own bound, so later reads need no range premise.
-/
namespace Tvm

inductive Exc where
  | intOv | rangeChk | typeChk | cellOv | cellUnd | dictErr | outOfGas
  | code (n : Nat)
  deriving DecidableEq, Repr

abbrev Outcome (α : Type) := Except Exc α

/-- An unsigned field of `n` bits. -/
abbrev Uint (n : Nat) := Fin (2 ^ n)

/-- A signed field of `n` bits. -/
abbrev Sint (n : Nat) := { x : Int // -2 ^ (n - 1) ≤ x ∧ x < 2 ^ (n - 1) }

/-- `VarUInteger 16`: at most fifteen bytes. -/
abbrev Grams := Uint 120

instance neZero4 : NeZero (2 ^ 4) := ⟨by decide⟩
instance neZero8 : NeZero (2 ^ 8) := ⟨by decide⟩
instance neZero16 : NeZero (2 ^ 16) := ⟨by decide⟩
instance neZero32 : NeZero (2 ^ 32) := ⟨by decide⟩
instance neZero64 : NeZero (2 ^ 64) := ⟨by decide⟩
instance neZero120 : NeZero (2 ^ 120) := ⟨by decide⟩
instance neZero256 : NeZero (2 ^ 256) := ⟨by decide⟩

instance lawful256 : LawfulBEq (Uint 256) := inferInstance

theorem Uint.lt256 (x : Uint 256) : x.val < 2 ^ 256 := x.isLt

theorem base_fits : -2 ^ (8 - 1) ≤ (0 : Int) ∧ (0 : Int) < 2 ^ (8 - 1) := by decide

theorem master_fits : -2 ^ (8 - 1) ≤ (-1 : Int) ∧ (-1 : Int) < 2 ^ (8 - 1) := by decide

def throwUnless (n : Nat) (condition : Prop) [Decidable condition] : Outcome Unit :=
  if condition then .ok () else .error (.code n)

def throwIf (n : Nat) (condition : Prop) [Decidable condition] : Outcome Unit :=
  if condition then .error (.code n) else .ok ()

/-- A dictionary lookup followed by `throw_unless(n, found)`. -/
def orThrow {α : Type} (n : Nat) : Option α → Outcome α
  | some x => .ok x
  | none => .error (.code n)

/-- Use of a value where the machine may hold a null instead. -/
def orNull {α : Type} : Option α → Outcome α
  | some x => .ok x
  | none => .error .typeChk

/-- A result must fit a signed 257-bit integer. -/
def fitInt (x : Int) : Outcome Int :=
  if -2 ^ 256 ≤ x ∧ x < 2 ^ 256 then .ok x else .error .intOv

def addInt (x y : Int) : Outcome Int := fitInt (x + y)

def mulInt (x y : Int) : Outcome Int := fitInt (x * y)

/-- `DIV`: floor division; the machine raises an overflow on a zero divisor. -/
def divInt (x y : Int) : Outcome Int :=
  if y = 0 then .error .intOv else .ok (x.fdiv y)

def storeUint (n : Nat) (x : Int) : Outcome (Uint n) :=
  if h : 0 ≤ x ∧ x < 2 ^ n then .ok ⟨x.toNat, by have := h.1; have := h.2; zify; omega⟩
  else .error .rangeChk

def storeInt (n : Nat) (x : Int) : Outcome (Sint n) :=
  if h : -2 ^ (n - 1) ≤ x ∧ x < 2 ^ (n - 1) then .ok ⟨x, h⟩ else .error .rangeChk

def storeGrams (x : Int) : Outcome Grams := storeUint 120 x

section Inversion

variable {ε α β : Type}
variable {n : Nat} {condition : Prop} {u : Unit} {x z y : Int} {next : α → Except ε β} {step : Except ε α} {value : β}

theorem bind_success : (step >>= next) = .ok value ↔ ∃ x, step = .ok x ∧ next x = .ok value := by
  cases step with
  | error e | ok x => simp [bind, Except.bind]

/-- The steps of a computation that returns have returned. -/
theorem of_bind (h : (step >>= next) = .ok value) :
    ∃ x, step = .ok x ∧ next x = .ok value := bind_success.mp h

@[simp] theorem ok_bind (x : α) (next : α → Except ε β) : (Except.ok x >>= next) = next x := rfl

@[simp] theorem error_bind (e : ε) (next : α → Except ε β) : ((Except.error e : Except ε α) >>= next) = .error e := rfl

theorem eq_ok_get {x : Outcome α} (ran : x.toOption.isSome = true) : x = .ok (x.toOption.get ran) := by
  cases x with
  | error e => cases ran
  | ok y => rfl

@[simp] theorem throwUnless_success [Decidable condition] : throwUnless n condition = .ok u ↔ condition := by
  unfold throwUnless
  split <;> simp_all

@[simp] theorem throwIf_success [Decidable condition] : throwIf n condition = .ok u ↔ ¬ condition := by
  unfold throwIf
  split <;> simp_all

@[simp] theorem orThrow_success {x : Option α} {y : α} : orThrow n x = .ok y ↔ x = some y := by
  cases x <;> simp [orThrow]

@[simp] theorem orNull_success {x : Option α} {y : α} : orNull x = .ok y ↔ x = some y := by
  cases x <;> simp [orNull]

theorem fitInt_ok_iff : fitInt x = .ok z ↔ (-2 ^ 256 ≤ x ∧ x < 2 ^ 256) ∧ x = z := by
  unfold fitInt
  split
  · next fits => exact ⟨fun same => ⟨fits, Except.ok.inj same⟩, fun both => congrArg Except.ok both.2⟩
  · next outside => exact iff_of_false (by rintro ⟨⟩) (fun both => outside both.1)

theorem fitInt_success (h : fitInt x = .ok z) : z = x := (fitInt_ok_iff.mp h).2.symm

theorem mulInt_success (h : mulInt x y = .ok z) : z = x * y := fitInt_success h

theorem mulInt_of_fits (low : -2 ^ 256 ≤ x * y) (high : x * y < 2 ^ 256) : mulInt x y = .ok (x * y) := by
  unfold mulInt fitInt
  rw [if_pos ⟨low, high⟩]

theorem divInt_success (h : divInt x y = .ok z) : y ≠ 0 ∧ z = x.fdiv y := by
  unfold divInt at h
  split at h
  · cases h
  · next nonzero => exact ⟨nonzero, (Except.ok.inj h).symm⟩

theorem divInt_of_ne (nonzero : y ≠ 0) : divInt x y = .ok (x.fdiv y) := by
  unfold divInt
  rw [if_neg nonzero]

theorem storeUint_success {y : Uint n} (h : storeUint n x = .ok y) : (y : Int) = x := by
  unfold storeUint at h
  split at h
  · next fits =>
    cases h
    exact Int.toNat_of_nonneg fits.1
  · cases h

theorem storeUint_of_fits (low : 0 ≤ x) (high : x < 2 ^ n) : ∃ y : Uint n, storeUint n x = .ok y ∧ (y : Int) = x := by
  refine ⟨⟨x.toNat, by zify; omega⟩, ?_, Int.toNat_of_nonneg low⟩
  unfold storeUint
  rw [dif_pos ⟨low, high⟩]

/-- Storing back a value that was read from a field of the same width. -/
@[simp] theorem storeUint_val (y : Uint n) : storeUint n (y : Int) = .ok y := by
  have bound : (y : Int) < 2 ^ n := by have := y.isLt; zify at this; exact this
  unfold storeUint
  rw [dif_pos ⟨Int.natCast_nonneg _, bound⟩]
  rfl

theorem storeUint_fits {y : Uint n} (h : storeUint n x = .ok y) : 0 ≤ x ∧ x < 2 ^ n := by
  unfold storeUint at h
  split at h
  · assumption
  · cases h

theorem storeInt_success {y : Sint n} (h : storeInt n x = .ok y) : y.val = x := by
  unfold storeInt at h
  split at h
  · cases h
    rfl
  · cases h

@[simp] theorem storeInt_val (y : Sint n) : storeInt n y.val = .ok y := by
  unfold storeInt
  rw [dif_pos y.property]

theorem storeGrams_success {y : Grams} (h : storeGrams x = .ok y) : (y : Int) = x :=
  storeUint_success h

@[simp] theorem storeGrams_val (y : Grams) : storeGrams (y : Int) = .ok y := storeUint_val y

variable {allowed : Exc → Prop}

/-- Every exception the computation can raise is one of the allowed ones. -/
def ErrorsIn (allowed : Exc → Prop) (x : Outcome α) : Prop := ∀ e, x = .error e → allowed e

theorem errorsIn_ok (x : α) : ErrorsIn allowed (.ok x) := by
  intro e h
  cases h

theorem ErrorsIn.bind {step : Outcome α} {next : α → Outcome β} (first : ErrorsIn allowed step)
    (rest : ∀ x, step = .ok x → ErrorsIn allowed (next x)) : ErrorsIn allowed (step >>= next) := by
  cases step with
  | error e =>
    intro e' h
    cases h
    exact first e rfl
  | ok x => exact rest x rfl

theorem throwUnless_errorsIn {n : Nat} (ok : allowed (.code n)) (condition : Prop)
    [Decidable condition] : ErrorsIn allowed (throwUnless n condition) := by
  unfold throwUnless
  split
  · exact errorsIn_ok ()
  intro e h
  cases h
  exact ok

theorem storeUint_errorsIn (ok : allowed .rangeChk) (n : Nat) (x : Int) : ErrorsIn allowed (storeUint n x) := by
  unfold storeUint
  split
  · exact errorsIn_ok _
  intro e h
  cases h
  exact ok

theorem storeInt_errorsIn (ok : allowed .rangeChk) (n : Nat) (x : Int) : ErrorsIn allowed (storeInt n x) := by
  unfold storeInt
  split
  · exact errorsIn_ok _
  intro e h
  cases h
  exact ok

end Inversion

end Tvm
