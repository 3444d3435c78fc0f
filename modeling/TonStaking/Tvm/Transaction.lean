import Mathlib.Data.List.Induction
import TonStaking.Tvm.Outcome

/-!
# Transactions and runs

A contract is a function from its state and an input to an outcome. A
transaction commits the new state and the emitted messages of a successful
outcome; after an exception both are dropped. A run applies one transaction
after another. Conditions on a run are conditions on the state before each step
and on the input of that step.
-/
namespace Tvm

section Transaction

variable {S I O : Type} (receive : S → I → Outcome (S × List O))

def commit (s : S) (i : I) : S × List O :=
  match receive s i with
  | .ok result => result
  | .error _ => (s, [])

def run (s : S) : List I → S
  | [] => s
  | i :: rest => run (commit receive s i).1 rest

/-- Every step of the run from `s` meets the condition. -/
def Meets (condition : S → I → Prop) (s : S) : List I → Prop
  | [] => True
  | i :: rest => condition s i ∧ Meets condition (commit receive s i).1 rest

variable {receive}
variable {s : S} {i : I} {P : S → Prop} {condition : S → I → Prop}

theorem commit_of_success {result : S × List O} (success : receive s i = .ok result) :
    commit receive s i = result := by
  simp [commit, success]

theorem commit_of_error {e : Exc} (failure : receive s i = .error e) : commit receive s i = (s, []) := by
  simp [commit, failure]

/-- A property of the state survives one transaction if every success keeps it. -/
theorem commit_preserves (before : P s) (keeps : ∀ after out, receive s i = .ok (after, out) → P after) :
    P (commit receive s i).1 := by
  cases outcome : receive s i with
  | error e =>
    rw [commit_of_error outcome]
    exact before
  | ok result =>
    rw [commit_of_success outcome]
    exact keeps result.1 result.2 outcome

@[simp] theorem run_nil (s : S) : run receive s [] = s := rfl

@[simp] theorem run_cons (s : S) (i : I) (rest : List I) :
    run receive s (i :: rest) = run receive (commit receive s i).1 rest := rfl

theorem run_append (s : S) (before after : List I) :
    run receive s (before ++ after) = run receive (run receive s before) after := by
  induction before generalizing s with
  | nil => rfl
  | cons i _ ih => exact ih _

theorem run_snoc (s : S) (before : List I) (i : I) :
    run receive s (before ++ [i]) = (commit receive (run receive s before) i).1 := by
  rw [run_append]
  rfl

theorem meets_append (s : S) (before after : List I) :
    Meets receive condition s (before ++ after) ↔
      Meets receive condition s before ∧ Meets receive condition (run receive s before) after := by
  induction before generalizing s with
  | nil => simp [Meets]
  | cons i rest ih => simp [Meets, ih, and_assoc]

/-- The condition at one position of a run. -/
theorem Meets.at {before after : List I} (meets : Meets receive condition s (before ++ i :: after)) :
    condition (run receive s before) i :=
  ((meets_append s before (i :: after)).mp meets).2.1

theorem Meets.before {before after : List I} (meets : Meets receive condition s (before ++ after)) :
    Meets receive condition s before :=
  ((meets_append s before after).mp meets).1

/-- The condition of a run, position by position. -/
theorem meets_iff (s : S) (inputs : List I) :
    Meets receive condition s inputs ↔
      ∀ before i after, inputs = before ++ i :: after → condition (run receive s before) i := by
  constructor
  · intro meets before i after split
    rw [split] at meets
    exact meets.at
  · intro all
    induction inputs generalizing s with
    | nil => trivial
    | cons i rest ih =>
      refine ⟨all [] i rest rfl, ih _ fun before j after split => ?_⟩
      exact all (i :: before) j after (by rw [split, List.cons_append])

theorem run_preserves_of_meets
    (keeps : ∀ s i after out, condition s i → P s → receive s i = .ok (after, out) → P after) (s : S) (inputs : List I)
    (meets : Meets receive condition s inputs) (start : P s) :
    P (run receive s inputs) := by
  induction inputs generalizing s with
  | nil => exact start
  | cons i rest ih =>
    obtain ⟨now, later⟩ := meets
    apply ih _ later
    exact commit_preserves start (keeps s i · · now start)

/-- What every successful step keeps holds after every run. -/
theorem run_preserves (keeps : ∀ s i after out, P s → receive s i = .ok (after, out) → P after) (s : S)
    (inputs : List I) (start : P s) : P (run receive s inputs) := by
  have all : Meets receive (fun _ _ => True) s inputs := by
    induction inputs generalizing s with
    | nil => trivial
    | cons i rest ih => exact ⟨trivial, ih _ (commit_preserves start (keeps s i · · start))⟩
  exact run_preserves_of_meets (fun s i after out _ => keeps s i after out) s inputs all start

/-- A property that one step keeps exactly under the condition holds in all states of a run exactly if
every step meets the condition. -/
theorem always_iff_meets (keeps : ∀ s i, P s → (P (commit receive s i).1 ↔ condition s i)) (s : S) (start : P s)
    (inputs : List I) :
    (∀ before after, inputs = before ++ after → P (run receive s before)) ↔ Meets receive condition s inputs := by
  induction inputs generalizing s with
  | nil =>
    refine ⟨fun _ => trivial, fun _ before after split => ?_⟩
    rw [(List.append_eq_nil_iff.mp split.symm).1]
    exact start
  | cons i rest ih =>
    constructor
    · intro always
      have next := always [i] rest rfl
      refine ⟨(keeps s i start).mp next, (ih _ next).mp fun before after split => ?_⟩
      exact always (i :: before) after (by rw [split, List.cons_append])
    · rintro ⟨now, later⟩ before after split
      have next := (keeps s i start).mpr now
      cases before with
      | nil => exact start
      | cons j before =>
        obtain ⟨rfl, tail⟩ := List.cons.inj split
        exact (ih _ next).mpr later before after tail

section Track

variable {G : Type} {note : S → G → I → G} {R : S → G → Prop}

variable (receive) in
/-- A record kept along a run: every step notes its input in the state it meets. -/
def track (note : S → G → I → G) (s : S) (g : G) : List I → G
  | [] => g
  | i :: rest => track note (commit receive s i).1 (note s g i) rest

theorem track_snoc (note : S → G → I → G) (s : S) (g : G) (before : List I) (i : I) :
    track receive note s g (before ++ [i]) = note (run receive s before) (track receive note s g before) i := by
  induction before generalizing s g with
  | nil => rfl
  | cons j _ ih => exact ih _ _

/-- A relation between state and record that every step under the condition keeps. -/
theorem track_preserves_of_meets {condition : S → I → Prop}
    (keeps : ∀ s g i, condition s i → R s g → R (commit receive s i).1 (note s g i)) (s : S) (g : G) (inputs : List I)
    (meets : Meets receive condition s inputs) (start : R s g) :
    R (run receive s inputs) (track receive note s g inputs) := by
  induction inputs generalizing s g with
  | nil => exact start
  | cons i rest ih => exact ih _ _ meets.2 (keeps s g i meets.1 start)

/-- A relation between state and record that every step keeps holds after every run. -/
theorem track_preserves (keeps : ∀ s g i, R s g → R (commit receive s i).1 (note s g i)) (s : S) (g : G)
    (inputs : List I) (start : R s g) : R (run receive s inputs) (track receive note s g inputs) := by
  induction inputs generalizing s g with
  | nil => exact start
  | cons i _ ih => exact ih _ _ (keeps s g i start)

/-- A relation that one step keeps exactly under the condition holds all along a run exactly if every
step meets the condition. -/
theorem track_always_iff {condition : S → G → I → Prop}
    (keeps : ∀ s g i, R s g → (R (commit receive s i).1 (note s g i) ↔ condition s g i)) (s : S) (g : G)
    (start : R s g) (inputs : List I) :
    (∀ before after, inputs = before ++ after → R (run receive s before) (track receive note s g before)) ↔
      ∀ before i after, inputs = before ++ i :: after →
        condition (run receive s before) (track receive note s g before) i := by
  constructor
  · intro always before i after split
    have now := always before (i :: after) split
    have next := always (before ++ [i]) after (by simp [split])
    rw [run_snoc, track_snoc] at next
    exact (keeps _ _ i now).mp next
  · intro met before after split
    induction before using List.reverseRecOn generalizing after with
    | nil => exact start
    | append_singleton before i ih =>
      have now := ih (i :: after) (by simp [split])
      rw [run_snoc, track_snoc]
      exact (keeps _ _ i now).mpr (met before i after (by simp [split]))

end Track

end Transaction

end Tvm
