import TonStaking.Source.Cells.Levels
import TonStaking.Source.Cells.MerkleProof

/-!
# Rebuilding trees with results kept by hash

`generate`, `combine` and `apply` walk a tree, make a new cell for each old one and keep the
results under the hash of the old cell and its Merkle depth. Without collisions such a walk does
the same as one that keeps nothing. The relation between old and new cells is a parameter.
-/
namespace TonStaking.Source.Cells

section

variable {Hash : Type} [DecidableEq Hash] {sha : Preimage Hash → Hash} {cell : Cell Hash} {content : Content Hash}

theorem finalize_ok {refs : List (Cell Hash)} :
    finalize sha content refs = .ok cell ↔
      content.checkCell (refs.map (Cell.info sha)) = .ok () ∧ cell = .mk content refs := by
  have built : create sha content refs = .ok cell ↔
      content.checkCell (refs.map (Cell.info sha)) = .ok () ∧ cell = .mk content refs := by
    unfold create
    rw [unit_bind]
    simp [pure, Except.pure, eq_comm]
  rw [← built, finalize]
  cases create sha content refs <;> simp

theorem finalize_leaf : finalize sha content [] = .ok cell ↔ Cell.Created sha (.mk content []) ∧ cell = .mk content [] := by
  rw [finalize_ok]
  exact and_congr_left fun _ => ⟨fun accepted => .mk _ _ accepted nofun, fun made => made.accepted⟩

/-- The results kept so far belong to cells with these hashes. -/
def Memo.Sound (sha : Preimage Hash → Hash) (R : Nat → Cell Hash → Cell Hash → Prop) (cells : Memo Hash) : Prop :=
  ∀ key tree, cells key = some tree → ∃ cell, Cell.Valid sha cell ∧ cell.reprHash sha = key.1 ∧ R key.2 tree cell

variable {R : Nat → Cell Hash → Cell Hash → Prop} {cells : Memo Hash} {tree : Cell Hash} {depth : Nat}
  {call : Cell Hash → Memo Hash → Except Failure (Cell Hash × Memo Hash)}

theorem Memo.Sound.empty : Memo.Sound sha R fun _ => none := nofun

theorem Memo.Sound.emplace (sound : cells.Sound sha R) (valid : Cell.Valid sha cell)
    (related : R depth tree cell) : (cells.emplace (cell.reprHash sha, depth) tree).Sound sha R := by
  intro key found stored
  unfold Memo.emplace at stored
  by_cases same : key = (cell.reprHash sha, depth)
  · subst same
    rw [Function.update_self, Option.some.injEq] at stored
    subst stored
    exact ⟨cell, valid, rfl, related⟩
  · rw [Function.update_of_ne same] at stored
    exact sound key found stored

/-- A run that ends well returns a cell related to the old one; it ends well if `fine` holds. -/
structure Rebuilds (sha : Preimage Hash → Hash) (R : Nat → Cell Hash → Cell Hash → Prop) (fine : Prop)
    (cell : Cell Hash) (depth : Nat) (run : Except Failure (Cell Hash × Memo Hash)) : Prop where
  result : ∀ tree cells, run = .ok (tree, cells) → R depth tree cell ∧ cells.Sound sha R
  total : fine → ∃ done, run = .ok done

theorem createRefs_rebuilds {fine : Cell Hash → Prop}
    {refs originals : List (Cell Hash)}
    (each : List.Forall₂ (fun ref original => ∀ cells : Memo Hash, cells.Sound sha R →
      Rebuilds sha R (fine original) original depth (call ref cells)) refs originals)
    (sound : cells.Sound sha R) :
    (∀ trees after, createRefs call refs cells = .ok (trees, after) →
      List.Forall₂ (R depth) trees originals ∧ after.Sound sha R) ∧
    ((∀ original ∈ originals, fine original) → ∃ done, createRefs call refs cells = .ok done) := by
  induction each generalizing cells with
  | nil =>
    refine ⟨?_, fun _ => ⟨_, rfl⟩⟩
    intro trees after run
    cases run
    exact ⟨.nil, sound⟩
  | @cons ref original refs originals head _ ih =>
    have first := head cells sound
    constructor
    · intro trees after run
      rw [createRefs, bind_ok] at run
      obtain ⟨⟨child, between⟩, one, run⟩ := run
      rw [bind_ok] at run
      obtain ⟨⟨children, last⟩, others, done⟩ := run
      cases done
      obtain ⟨related, soundly⟩ := first.result child between one
      obtain ⟨rest, still⟩ := (ih soundly).1 children after others
      exact ⟨.cons related rest, still⟩
    · intro well
      obtain ⟨⟨child, between⟩, one⟩ := first.total (well original (List.mem_cons_self ..))
      obtain ⟨-, soundly⟩ := first.result child between one
      obtain ⟨⟨children, last⟩, others⟩ :=
        (ih soundly).2 fun other member => well other (List.mem_cons_of_mem original member)
      exact ⟨(child :: children, last), bind_ok.mpr ⟨_, one, bind_ok.mpr ⟨_, others, rfl⟩⟩⟩

namespace Rebuilds

variable {fine : Prop} {depth : Nat} {key : Hash × Nat}

/-- A cell whose result is at hand. -/
theorem known (injective : Function.Injective sha) (valid : Cell.Valid sha cell)
    (sound : cells.Sound sha R) (found : cells (cell.reprHash sha, depth) = some tree) :
    Rebuilds sha R fine cell depth (.ok (tree, cells)) := by
  refine ⟨?_, fun _ => ⟨_, rfl⟩⟩
  intro result after run
  cases run
  obtain ⟨other, validOther, hash, related⟩ := sound _ tree found
  have same := validOther.eq_of_reprHash sha injective valid hash
  subst same
  exact ⟨related, sound⟩

/-- A cell that is replaced by one made outright. -/
theorem made {make : Except Failure (Cell Hash)} (valid : Cell.Valid sha cell)
    (hash : key = (cell.reprHash sha, depth)) (sound : cells.Sound sha R)
    (related : ∀ tree, make = .ok tree → R depth tree cell) (makes : fine → ∃ tree, make = .ok tree) :
    Rebuilds sha R fine cell depth (do
      let res ← make
      pure (res, cells.emplace key res)) := by
  subst hash
  constructor
  · intro result after run
    rw [bind_ok] at run
    obtain ⟨tree, create, done⟩ := run
    cases done
    exact ⟨related result create, sound.emplace valid (related result create)⟩
  · intro well
    obtain ⟨tree, create⟩ := makes well
    exact ⟨(_, _), bind_ok.mpr ⟨_, create, rfl⟩⟩

/-- A cell that is made again: its references first, then the cell. -/
theorem node {fineRef : Cell Hash → Prop} {refs originals : List (Cell Hash)}
    (valid : Cell.Valid sha (.mk content originals)) (hash : key = ((Cell.mk content originals).reprHash sha, depth))
    (sound : cells.Sound sha R) (each : List.Forall₂ (fun ref original => ∀ cells : Memo Hash, cells.Sound sha R →
      Rebuilds sha R (fineRef original) original (content.childMerkleDepth depth) (call ref cells)) refs originals)
    (related : ∀ trees, List.Forall₂ (R (content.childMerkleDepth depth)) trees originals →
      content.checkCell (trees.map (Cell.info sha)) = .ok () → R depth (.mk content trees) (.mk content originals))
    (below : fine → ∀ original ∈ originals, fineRef original)
    (accepted : fine → ∀ trees, List.Forall₂ (R (content.childMerkleDepth depth)) trees originals →
      content.checkCell (trees.map (Cell.info sha)) = .ok ()) :
    Rebuilds sha R fine (.mk content originals) depth (do
      let (children, cells) ← createRefs call refs cells
      let res ← finalize sha content children
      pure (res, cells.emplace key res)) := by
  have inner := createRefs_rebuilds each sound
  subst hash
  constructor
  · intro result after run
    rw [bind_ok] at run
    obtain ⟨⟨children, between⟩, first, run⟩ := run
    rw [bind_ok] at run
    obtain ⟨made, final, done⟩ := run
    cases done
    obtain ⟨relatedRefs, soundly⟩ := inner.1 children between first
    obtain ⟨checked, rfl⟩ := finalize_ok.mp final
    exact ⟨related children relatedRefs checked, soundly.emplace valid (related children relatedRefs checked)⟩
  · intro well
    obtain ⟨⟨children, between⟩, first⟩ := inner.2 (below well)
    obtain ⟨relatedRefs, -⟩ := inner.1 children between first
    have final := finalize_ok.mpr ⟨accepted well children relatedRefs, rfl⟩
    exact ⟨(_, _), bind_ok.mpr ⟨_, first, bind_ok.mpr ⟨_, final, rfl⟩⟩⟩

end Rebuilds

end

end TonStaking.Source.Cells
