import TonStaking.Source.Catchain.Messages

/-!
# What the identifier of a catchain block binds

The hash of a block covers its session, source, height and payload, and only
this identity is signed. Two accepted blocks with the same hash therefore agree
on these, but the previous block and the dependencies are not covered. A relay
can leave out all dependencies of a signed block, or add the first block as one,
and the result is accepted under the same hash. The links are bound only where
no dependencies are allowed at all and the source has signed one block at the
previous height.
-/
namespace TonStaking.Guarantees.CatchainIdentity

open TonStaking.Source.Catchain

variable {H : Type}

/-- The block that a reference names. -/
def Dep.named (dep : Dep H) : TlInt × TlInt × H := (dep.src, dep.height, dep.dataHash)

/-- The previous block and the dependencies of two blocks are the same. -/
def SameLinks (a b : BlockMsg H) : Prop :=
  Dep.named a.prev = Dep.named b.prev ∧ a.deps.map Dep.named = b.deps.map Dep.named

section Binding

variable [DecidableEq H] {σ : Session H} {knows : H → Bool} {a b : BlockMsg H} {p q : Payload H}

theorem identity_bound (sound : σ.Sound) (first : Accepted σ knows a p) (second : Accepted σ knows b q)
    (same : blockHash σ a p = blockHash σ b q) : a.src = b.src ∧ a.height = b.height ∧ p = q := by
  obtain ⟨idA, identityA, -⟩ := first.signed
  obtain ⟨idB, identityB, -⟩ := second.signed
  rw [blockHash, blockHash, identityA, identityB] at same
  have equal : idA = idB := sound.ids (Except.ok.inj same)
  have partsA := blockId_success identityA
  have partsB := blockId_success identityB
  rw [equal] at partsA
  refine ⟨src_of_hash sound first.head.2.1 second.head.2.1 (partsA.1.trans partsB.1.symm), ?_, ?_⟩
  · exact partsA.2.2.1.symm.trans partsB.2.2.1
  · exact sound.payloads (partsA.2.2.2.symm.trans partsB.2.2.2)

/-- Other links that are valid by themselves give an accepted block with the same hash. -/
theorem relinked (accepted : Accepted σ knows a p) (prev : Dep H) (deps : List (Dep H))
    (src : prev.src = a.prev.src) (height : prev.height = a.prev.height) (few : deps.length ≤ σ.maxDeps)
    (distinct : (a.src :: deps.map Dep.src).Nodup)
    (valid : ∀ dep ∈ prev :: deps, validateDep σ knows dep = .ok true) :
    Accepted σ knows { a with prev, deps } p ∧ blockHash σ { a with prev, deps } p = blockHash σ a p := by
  obtain ⟨positive, source, nonneg, -, chained, next, -⟩ := accepted.head
  refine ⟨⟨accepted.session, ⟨positive, source, ?_, few, ?_, ?_, distinct⟩, valid, accepted.nonempty, accepted.signed⟩,
    rfl⟩
  · change 0 ≤ prev.src.val
    rw [src]
    exact nonneg
  · change if 1 < a.height.val then prev.src = a.src else prev.src.val = σ.sources.length
    rw [src]
    exact chained
  · change prev.height.val + 1 = a.height.val
    rw [height]
    exact next

theorem rootDep_valid (σ : Session H) (knows : H → Bool) : validateDep σ knows σ.rootDep = .ok true := by
  have pre : preValidateDep σ σ.rootDep = true := by
    simp [preValidateDep, Session.rootDep, Session.rootSrc]
  rw [validateDep, pre]
  rfl

/-- A block with other dependencies and the same hash: none, or the first block. -/
theorem other_deps (accepted : Accepted σ knows a p) (some : 1 ≤ σ.maxDeps) :
    ∃ deps, Accepted σ knows { a with deps } p ∧ blockHash σ { a with deps } p = blockHash σ a p ∧
      deps.map Dep.named ≠ a.deps.map Dep.named := by
  have prev := accepted.links a.prev (List.mem_cons_self ..)
  cases present : a.deps with
  | nil =>
    have source := accepted.head.2.1
    have other : ¬ a.src = σ.rootSrc := by
      intro equal
      have := source.2
      rw [equal, Session.rootSrc] at this
      exact absurd this (Int.lt_irrefl _)
    have rebuilt := relinked accepted a.prev [σ.rootDep] rfl rfl some
      (by simpa [Session.rootDep] using other) (by simpa using ⟨prev, rootDep_valid σ knows⟩)
    exact ⟨_, rebuilt.1, rebuilt.2, by simp⟩
  | cons dep rest =>
    have rebuilt := relinked accepted a.prev [] rfl rfl (Nat.zero_le _) (by simp) (by simpa using prev)
    exact ⟨[], rebuilt.1, rebuilt.2, by simp⟩

/-- An accepted block agrees on source, height and payload with every accepted block of the same hash. It
agrees with all of them on the links exactly if dependencies are not allowed and there is one valid block
to be the previous one. -/
theorem identifier_binds_iff (sound : σ.Sound) (accepted : Accepted σ knows a p) :
    (∀ b q, Accepted σ knows b q → blockHash σ b q = blockHash σ a p →
      b.src = a.src ∧ b.height = a.height ∧ q = p) ∧
    ((∀ b q, Accepted σ knows b q → blockHash σ b q = blockHash σ a p → SameLinks b a) ↔
      σ.maxDeps = 0 ∧ ∀ prev : Dep H, prev.src = a.prev.src → prev.height = a.prev.height →
        validateDep σ knows prev = .ok true → prev.dataHash = a.prev.dataHash) := by
  refine ⟨fun b q other same => identity_bound sound other accepted same, ?_, ?_⟩
  · intro bound
    constructor
    · by_contra positive
      obtain ⟨deps, other, same, different⟩ := other_deps accepted (Nat.one_le_iff_ne_zero.mpr positive)
      exact different (bound _ p other same).2
    · intro prev src height valid
      have few := accepted.head.2.2.2.1
      have distinct := accepted.head.2.2.2.2.2.2
      have links : ∀ dep ∈ prev :: a.deps, validateDep σ knows dep = .ok true := by
        intro dep member
        rcases List.mem_cons.mp member with rfl | later
        · exact valid
        · exact accepted.links dep (List.mem_cons_of_mem _ later)
      have rebuilt := relinked accepted prev a.deps src height few distinct links
      exact (Prod.mk.inj (Prod.mk.inj (bound _ p rebuilt.1 rebuilt.2).1).2).2
  · rintro ⟨none, single⟩ b q other same
    obtain ⟨src, height, -⟩ := identity_bound sound other accepted same
    have prevHeight : b.prev.height = a.prev.height := by
      have nextA := accepted.head.2.2.2.2.2.1
      have nextB := other.head.2.2.2.2.2.1
      rw [height] at nextB
      exact Subtype.ext (by omega)
    have prevSrc : b.prev.src = a.prev.src := by
      have chainA := accepted.head.2.2.2.2.1
      have chainB := other.head.2.2.2.2.1
      rw [height] at chainB
      split at chainA
      · next later =>
        rw [if_pos later] at chainB
        rw [chainA, chainB, src]
      · next first =>
        rw [if_neg first] at chainB
        exact Subtype.ext (chainB.trans chainA.symm)
    have noDeps {c : BlockMsg H} (head : headOk σ c) : c.deps = [] := by
      have few := head.2.2.2.1
      rw [none] at few
      exact List.length_eq_zero_iff.mp (Nat.le_zero.mp few)
    have prevHash := single b.prev prevSrc prevHeight (other.links _ (List.mem_cons_self ..))
    refine ⟨?_, ?_⟩
    · rw [Dep.named, Dep.named, prevSrc, prevHeight, prevHash]
    · rw [noDeps other.head, noDeps accepted.head]

end Binding

/-- Two nodes and the usual bound on dependencies. -/
def pair : Session Digest := freeSession 2 (by decide) 4

/-- A first block of source 0 with the given dependencies. -/
def firstBlock (deps : List (Dep Digest)) : BlockMsg Digest where
  incarnation := pair.incarnation
  src := ⟨0, zero_fits⟩
  height := ⟨1, by decide⟩
  prev := pair.rootDep
  deps := deps
  signature := [1]

/-- A signed block of source 1. -/
def otherBlock : Dep Digest where
  src := ⟨1, by decide⟩
  height := ⟨1, by decide⟩
  dataHash := .nat 7
  signature := [1]

theorem firstBlock_accepted : Accepted pair (fun _ => false) (firstBlock []) .nop :=
  validateBlock_true.mp (by decide)

theorem identifier_binds_first :
    ¬ ∀ b q, Accepted pair (fun _ => false) b q → blockHash pair b q = blockHash pair (firstBlock []) .nop →
      SameLinks b (firstBlock []) := by
  intro bound
  have never := (identifier_binds_iff (freeSession_sound 2 (by decide) 4) firstBlock_accepted).2.mp bound
  cases never.1

/-- A dependency added by a relay. -/
theorem dependency_added :
    Accepted pair (fun _ => false) (firstBlock []) .nop ∧ Accepted pair (fun _ => false) (firstBlock [otherBlock]) .nop ∧
      blockHash pair (firstBlock [otherBlock]) .nop = blockHash pair (firstBlock []) .nop ∧
        ¬ SameLinks (firstBlock [otherBlock]) (firstBlock []) := by
  refine ⟨firstBlock_accepted, validateBlock_true.mp (by decide), rfl, ?_⟩
  intro same
  cases same.2

end TonStaking.Guarantees.CatchainIdentity
