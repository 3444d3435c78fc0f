import Mathlib.Data.List.Nodup
import TonStaking.Tvm.Outcome

/-!
# Blocks of the catchain and their validation

`catchain/catchain-received-block.cpp` 340-439 and `catchain/catchain-receiver.cpp`
187-224, with the messages of `tl/generate/scheme/ton_api.tl` 229-257. A block is
identified by its session, source, height and payload; a reference to a block
carries a signature of that identity.

Hashes are values of an arbitrary type: `payloadHash` stands for SHA-256 of a
payload and `idHash` for SHA-256 of a serialized identity. A payload is what its
bytes parse to. A failed `CHECK` aborts the process.
-/
namespace TonStaking.Source.Catchain

open Tvm

/-- `int` of the message schemes. -/
abbrev TlInt := { x : Int // -2 ^ 31 ≤ x ∧ x < 2 ^ 31 }

theorem zero_fits : -2 ^ 31 ≤ (0 : Int) ∧ (0 : Int) < 2 ^ 31 := by decide

/-- `static_cast<td::uint32>`. -/
def TlInt.toUint32 (x : TlInt) : Nat := (x.val % 2 ^ 32).toNat

section Schemes

variable (H : Type)

/-- `catchain.block.dep`. -/
structure Dep where
  src : TlInt
  height : TlInt
  dataHash : H
  signature : List UInt8
  deriving DecidableEq

/-- A payload as `catchain.block.inner.Data`; `custom` is any other string of bytes. -/
inductive Payload where
  | fork (left right : Dep H)
  | badBlock (raw : List UInt8)
  | nop
  | custom (raw : List UInt8)
  deriving DecidableEq

/-- `catchain.block.id`. -/
structure BlockId where
  incarnation : H
  src : H
  height : TlInt
  dataHash : H
  deriving DecidableEq

/-- `catchain.block`, with the fields of its `catchain.block.data`. -/
structure BlockMsg where
  incarnation : H
  src : TlInt
  height : TlInt
  prev : Dep H
  deps : List (Dep H)
  signature : List UInt8
  deriving DecidableEq

/-- What the nodes of a catchain have in common: `sources` are the hashes of their public keys, and
`checkSignature` is the check under the key with the given hash. -/
structure Session where
  incarnation : H
  sources : List H
  count : sources.length < 2 ^ 31
  maxDeps : Nat
  payloadHash : Payload H → H
  idHash : BlockId H → H
  checkSignature : H → BlockId H → List UInt8 → Bool

end Schemes

def Payload.isEmpty {H : Type} : Payload H → Bool
  | .custom [] => true
  | _ => false

/-- The `CHECK` that failed, or the use of a null pointer. -/
inductive Abort where
  | getSourceHash | incarnation | sourceByHash | emptyPayload | sameHash | notInitialized | pendingDeps | notInDb
  | forkId | forkHeight | illDep | noBlock | blamedSelf | ownDep | undelivered | invalidOwn | nullPointer | fuel
  deriving DecidableEq

abbrev Checked (α : Type) := Except Abort α

section Validation

variable {H : Type} (σ : Session H)

/-- The first block: the source behind the last one, at height zero. -/
def Session.rootSrc : TlInt :=
  ⟨σ.sources.length, by have := σ.count; omega⟩

def Session.rootDep : Dep H where
  src := σ.rootSrc
  height := ⟨0, zero_fits⟩
  dataHash := σ.incarnation
  signature := []

/-- `CHECK(source_id < sources_.size())`. -/
def getSourceHash (src : TlInt) : Checked H :=
  match σ.sources[src.toUint32]? with
  | some h => .ok h
  | none => .error .getSourceHash

def blockId (block : BlockMsg H) (payload : Payload H) : Checked (BlockId H) := do
  let src ← getSourceHash σ block.src
  .ok { incarnation := block.incarnation, src, height := block.height, dataHash := σ.payloadHash payload }

def depId (dep : Dep H) : Checked (BlockId H) := do
  let src ← getSourceHash σ dep.src
  .ok { incarnation := σ.incarnation, src, height := dep.height, dataHash := dep.dataHash }

def blockHash (block : BlockMsg H) (payload : Payload H) : Checked H := do
  let id ← blockId σ block payload
  .ok (σ.idHash id)

variable [DecidableEq H]

/-- `src < 0 || static_cast<td::uint32>(src) >= get_sources_cnt()` fails. -/
def isSource (src : TlInt) : Prop := 0 ≤ src.val ∧ src.val < σ.sources.length

instance (src : TlInt) : Decidable (isSource σ src) := inferInstanceAs (Decidable (_ ∧ _))

/-- `pre_validate_block` of a reference. -/
def preValidateDep (dep : Dep H) : Bool :=
  if dep.height.val < 0 then false
  else if 0 < dep.height.val then isSource σ dep.src
  else
    dep.src.val = σ.sources.length ∧ dep.dataHash = σ.incarnation ∧ dep.signature = []

/-- `get_source_by_hash` and `check_signature`. -/
def checkById (id : BlockId H) (signature : List UInt8) : Checked Bool :=
  if id.src ∈ σ.sources then .ok (σ.checkSignature id.src id signature) else .error .sourceByHash

-- the blocks of the receiver that validates
variable (knows : H → Bool)

/-- `validate_block_sync` of a reference: the signature of a known block is not checked. -/
def validateDep (dep : Dep H) : Checked Bool :=
  if preValidateDep σ dep = false then .ok false
  else if 0 < dep.height.val then do
    let id ← depId σ dep
    if knows (σ.idHash id) then .ok true else checkById σ id dep.signature
  else .ok true

def validateDeps : List (Dep H) → Checked Bool
  | [] => .ok true
  | dep :: rest => do
    if ← validateDep σ knows dep then validateDeps rest else .ok false

/-- The checks of lines 365-405. -/
def headOk (block : BlockMsg H) : Prop :=
  0 < block.height.val ∧ isSource σ block.src ∧ 0 ≤ block.prev.src.val ∧ block.deps.length ≤ σ.maxDeps ∧
    (if 1 < block.height.val then block.prev.src = block.src else block.prev.src.val = σ.sources.length) ∧
    block.prev.height.val + 1 = block.height.val ∧ (block.src :: block.deps.map Dep.src).Nodup

instance (block : BlockMsg H) : Decidable (headOk σ block) := inferInstanceAs (Decidable (_ ∧ _))

/-- `pre_validate_block` of a block. -/
def preValidateBlock (block : BlockMsg H) (payload : Payload H) : Checked Bool :=
  if block.incarnation ≠ σ.incarnation then .error .incarnation
  else if ¬ headOk σ block then .ok false
  else do
    if ← validateDeps σ knows (block.prev :: block.deps) then .ok (!payload.isEmpty) else .ok false

/-- `validate_block_sync` of a block. -/
def validateBlock (block : BlockMsg H) (payload : Payload H) : Checked Bool := do
  if ← preValidateBlock σ knows block payload then do
    let id ← blockId σ block payload
    checkById σ id block.signature
  else .ok false

/-- Collision-free hashes, different keys, and no empty signature is valid. -/
structure Session.Sound (σ : Session H) : Prop where
  distinct : σ.sources.Nodup
  payloads : Function.Injective σ.payloadHash
  ids : Function.Injective σ.idHash
  unsigned : ∀ key id, σ.checkSignature key id [] = false

end Validation

section Inversion

variable {H : Type} {σ : Session H} {knows : H → Bool} {block : BlockMsg H} {payload : Payload H} {dep : Dep H}
  {src : TlInt}

theorem isSource.index (h : isSource σ src) : src.toUint32 = src.val.toNat ∧ src.toUint32 < σ.sources.length := by
  have low := h.1
  have high := h.2
  have small : src.val % 2 ^ 32 = src.val := Int.emod_eq_of_lt low (by omega)
  rw [TlInt.toUint32, small]
  exact ⟨rfl, by omega⟩

theorem isSource.hash (h : isSource σ src) :
    ∃ key, σ.sources[src.val.toNat]? = some key ∧ getSourceHash σ src = .ok key := by
  obtain ⟨index, bound⟩ := h.index
  refine ⟨σ.sources[src.toUint32], ?_, ?_⟩
  · rw [← index]
    exact List.getElem?_eq_getElem bound
  · rw [getSourceHash, List.getElem?_eq_getElem bound]

theorem getSourceHash_mem {key : H} (h : getSourceHash σ src = .ok key) : key ∈ σ.sources := by
  unfold getSourceHash at h
  split at h
  · next found =>
    cases h
    exact List.mem_of_getElem? found
  · cases h

theorem blockId_success {id : BlockId H} (h : blockId σ block payload = .ok id) :
    getSourceHash σ block.src = .ok id.src ∧ id.incarnation = block.incarnation ∧ id.height = block.height ∧
      id.dataHash = σ.payloadHash payload := by
  obtain ⟨key, found, h⟩ := of_bind h
  cases h
  exact ⟨found, rfl, rfl, rfl⟩

theorem src_of_hash (sound : σ.Sound) {x y : TlInt} (sourceX : isSource σ x) (sourceY : isSource σ y)
    (same : getSourceHash σ x = getSourceHash σ y) : x = y := by
  obtain ⟨key, atX, hashX⟩ := sourceX.hash
  obtain ⟨key', atY, hashY⟩ := sourceY.hash
  rw [hashX, hashY] at same
  obtain rfl := Except.ok.inj same
  have bound : x.val.toNat < σ.sources.length := by
    have := sourceX.1
    have := sourceX.2
    omega
  have index := (List.getElem?_inj bound sound.distinct).mp (atX.trans atY.symm)
  have := sourceX.1
  have := sourceY.1
  exact Subtype.ext (by omega)

variable [DecidableEq H]

theorem validateDeps_true {deps : List (Dep H)} :
    validateDeps σ knows deps = .ok true ↔ ∀ dep ∈ deps, validateDep σ knows dep = .ok true := by
  induction deps with
  | nil => simp [validateDeps]
  | cons dep rest ih =>
    rw [validateDeps, List.forall_mem_cons, ← ih, bind_success]
    constructor
    · intro h
      obtain ⟨ok, valid, h⟩ := h
      cases ok with
      | false => cases h
      | true => exact ⟨valid, h⟩
    · intro h
      exact ⟨true, h.1, h.2⟩

structure Accepted (σ : Session H) (knows : H → Bool) (block : BlockMsg H) (payload : Payload H) : Prop where
  session : block.incarnation = σ.incarnation
  head : headOk σ block
  links : ∀ dep ∈ block.prev :: block.deps, validateDep σ knows dep = .ok true
  nonempty : payload.isEmpty = false
  signed : ∃ id, blockId σ block payload = .ok id ∧ σ.checkSignature id.src id block.signature = true

theorem validateBlock_true : validateBlock σ knows block payload = .ok true ↔ Accepted σ knows block payload := by
  constructor
  · intro h
    obtain ⟨pre, valid, h⟩ := of_bind h
    cases pre with
    | false => cases h
    | true =>
      obtain ⟨id, identity, h⟩ := of_bind h
      unfold preValidateBlock at valid
      split at valid
      · cases valid
      next session =>
      split at valid
      · cases valid
      next head =>
      obtain ⟨ok, links, valid⟩ := of_bind valid
      cases ok with
      | false => cases valid
      | true =>
        unfold checkById at h
        split at h
        · exact ⟨not_not.mp session, not_not.mp head, validateDeps_true.mp links,
            by simpa using Except.ok.inj valid, id, identity, Except.ok.inj h⟩
        · cases h
  · intro h
    obtain ⟨id, identity, signed⟩ := h.signed
    have member := getSourceHash_mem (blockId_success identity).1
    have pre : preValidateBlock σ knows block payload = .ok true := by
      rw [preValidateBlock, if_neg (not_not.mpr h.session), if_neg (not_not.mpr h.head),
        validateDeps_true.mpr h.links]
      exact congrArg Except.ok (by rw [h.nonempty]; rfl)
    rw [validateBlock, pre]
    rw [identity]
    exact (if_pos member).trans (congrArg Except.ok signed)

end Inversion

/-- Hashes as the data that they are taken of. -/
inductive Digest where
  | nat (n : Nat)
  | id (incarnation src : Digest) (height : TlInt) (dataHash : Digest)
  | fork (src height : TlInt) (hash : Digest) (signature : List UInt8) (src' height' : TlInt) (hash' : Digest)
      (signature' : List UInt8)
  | badBlock (raw : List UInt8)
  | nop
  | custom (raw : List UInt8)
  deriving DecidableEq

namespace Digest

def ofId (x : BlockId Digest) : Digest := .id x.incarnation x.src x.height x.dataHash

def ofPayload : Payload Digest → Digest
  | .fork left right =>
    .fork left.src left.height left.dataHash left.signature right.src right.height right.dataHash right.signature
  | .badBlock raw => .badBlock raw
  | .nop => .nop
  | .custom raw => .custom raw

theorem ofId_injective : Function.Injective ofId := by
  rintro ⟨⟩ ⟨⟩ same
  cases same
  rfl

theorem ofPayload_injective : Function.Injective ofPayload := by
  rintro (⟨⟨⟩, ⟨⟩⟩ | _ | _ | _) (⟨⟨⟩, ⟨⟩⟩ | _ | _ | _) same <;> cases same <;> rfl

end Digest

/-- A session of `n` nodes in which the byte 1 signs everything. -/
def freeSession (n : Nat) (few : n < 2 ^ 31) (maxDeps : Nat) : Session Digest where
  incarnation := .nat 0
  sources := (List.range n).map fun i => .nat (i + 1)
  count := by simpa using few
  maxDeps := maxDeps
  payloadHash := .ofPayload
  idHash := .ofId
  checkSignature _ _ signature := decide (signature = [1])

/-- The assumptions on a session are consistent. -/
theorem freeSession_sound (n : Nat) (few : n < 2 ^ 31) (maxDeps : Nat) : (freeSession n few maxDeps).Sound where
  distinct := by
    refine List.Nodup.map (fun i j same => ?_) List.nodup_range
    exact Nat.succ.inj (Digest.nat.inj same)
  payloads := Digest.ofPayload_injective
  ids := Digest.ofId_injective
  unsigned _ _ := rfl

end TonStaking.Source.Catchain
