import Mathlib.Data.List.Sort
import TonStaking.Source.Shard.Routing

/-!
# Records of processed messages

`MsgProcessedUpto` and `MsgProcessedUptoCollection` of `crypto/block/block.h`
156-201 and `crypto/block/block.cpp` 349-382, 456-579. A record says that all
messages into its shard up to a logical time and hash have been processed; of those
from other shards only the ones that were enqueued before the end given by
`compute_shard_end_lt`, which a record gets from the masterchain state of its
seqno.
-/
namespace TonStaking.Source.Shard

open Tvm

abbrev LogicalTime := BitVec 64

/-- The fields of `EnqueuedMsgDescr` that are compared with records. -/
structure EnqueuedMsgDescr where
  curPrefix : AccountIdPrefixFull
  nextPrefix : AccountIdPrefixFull
  lt : LogicalTime
  enqueuedLt : LogicalTime
  hash : BitVec 256
  deriving DecidableEq

def EnqueuedMsgDescr.sameWorkchain (msg : EnqueuedMsgDescr) : Bool :=
  msg.curPrefix.workchain = msg.nextPrefix.workchain

structure MsgProcessedUpto where
  shard : ShardId
  mcSeqno : BitVec 32
  lastInmsgLt : LogicalTime
  lastInmsgHash : BitVec 256
  deriving DecidableEq

namespace MsgProcessedUpto

/-- The order of `std::sort`. -/
def less (z other : MsgProcessedUpto) : Bool :=
  z.shard < other.shard ∨ (z.shard = other.shard ∧ z.mcSeqno < other.mcSeqno)

def contains (z other : MsgProcessedUpto) : Bool :=
  shardIsAncestor z.shard other.shard ∧ other.mcSeqno ≤ z.mcSeqno ∧
    (other.lastInmsgLt < z.lastInmsgLt ∨
      (z.lastInmsgLt = other.lastInmsgLt ∧ ¬ z.lastInmsgHash < other.lastInmsgHash))

def alreadyProcessed (endLt : BitVec 32 → AccountIdPrefixFull → LogicalTime) (z : MsgProcessedUpto)
    (msg : EnqueuedMsgDescr) : Bool :=
  if z.lastInmsgLt < msg.lt then false
  else if !shardContains z.shard msg.nextPrefix.accountIdPrefix then false
  else if msg.lt = z.lastInmsgLt ∧ z.lastInmsgHash < msg.hash then false
  else if msg.sameWorkchain && shardContains z.shard msg.curPrefix.accountIdPrefix then true
  else msg.enqueuedLt < endLt z.mcSeqno msg.curPrefix

/-- The record for the part of its shard in another one. -/
def cut (shard : ShardId) (z : MsgProcessedUpto) : MsgProcessedUpto :=
  { z with shard := shardIntersection z.shard shard }

end MsgProcessedUpto

section Compactify

variable {α : Type} (contains : α → α → Bool) (list : List α)

/-- Whether the element at `j` makes the one at `i` superfluous. -/
def containsAt (j i : Nat) : Bool :=
  match list[j]?, list[i]? with
  | some z, some other => contains z other
  | _, _ => false

/-- One round of the outer loop. -/
def markAt (mark : Nat → Bool) (i : Nat) : Nat → Bool :=
  if (List.range list.length).any fun j => j ≠ i ∧ !mark j ∧ containsAt contains list j i then
    Function.update mark i true
  else mark

/-- The marks after the loops. -/
def marked : Nat → Bool :=
  (List.range list.length).foldl (markAt contains list) fun _ => false

/-- The elements that stay. -/
def unmarked : List α :=
  (list.zipIdx.filter fun entry => !marked contains list entry.2).map (·.1)

end Compactify

structure MsgProcessedUptoCollection where
  owner : ShardIdFull
  list : List MsgProcessedUpto
  deriving DecidableEq

namespace MsgProcessedUptoCollection

/-- The callback of the constructor for one entry of the dictionary; the shard of the record is passed for an account. -/
def unpackRecord (owner : ShardIdFull) (key : BitVec 96) (value : Slice) : Option MsgProcessedUpto :=
  if value.bits.length ≠ 64 + 256 ∨ value.refs ≠ [] then none
  else
    let z : MsgProcessedUpto :=
      { shard := key.extractLsb' 32 64
        mcSeqno := key.extractLsb' 0 32
        lastInmsgLt := BitVec.ofNat 64 (natOf (value.bits.take 64))
        lastInmsgHash := BitVec.ofNat 256 (natOf (value.bits.drop 64)) }
    if z.shard ≠ 0 ∧ shardContains owner.shard z.shard then some z else none

def unpackRecords (owner : ShardIdFull) : List (BitVec 96 × Slice) → Option (List MsgProcessedUpto)
  | [] => some []
  | (key, value) :: rest => do
    let z ← unpackRecord owner key value
    let list ← unpackRecords owner rest
    some (z :: list)

/-- `unpack`, with the dictionary as the list of its entries. -/
def unpack (owner : ShardIdFull) (dict : List (BitVec 96 × Slice)) : Option MsgProcessedUptoCollection :=
  (unpackRecords owner dict).map (⟨owner, ·⟩)

/-- `compactify`: sorting, then the removal of records that another one contains. -/
def compactify (v : MsgProcessedUptoCollection) : MsgProcessedUptoCollection :=
  { v with list := unmarked MsgProcessedUpto.contains (v.list.insertionSort fun z other => !other.less z) }

def split (v : MsgProcessedUptoCollection) (newOwner : ShardIdFull) : Option MsgProcessedUptoCollection :=
  if !v.owner.isAncestor newOwner then none
  else if v.owner = newOwner then some v
  else
    let list := (v.list.filter fun z => shardIntersects z.shard newOwner.shard).map (.cut newOwner.shard)
    some (compactify ⟨newOwner, list⟩)

def combineWith (v other : MsgProcessedUptoCollection) : Option MsgProcessedUptoCollection :=
  if !(other.owner = v.owner ∨ other.owner.isSibling v.owner) then none
  else
    let list := v.list ++ other.list
    if v.owner ≠ other.owner then v.owner.parent.map fun owner => compactify ⟨owner, list⟩
    else some (compactify ⟨v.owner, list⟩)

def alreadyProcessed (endLt : BitVec 32 → AccountIdPrefixFull → LogicalTime) (v : MsgProcessedUptoCollection)
    (msg : EnqueuedMsgDescr) : Bool :=
  if !v.owner.contains msg.nextPrefix then false else v.list.any fun rec => rec.alreadyProcessed endLt msg

end MsgProcessedUptoCollection

section Effects

variable {α : Type} {contains : α → α → Bool} {list : List α} {above : α → α → Prop}

/-- Every marked element is below one that is not marked. -/
def Backed (above : α → α → Prop) (list : List α) (mark : Nat → Bool) : Prop :=
  ∀ i other, list[i]? = some other → mark i = true → ∃ j z, list[j]? = some z ∧ mark j = false ∧ above z other

theorem containsAt_true {i j : Nat} (h : containsAt contains list j i = true) :
    ∃ z other, list[j]? = some z ∧ list[i]? = some other ∧ contains z other = true := by
  unfold containsAt at h
  split at h
  · next z other atJ atI => exact ⟨z, other, atJ, atI, h⟩
  · cases h

theorem markAt_backed (trans : ∀ x y z, above x y → above y z → above x z)
    (sound : ∀ z ∈ list, ∀ other ∈ list, contains z other = true → above z other) {mark : Nat → Bool} (i : Nat)
    (backed : Backed above list mark) : Backed above list (markAt contains list mark i) := by
  unfold markAt
  split
  · next found =>
    obtain ⟨j, _, test⟩ := List.any_eq_true.mp found
    rw [decide_eq_true_eq, Bool.not_eq_eq_eq_not, Bool.not_true] at test
    obtain ⟨different, clear, covered⟩ := test
    obtain ⟨z, other, atJ, atI, holds⟩ := containsAt_true covered
    have step : above z other := sound z (List.mem_of_getElem? atJ) other (List.mem_of_getElem? atI) holds
    have clear' : Function.update mark i true j = false := by rw [Function.update_of_ne different, clear]
    intro k other' atK isMarked
    by_cases same : k = i
    · subst same
      rw [atI] at atK
      cases atK
      exact ⟨j, z, atJ, clear', step⟩
    · rw [Function.update_of_ne same] at isMarked
      obtain ⟨l, z', atL, unmarkedL, covering⟩ := backed k other' atK isMarked
      -- the element behind an earlier mark may be the one that is marked now
      by_cases now : l = i
      · subst now
        rw [atI] at atL
        cases atL
        exact ⟨j, z, atJ, clear', trans _ _ _ step covering⟩
      · exact ⟨l, z', atL, by rw [Function.update_of_ne now, unmarkedL], covering⟩
  · exact backed

theorem marked_backed (trans : ∀ x y z, above x y → above y z → above x z)
    (sound : ∀ z ∈ list, ∀ other ∈ list, contains z other = true → above z other) :
    Backed above list (marked contains list) := by
  refine List.foldlRecOn (motive := Backed above list) _ _ nofun ?_
  exact fun mark backed i _ => markAt_backed trans sound i backed

theorem mem_unmarked {z : α} : z ∈ unmarked contains list ↔ ∃ i, list[i]? = some z ∧ marked contains list i = false := by
  simp only [unmarked, List.mem_map, List.mem_filter, Prod.exists, List.mem_zipIdx_iff_getElem?,
    Bool.not_eq_eq_eq_not]
  constructor
  · rintro ⟨_, i, found, rfl⟩
    exact ⟨i, found⟩
  · rintro ⟨i, found⟩
    exact ⟨z, i, found, rfl⟩

theorem unmarked_subset : unmarked contains list ⊆ list := by
  intro z member
  obtain ⟨i, at_i, _⟩ := mem_unmarked.mp member
  exact List.mem_of_getElem? at_i

theorem unmarked_covers (refl : ∀ x, above x x)
    (trans : ∀ x y z, above x y → above y z → above x z)
    (sound : ∀ z ∈ list, ∀ other ∈ list, contains z other = true → above z other) {other : α} (member : other ∈ list) :
    ∃ z ∈ unmarked contains list, above z other := by
  obtain ⟨i, at_i⟩ := List.mem_iff_getElem?.mp member
  cases mark : marked contains list i with
  | false => exact ⟨other, mem_unmarked.mpr ⟨i, at_i, mark⟩, refl other⟩
  | true =>
    obtain ⟨j, z, at_j, clear, covering⟩ := marked_backed trans sound i other at_i mark
    exact ⟨z, mem_unmarked.mpr ⟨j, at_j, clear⟩, covering⟩

end Effects

end TonStaking.Source.Shard
