import TonStaking.Source.Shard.ProcessedUpto
import TonStaking.Guarantees.ShardTree

/-!
# Records of processed messages through splits and merges

A record is about a part of its owner's shard, and then splits and merges of the
collections neither invent nor forget processed messages. Unpacking tests the part
with the function that takes a shard for an account, so that it lets through
records of shards larger than the owner's; those speak of messages that the owner
has never seen as soon as the collection is merged.
-/
namespace TonStaking.Guarantees.ProcessedUpto

open BitVec Tvm Word Source.Shard Source.Shard.MsgProcessedUptoCollection ShardTree

section Records

variable {endLt : BitVec 32 → AccountIdPrefixFull → LogicalTime} {z : MsgProcessedUpto} {msg : EnqueuedMsgDescr}

/-- The message is not after the last one of the record, by logical time and hash. -/
def Reached (z : MsgProcessedUpto) (msg : EnqueuedMsgDescr) : Prop :=
  msg.lt ≤ z.lastInmsgLt ∧ (msg.lt = z.lastInmsgLt → msg.hash ≤ z.lastInmsgHash)

theorem alreadyProcessed_iff (nonzero : z.shard ≠ 0) :
    z.alreadyProcessed endLt msg = true ↔ Reached z msg ∧ msg.nextPrefix.accountIdPrefix ∈ accounts z.shard ∧
      (msg.sameWorkchain = true ∧ msg.curPrefix.accountIdPrefix ∈ accounts z.shard ∨
        msg.enqueuedLt < endLt z.mcSeqno msg.curPrefix) := by
  unfold MsgProcessedUpto.alreadyProcessed Reached
  rw [← shardContains_iff nonzero, ← shardContains_iff nonzero]
  by_cases late : z.lastInmsgLt < msg.lt
  · rw [if_pos late]
    simp [BitVec.not_le.mpr late]
  rw [if_neg late]
  have early : msg.lt ≤ z.lastInmsgLt := BitVec.not_lt.mp late
  cases next : shardContains z.shard msg.nextPrefix.accountIdPrefix with
  | false => simp
  | true =>
    by_cases beyond : msg.lt = z.lastInmsgLt ∧ z.lastInmsgHash < msg.hash
    · simp [beyond.1]
    have before : msg.lt = z.lastInmsgLt → msg.hash ≤ z.lastInmsgHash := by
      intro same
      exact BitVec.not_lt.mp fun after => beyond ⟨same, after⟩
    rw [if_neg beyond, and_iff_right (And.intro early before), and_iff_right rfl]
    cases msg.sameWorkchain with
    | false => simp
    | true =>
      cases shardContains z.shard msg.curPrefix.accountIdPrefix with
      | false | true => simp

/-- The ends of the shards' blocks do not go back with the masterchain's seqno. -/
def Growing (endLt : BitVec 32 → AccountIdPrefixFull → LogicalTime) : Prop :=
  ∀ (a : AccountIdPrefixFull) (seqno later : BitVec 32), seqno ≤ later → endLt seqno a ≤ endLt later a

/-- One record says of every message what the other says. -/
def Above (endLt : BitVec 32 → AccountIdPrefixFull → LogicalTime) (z other : MsgProcessedUpto) : Prop :=
  ∀ msg, other.alreadyProcessed endLt msg = true → z.alreadyProcessed endLt msg = true

theorem above_of_contains (growing : Growing endLt) {other : MsgProcessedUpto}
    (hz : z.shard ≠ 0) (ho : other.shard ≠ 0) (contained : z.contains other = true) : Above endLt z other := by
  intro msg
  rw [MsgProcessedUpto.contains, decide_eq_true_eq, shardIsAncestor_eq hz ho] at contained
  obtain ⟨part, seqno, order⟩ := contained
  rw [alreadyProcessed_iff hz, alreadyProcessed_iff ho]
  rintro ⟨⟨early, before⟩, next, how⟩
  refine ⟨?_, part next, ?_⟩
  · unfold Reached
    rw [BitVec.le_def] at early before ⊢
    rw [BitVec.le_def]
    rw [BitVec.lt_def, BitVec.lt_def] at order
    rcases order with later | ⟨same, notLess⟩
    · refine ⟨by omega, fun equal => ?_⟩
      rw [equal] at early
      omega
    · rw [same]
      refine ⟨early, fun equal => ?_⟩
      have hash := before equal
      omega
  · rcases how with ⟨workchain, cur⟩ | enqueued
    · exact .inl ⟨workchain, part cur⟩
    right
    have later : endLt other.mcSeqno msg.curPrefix ≤ endLt z.mcSeqno msg.curPrefix := growing _ _ _ seqno
    rw [BitVec.lt_def] at enqueued ⊢
    rw [BitVec.le_def] at later
    omega

/-- The record of a shard, cut to a smaller one, for messages inside that. -/
theorem cut_iff {s : ShardId} (hz : z.shard ≠ 0) (hs : s ≠ 0)
    (meet : shardIntersects z.shard s = true) :
    (z.cut s).alreadyProcessed endLt msg = true ↔
      Reached z msg ∧ msg.nextPrefix.accountIdPrefix ∈ accounts z.shard ∩ accounts s ∧
      (msg.sameWorkchain = true ∧ msg.curPrefix.accountIdPrefix ∈ accounts z.shard ∩ accounts s ∨
        msg.enqueuedLt < endLt z.mcSeqno msg.curPrefix) := by
  rw [alreadyProcessed_iff (shardIntersection_ne_zero hz hs : (z.cut s).shard ≠ 0), MsgProcessedUpto.cut]
  rw [accounts_shardIntersection hz hs ((shardIntersects_iff hz hs).mp meet)]
  rfl

variable {v : MsgProcessedUptoCollection} {msg : EnqueuedMsgDescr} {owner x c : ShardIdFull}
  {list : List MsgProcessedUpto} {z : MsgProcessedUpto} {dict : List (BitVec 96 × Slice)}

/-- Every record is about a shard. -/
def Sharded (list : List MsgProcessedUpto) : Prop := ∀ z ∈ list, z.shard ≠ 0

/-- Every record is about a part of the owner's shard. -/
def Owned (v : MsgProcessedUptoCollection) : Prop := ∀ z ∈ v.list, accounts z.shard ⊆ accounts v.owner.shard

theorem collection_iff :
    v.alreadyProcessed endLt msg = true ↔
      v.owner.contains msg.nextPrefix = true ∧ ∃ z ∈ v.list, z.alreadyProcessed endLt msg = true := by
  unfold alreadyProcessed
  cases v.owner.contains msg.nextPrefix with
  | false | true => simp

theorem compactify_iff (growing : Growing endLt) (sharded : Sharded list) :
    (compactify ⟨owner, list⟩).alreadyProcessed endLt msg = true ↔
      owner.contains msg.nextPrefix = true ∧ ∃ z ∈ list, z.alreadyProcessed endLt msg = true := by
  rw [collection_iff, compactify]
  have sorted := fun z => List.mem_insertionSort (fun z other : MsgProcessedUpto => !other.less z) (x := z) (l := list)
  refine and_congr_right fun _ => ⟨?_, ?_⟩
  · rintro ⟨z, member, processed⟩
    exact ⟨z, (sorted z).mp (unmarked_subset member), processed⟩
  · rintro ⟨z, member, processed⟩
    have covering : ∃ w ∈ unmarked MsgProcessedUpto.contains (list.insertionSort fun z other => !other.less z),
        Above endLt w z := unmarked_covers (fun _ _ h => h) (fun _ _ _ first second msg h => first msg (second msg h))
      (fun a inA b inB => above_of_contains growing (sharded a ((sorted a).mp inA)) (sharded b ((sorted b).mp inB)))
      ((sorted z).mpr member)
    obtain ⟨w, stays, above⟩ := covering
    exact ⟨w, stays, above msg processed⟩

theorem unpackRecord_success {key : BitVec 96} {value : Slice}
    (unpacked : unpackRecord owner key value = some z) :
    z.shard ≠ 0 ∧ shardContains owner.shard z.shard = true := by
  unfold unpackRecord at unpacked
  split at unpacked
  · cases unpacked
  dsimp only at unpacked
  split at unpacked
  · next accepted =>
    cases unpacked
    exact accepted
  · cases unpacked

theorem unpackRecords_success (unpacked : unpackRecords owner dict = some list) :
    ∀ z ∈ list, z.shard ≠ 0 ∧ shardContains owner.shard z.shard = true := by
  induction dict generalizing list with
  | nil =>
    cases unpacked
    intro z member
    cases member
  | cons entry rest ih =>
    simp only [unpackRecords, Option.bind_eq_bind, Option.bind_eq_some_iff,
      Option.some.injEq] at unpacked
    obtain ⟨z, first, others, unpackedRest, rfl⟩ := unpacked
    intro z' member
    rcases List.mem_cons.mp member with rfl | other
    · exact unpackRecord_success first
    · exact ih unpackedRest z' other

theorem unpack_success (unpacked : unpack owner dict = some v) :
    v.owner = owner ∧ ∀ z ∈ v.list, z.shard ≠ 0 ∧ shardContains owner.shard z.shard = true := by
  rw [unpack, Option.map_eq_some_iff] at unpacked
  obtain ⟨list, records, rfl⟩ := unpacked
  exact ⟨rfl, unpackRecords_success records⟩

/-- An accepted record is about a part of the owner's shard or about a larger shard. -/
theorem owned_iff {owner z : ShardId} (ho : owner ≠ 0) (hz : z ≠ 0) (accepted : shardContains owner z = true) :
    accounts z ⊆ accounts owner ↔ shardIsProperAncestor z owner = false := by
  rw [shardContains_iff ho, mem_accounts ho] at accepted
  rw [← Bool.not_eq_true, shardIsProperAncestor_iff hz ho, accounts_subset_iff ho hz]
  constructor
  · intro part larger
    exact absurd part.1 (Nat.not_le.mpr larger.1)
  · intro notLarger
    refine ⟨Nat.not_lt.mp fun less => notLarger ⟨less, ?_⟩, accepted⟩
    exact (accepted.mono (Nat.le_of_lt less)).symm

/-- A shard and a sibling of it make up the parent. -/
theorem sibling_parent {y : ShardIdFull} (hx : x.shard ≠ 0) (hy : y.shard ≠ 0) (sibling : y.isSibling x = true) :
    y.workchain = x.workchain ∧ y.shard ≠ x.shard ∧
      ∃ p, x.parent = some p ∧ p.shard ≠ 0 ∧ accountsOf x ∪ accountsOf y = accountsOf p := by
  rw [ShardIdFull.isSibling, decide_eq_true_eq, shardIsSibling, decide_eq_true_eq] at sibling
  obtain ⟨same, differ, word⟩ := sibling
  have proper : y.shard ≠ shardIdAll := by
    intro all
    rw [word, all] at differ
    exact differ (by decide +kernel)
  have other : shardSibling y.shard = x.shard := by
    rw [shardSibling, ← word, ← BitVec.xor_assoc, BitVec.xor_self, BitVec.zero_xor]
  have spec := shardSibling_spec hy (lowest_lt_of_ne_all hy proper)
  rw [other] at spec
  have short : lowest x.shard < 63 := by
    rw [spec.2.1]
    exact lowest_lt_of_ne_all hy proper
  have back : shardSibling x.shard = y.shard := by
    rw [shardSibling, bitsNegate64_eq, and_neg_self hx, spec.2.1, ← and_neg_self hy, ← bitsNegate64_eq, ← word,
      BitVec.xor_comm y.shard, ← BitVec.xor_assoc, BitVec.xor_self, BitVec.zero_xor]
  have properX : x.shard ≠ shardIdAll := by
    intro all
    have last : lowest shardIdAll = 63 := lowest_eq (by decide) (by decide)
    rw [all, last] at short
    exact absurd short (Nat.lt_irrefl 63)
  obtain ⟨p, parent, _, _, union, _⟩ := parent_agrees hx properX
  obtain ⟨q, parentQ, hq, _⟩ := shardParent_spec hx short
  have isQ : p = ⟨x.workchain, q⟩ := by
    rw [ShardIdFull.parent, parentQ, Option.map_some, Option.some.injEq] at parent
    exact parent.symm
  rw [back, ← same] at union
  refine ⟨same, fun equal => differ ?_, p, parent, isQ ▸ hq, union⟩
  rw [equal, BitVec.xor_self]
  rfl

theorem owned_next (hv : v.owner.shard ≠ 0) (sharded : Sharded v.list) (owned : Owned v) (member : z ∈ v.list)
    (workchain : msg.nextPrefix.workchain = v.owner.workchain) (processed : z.alreadyProcessed endLt msg = true) :
    v.alreadyProcessed endLt msg = true := by
  have next := ((alreadyProcessed_iff (sharded z member)).mp processed).2.1
  rw [collection_iff, contains_agrees hv]
  exact ⟨⟨workchain, owned z member next⟩, z, member, processed⟩

/-- Merging two siblings keeps exactly what one of them said. -/
theorem combineWith_exact (growing : Growing endLt) {w : MsgProcessedUptoCollection} (hv : v.owner.shard ≠ 0)
    (hw : w.owner.shard ≠ 0) (shardedV : Sharded v.list) (shardedW : Sharded w.list) (ownedV : Owned v)
    (ownedW : Owned w) (sibling : w.owner.isSibling v.owner = true) :
    ∃ u, v.combineWith w = some u ∧ ∀ msg, u.alreadyProcessed endLt msg = true ↔
      v.alreadyProcessed endLt msg = true ∨ w.alreadyProcessed endLt msg = true := by
  obtain ⟨same, different, p, parent, hp, union⟩ := sibling_parent hv hw sibling
  have others : v.owner ≠ w.owner := fun equal => different (congrArg ShardIdFull.shard equal).symm
  have sharded : Sharded (v.list ++ w.list) := by
    intro z member
    exact (List.mem_append.mp member).elim (shardedV z) (shardedW z)
  have combined : v.combineWith w = some (compactify ⟨p, v.list ++ w.list⟩) := by
    simp [combineWith, sibling, others, parent]
  refine ⟨_, combined, fun msg => ?_⟩
  rw [compactify_iff growing sharded, contains_agrees hp, ← union]
  constructor
  · rintro ⟨inParent, z, member, processed⟩
    have workchain : msg.nextPrefix.workchain = v.owner.workchain :=
      inParent.elim (fun inV => inV.1) fun inW => inW.1.trans same
    rcases List.mem_append.mp member with inV | inW
    · exact .inl (owned_next hv shardedV ownedV inV workchain processed)
    · exact .inr (owned_next hw shardedW ownedW inW (workchain.trans same.symm) processed)
  · rintro (first | second)
    · rw [collection_iff, contains_agrees hv] at first
      obtain ⟨inV, z, member, processed⟩ := first
      exact ⟨.inl inV, z, List.mem_append_left _ member, processed⟩
    · rw [collection_iff, contains_agrees hw] at second
      obtain ⟨inW, z, member, processed⟩ := second
      exact ⟨.inr inW, z, List.mem_append_right _ member, processed⟩

/-- Splitting off a part keeps nothing else, and everything about messages inside the part. -/
theorem split_exact (growing : Growing endLt) (hv : v.owner.shard ≠ 0) (hc : c.shard ≠ 0) (sharded : Sharded v.list)
    (part : v.owner.isAncestor c = true) :
    ∃ u, v.split c = some u ∧ (∀ msg, u.alreadyProcessed endLt msg = true → v.alreadyProcessed endLt msg = true) ∧
      ∀ msg, v.alreadyProcessed endLt msg = true → c.contains msg.nextPrefix = true →
        c.contains msg.curPrefix = true → u.alreadyProcessed endLt msg = true := by
  by_cases same : v.owner = c
  · refine ⟨v, by simp [split, same ▸ part, same], fun _ h => h, fun _ h _ _ => h⟩
  have inOwner := (isAncestor_agrees hv hc).mp part
  have divided : v.split c = some (compactify
      ⟨c, (v.list.filter fun z => shardIntersects z.shard c.shard).map (.cut c.shard)⟩) := by
    simp [split, part, same]
  have cuts : Sharded ((v.list.filter fun z => shardIntersects z.shard c.shard).map (.cut c.shard)) := by
    intro z' member
    obtain ⟨z, kept, rfl⟩ := List.mem_map.mp member
    exact shardIntersection_ne_zero (sharded z (List.mem_of_mem_filter kept)) hc
  refine ⟨_, divided, ?_, ?_⟩
  · intro msg processed
    rw [compactify_iff growing cuts, contains_agrees hc] at processed
    obtain ⟨next, z', member, record⟩ := processed
    obtain ⟨z, kept, rfl⟩ := List.mem_map.mp member
    obtain ⟨inList, meet⟩ := List.mem_filter.mp kept
    rw [cut_iff (sharded z inList) hc meet] at record
    rw [collection_iff, contains_agrees hv]
    refine ⟨inOwner next, z, inList, ?_⟩
    rw [alreadyProcessed_iff (sharded z inList)]
    exact ⟨record.1, record.2.1.1, record.2.2.imp_left fun inside => ⟨inside.1, inside.2.1⟩⟩
  · intro msg processed next cur
    rw [collection_iff] at processed
    obtain ⟨_, z, inList, record⟩ := processed
    rw [alreadyProcessed_iff (sharded z inList)] at record
    have nextPart := ((contains_agrees hc _).mp next).2
    have curPart := ((contains_agrees hc _).mp cur).2
    have meet : shardIntersects z.shard c.shard = true :=
      (shardIntersects_eq (sharded z inList) hc).mpr ⟨_, record.2.1, nextPart⟩
    rw [compactify_iff growing cuts]
    refine ⟨next, z.cut c.shard, List.mem_map_of_mem (List.mem_filter.mpr ⟨inList, meet⟩), ?_⟩
    rw [cut_iff (sharded z inList) hc meet]
    exact ⟨record.1, ⟨record.2.1, nextPart⟩, record.2.2.imp_left fun inside => ⟨inside.1, inside.2, curPart⟩⟩

/-- What is promised of two collections, if they are of siblings, and of the parts of the first. -/
structure NothingInvented (endLt : BitVec 32 → AccountIdPrefixFull → LogicalTime) (v w : MsgProcessedUptoCollection) :
    Prop where
  ownedFirst : Owned v
  ownedSecond : Owned w
  merge : w.owner.isSibling v.owner = true → ∃ u, v.combineWith w = some u ∧ ∀ msg,
    u.alreadyProcessed endLt msg = true ↔
      v.alreadyProcessed endLt msg = true ∨ w.alreadyProcessed endLt msg = true
  split : ∀ left c, v.owner.child left = some c → ∃ u, v.split c = some u ∧
    (∀ msg, u.alreadyProcessed endLt msg = true → v.alreadyProcessed endLt msg = true) ∧
    ∀ msg, v.alreadyProcessed endLt msg = true → c.contains msg.nextPrefix = true →
      c.contains msg.curPrefix = true → u.alreadyProcessed endLt msg = true

/-- No record is about a shard larger than the owner's. -/
def NoLarger (v : MsgProcessedUptoCollection) : Prop :=
  ∀ z ∈ v.list, shardIsProperAncestor z.shard v.owner.shard = false

instance (v : MsgProcessedUptoCollection) : Decidable (NoLarger v) := inferInstanceAs (Decidable (∀ z ∈ v.list, _))

theorem owned_iff_noLarger (nonzero : owner.shard ≠ 0)
    (unpacked : unpack owner dict = some v) :
    Owned v ↔ NoLarger v := by
  obtain ⟨rfl, accepted⟩ := unpack_success unpacked
  refine forall₂_congr fun z member => ?_
  exact owned_iff nonzero (accepted z member).1 (accepted z member).2

theorem child_part (hx : x.shard ≠ 0) {left : Bool} (child : x.child left = some c) :
    c.shard ≠ 0 ∧ x.isAncestor c = true := by
  rw [ShardIdFull.child, Option.map_eq_some_iff] at child
  obtain ⟨s, half, rfl⟩ := child
  have split : lowerBit64 x.shard >>> 1 ≠ 0 := by
    intro zero
    simp [shardChild, zero] at half
  obtain ⟨s', same, nonzero, marker, agree, _⟩ := shardChild_spec hx (lowest_pos hx split) left
  rw [half, Option.some.injEq] at same
  subst same
  refine ⟨nonzero, ?_⟩
  rw [ShardIdFull.isAncestor, decide_eq_true_eq, shardIsAncestor_iff hx nonzero]
  exact ⟨rfl, by omega, agree.symm⟩

/-- The promises hold exactly if no accepted record is about a shard larger than its owner's. -/
theorem nothing_invented_iff (growing : Growing endLt) {ownerV ownerW : ShardIdFull} (hv : ownerV.shard ≠ 0)
    (hw : ownerW.shard ≠ 0) {dictV dictW : List (BitVec 96 × Slice)} {v w : MsgProcessedUptoCollection}
    (unpackedV : unpack ownerV dictV = some v)
    (unpackedW : unpack ownerW dictW = some w) :
    NothingInvented endLt v w ↔ NoLarger v ∧ NoLarger w := by
  rw [← owned_iff_noLarger hv unpackedV, ← owned_iff_noLarger hw unpackedW]
  constructor
  · exact fun promise => ⟨promise.ownedFirst, promise.ownedSecond⟩
  · rintro ⟨ownedV, ownedW⟩
    obtain ⟨rfl, acceptedV⟩ := unpack_success unpackedV
    obtain ⟨rfl, acceptedW⟩ := unpack_success unpackedW
    have shardedV : Sharded v.list := fun z member => (acceptedV z member).1
    have shardedW : Sharded w.list := fun z member => (acceptedW z member).1
    refine ⟨ownedV, ownedW, fun sibling => ?_, fun left c child => ?_⟩
    · exact combineWith_exact growing hv hw shardedV shardedW ownedV ownedW sibling
    · have part := child_part hv child
      exact split_exact growing hv part.1 shardedV part.2

/-- A bit string of 64 zeroes and 256 ones: everything up to logical time zero. -/
def sampleValue : Slice := ⟨List.replicate 64 false ++ List.replicate 256 true, []⟩

/-- The entry for a shard at seqno zero. -/
def sampleEntry (shard : ShardId) : BitVec 96 × Slice := (shard ++ (0 : BitVec 32), sampleValue)

def sampleCollection (owner : ShardIdFull) (shard : ShardId) : MsgProcessedUptoCollection :=
  ⟨owner, [⟨shard, 0, 0, BitVec.allOnes 256⟩]⟩

/-- Two halves, each with a record for itself. -/
theorem nothing_invented_halves :
    NothingInvented (fun _ _ => 0) (sampleCollection ⟨0, 0xC000000000000000⟩ 0xC000000000000000)
      (sampleCollection ⟨0, 0x4000000000000000⟩ 0x4000000000000000) :=
  (nothing_invented_iff (fun _ _ _ _ => BitVec.le_refl _) (by decide : (0xC000000000000000 : ShardId) ≠ 0)
    (by decide : (0x4000000000000000 : ShardId) ≠ 0)
    (by decide +kernel : unpack ⟨0, 0xC000000000000000⟩ [sampleEntry 0xC000000000000000] = _)
    (by decide +kernel : unpack ⟨0, 0x4000000000000000⟩ [sampleEntry 0x4000000000000000] =
      _)).mpr (by decide +kernel)

/-- The right half with a record about the whole workchain, merged with an empty left half: a message to the left
half counts as processed, though neither said so. -/
theorem larger_record_invents :
    ∃ v w u, unpack ⟨0, 0xC000000000000000⟩ [sampleEntry 0x8000000000000000] = some v ∧
      unpack ⟨0, 0x4000000000000000⟩ [] = some w ∧
      v.combineWith w = some u ∧
      v.alreadyProcessed (fun _ _ => 0) ⟨⟨0, 0⟩, ⟨0, 0⟩, 0, 0, 0⟩ = false ∧
      w.alreadyProcessed (fun _ _ => 0) ⟨⟨0, 0⟩, ⟨0, 0⟩, 0, 0, 0⟩ = false ∧
      u.alreadyProcessed (fun _ _ => 0) ⟨⟨0, 0⟩, ⟨0, 0⟩, 0, 0, 0⟩ = true :=
  ⟨sampleCollection ⟨0, 0xC000000000000000⟩ 0x8000000000000000, ⟨⟨0, 0x4000000000000000⟩, []⟩,
    sampleCollection ⟨0, 0x8000000000000000⟩ 0x8000000000000000, by decide +kernel, by decide +kernel,
    by decide +kernel, by decide +kernel, by decide +kernel, by decide +kernel⟩

end Records

end TonStaking.Guarantees.ProcessedUpto
