import Mathlib.Data.Finset.Card
import Mathlib.Data.Fintype.Basic
import Mathlib.Data.Nat.Bitwise
import TonStaking.Source.Multisig.Wallet

/-!
# The multisig wallet: what a message does

The bits of a record are the set of owners whose signatures have been counted.
An external message that is accepted adds owners to the record of one query,
performs the query if there are enough, and drops records that have expired.
-/
namespace TonStaking.Source.Multisig
open Tvm

/-- The owners whose bits are set. -/
def signers (cntBits : Nat) : Finset (Uint 8) := Finset.univ.filter fun i => cntBits.testBit i.val = true

theorem mem_signers {cntBits : Nat} {i : Uint 8} : i ∈ signers cntBits ↔ cntBits.testBit i.val = true := by
  simp [signers]

@[simp] theorem signers_zero : signers 0 = ∅ := by
  ext i
  simp [mem_signers]

theorem testBit_mask (i : Uint 8) (j : Nat) : (mask i).testBit j = decide (i.val = j) := by
  unfold mask
  rw [Nat.one_shiftLeft, Nat.testBit_two_pow]

@[simp] theorem signers_or_mask (cntBits : Nat) (i : Uint 8) : signers (cntBits ||| mask i) = insert i (signers cntBits) := by
  ext j
  rw [Finset.mem_insert, mem_signers, mem_signers, Nat.testBit_or, testBit_mask]
  simp only [Bool.or_eq_true, decide_eq_true_eq]
  rw [or_comm, Fin.ext_iff, eq_comm]

theorem or_mask_eq_self {cntBits : Nat} {i : Uint 8} : cntBits ||| mask i = cntBits ↔ i ∈ signers cntBits := by
  constructor
  · intro same
    rw [← same, signers_or_mask]
    exact Finset.mem_insert_self _ _
  · intro member
    apply Nat.eq_of_testBit_eq
    intro j
    rw [Nat.testBit_or, testBit_mask]
    by_cases here : i.val = j
    · rw [← here, mem_signers.mp member]
      rfl
    · simp [here]

theorem and_mask_eq_zero {cntBits : Nat} {i : Uint 8} : cntBits &&& mask i = 0 ↔ i ∉ signers cntBits := by
  constructor
  · intro none member
    have bit : (cntBits &&& mask i).testBit i.val = true := by
      rw [Nat.testBit_and, testBit_mask, mem_signers.mp member]
      simp
    rw [none, Nat.zero_testBit] at bit
    cases bit
  · intro absent
    apply Nat.eq_of_testBit_eq
    intro j
    rw [Nat.testBit_and, testBit_mask, Nat.zero_testBit]
    by_cases here : i.val = j
    · rw [← here, Bool.eq_false_iff.mpr (fun set => absent (mem_signers.mpr set))]
      rfl
    · simp [here]

section Owners

variable {ownerInfos : Dict 8 OwnerInfo} {i : Uint 8} {owner : OwnerInfo}

def keyOf (ownerInfos : Dict 8 OwnerInfo) (i : Uint 8) : Option (Uint 256) :=
  (ownerInfos.get? i).map OwnerInfo.publicKey

/-- The flood counter of an owner; 0 for an index that no owner has. -/
def floodOf (ownerInfos : Dict 8 OwnerInfo) (i : Uint 8) : Int :=
  ((ownerInfos.get? i).map fun owner => (owner.flood : Int)).getD 0

section

variable (found : ownerInfos.get? i = some owner)
include found

theorem keyOf_of_get? : keyOf ownerInfos i = some owner.publicKey := by
  simp [keyOf, found]

theorem floodOf_of_get? : floodOf ownerInfos i = owner.flood := by
  simp [floodOf, found]

/-- Writing an owner with the same key changes no keys. -/
theorem keyOf_set {info : OwnerInfo} (same : info.publicKey = owner.publicKey)
    (j : Uint 8) :
    keyOf (ownerInfos.set i i.isLt info) j = keyOf ownerInfos j := by
  unfold keyOf
  rw [Dict.get?_set]
  split
  · next here => rw [here, found, Option.map_some, Option.map_some, same]
  · rfl

end

theorem floodOf_set (ownerInfos : Dict 8 OwnerInfo) (i j : Uint 8) (info : OwnerInfo) :
    floodOf (ownerInfos.set i i.isLt info) j = if j = i then (info.flood : Int) else floodOf ownerInfos j := by
  unfold floodOf
  rw [Dict.get?_set]
  by_cases here : j = i
  · rw [if_pos here, if_pos (congrArg Fin.val here)]
    rfl
  · rw [if_neg here, if_neg (fun same => here (Fin.ext same))]

theorem floodOf_nonneg (ownerInfos : Dict 8 OwnerInfo) (i : Uint 8) : 0 ≤ floodOf ownerInfos i := by
  unfold floodOf
  cases ownerInfos.get? i with
  | none => exact le_rfl
  | some owner => exact Int.natCast_nonneg _

end Owners

section Lists

variable (crypto : Crypto)

/-- One cell of a list of signatures: a signature, its owner, and whether another cell follows. -/
def readSignature (c : Slice) : Outcome (List Bool × Uint 8 × Bool) := do
  let (signature, cs) ← loadBits 512 c
  let (i, cs) ← loadUint 8 cs
  let (next, _) ← loadDict cs
  .ok (signature, i, next.isSome)

/-- The signatures of a list, as far as it can be read. -/
def attached : Cell → List (List Bool × Uint 8)
  | .mk bits [] =>
    match readSignature ⟨bits, []⟩ with
    | .error _ => []
    | .ok (signature, i, _) => [(signature, i)]
  | .mk bits (next :: refs) =>
    match readSignature ⟨bits, next :: refs⟩ with
    | .error _ => []
    | .ok (signature, i, more) => (signature, i) :: if more then attached next else []

def readable : Cell → Bool
  | .mk bits [] => (readSignature ⟨bits, []⟩).isOk
  | .mk bits (next :: refs) =>
    match readSignature ⟨bits, next :: refs⟩ with
    | .error _ => false
    | .ok (_, _, more) => if more then readable next else true

/-- The signature is one of a registered owner. -/
def Valid (publicKeys : Dict 8 OwnerInfo) (hash : Uint 256) (signature : List Bool) (i : Uint 8) : Prop :=
  ∃ key, keyOf publicKeys i = some key ∧ crypto.checkSignature hash signature key = true

instance (publicKeys : Dict 8 OwnerInfo) (hash : Uint 256) (signature : List Bool) (i : Uint 8) :
    Decidable (Valid crypto publicKeys hash signature i) :=
  decidable_of_iff ((keyOf publicKeys i).any (crypto.checkSignature hash signature) = true) (by
    simp [Valid, Option.any_eq_true])

/-- A signature is counted once for its owner. -/
def countOne (acc : Nat × Nat) (e : List Bool × Uint 8) : Nat × Nat :=
  (if acc.2 ||| mask e.2 ≠ acc.2 then acc.1 + 1 else acc.1, acc.2 ||| mask e.2)

variable {crypto} {publicKeys : Dict 8 OwnerInfo} {hash : Uint 256}

theorem countSignature_iff {cs : Slice} {cnt cntBits newCnt newBits : Nat} {more : Bool} :
    countSignature crypto publicKeys hash cs cnt cntBits = .ok (newCnt, newBits, more) ↔
      ∃ signature i, readSignature cs = .ok (signature, i, more) ∧ Valid crypto publicKeys hash signature i ∧
        (newCnt, newBits) = countOne (cnt, cntBits) (signature, i) := by
  unfold countSignature readSignature
  cases loadBits 512 cs with
  | error e => simp
  | ok first =>
    obtain ⟨signature, cs⟩ := first
    simp only [ok_bind]
    cases loadUint 8 cs with
    | error e => simp
    | ok second =>
      obtain ⟨i, cs⟩ := second
      simp only [ok_bind]
      cases loadDict cs with
      | error e => simp
      | ok third =>
        simp only [ok_bind]
        constructor
        · intro h
          obtain ⟨owner, found, h⟩ := of_bind h
          obtain ⟨_, valid, h⟩ := of_bind h
          simp only [Except.ok.injEq, Prod.mk.injEq] at h
          obtain ⟨cnt, bits, rfl⟩ := h
          exact ⟨signature, i, rfl, ⟨owner.publicKey, keyOf_of_get? (orThrow_success.mp found),
            throwUnless_success.mp valid⟩, Prod.ext cnt.symm bits.symm⟩
        · rintro ⟨_, _, same, ⟨key, known, valid⟩, counted⟩
          cases same
          cases counted
          obtain ⟨owner, found, rfl⟩ := Option.map_eq_some_iff.mp known
          simp [found, orThrow, throwUnless, if_pos valid]

/-- The check succeeds if the list can be read and all its signatures are valid. -/
theorem checkSignatures_iff : ∀ (c : Cell) (cnt cntBits : Nat) (counted : Nat × Nat),
    checkSignatures crypto publicKeys hash c cnt cntBits = .ok counted ↔
      readable c = true ∧ (∀ e ∈ attached c, Valid crypto publicKeys hash e.1 e.2) ∧
        counted = (attached c).foldl countOne (cnt, cntBits)
  | .mk bits [], cnt, cntBits, counted => by
    unfold checkSignatures readable attached
    rw [bind_success]
    constructor
    · rintro ⟨⟨first, second, more⟩, h, same⟩
      cases same
      obtain ⟨signature, i, read, valid, counted⟩ := countSignature_iff.mp h
      simp only [read, List.mem_singleton, forall_eq]
      exact ⟨rfl, valid, counted⟩
    · rintro ⟨read, valid, total⟩
      cases entry : readSignature ⟨bits, []⟩ with
      | error e =>
        rw [entry] at read
        cases read
      | ok first =>
        obtain ⟨signature, i, more⟩ := first
        simp only [entry, List.mem_singleton, forall_eq] at valid total
        exact ⟨(counted.1, counted.2, more), countSignature_iff.mpr ⟨signature, i, entry, valid, total⟩, rfl⟩
  | .mk bits (next :: refs), cnt, cntBits, counted => by
    unfold checkSignatures readable attached
    rw [bind_success]
    constructor
    · rintro ⟨⟨first, second, more⟩, h, rest⟩
      obtain ⟨signature, i, read, valid, counted⟩ := countSignature_iff.mp h
      simp only [read, List.foldl_cons, ← counted]
      cases more with
      | false =>
        cases rest
        simpa using valid
      | true =>
        obtain ⟨readable, others, rest⟩ := (checkSignatures_iff next first second _).mp rest
        refine ⟨readable, ?_, rest⟩
        intro e member
        rcases List.mem_cons.mp member with rfl | later
        · exact valid
        · exact others e later
    · rintro ⟨read, valid, counted⟩
      cases entry : readSignature ⟨bits, next :: refs⟩ with
      | error e =>
        rw [entry] at read
        cases read
      | ok first =>
        obtain ⟨signature, i, more⟩ := first
        simp only [entry] at read valid counted
        have here := valid (signature, i) List.mem_cons_self
        refine ⟨_, countSignature_iff.mpr ⟨signature, i, entry, here, rfl⟩, ?_⟩
        cases more with
        | false => exact congrArg Except.ok counted.symm
        | true =>
          exact (checkSignatures_iff next _ _ _).mpr ⟨read, fun e member => valid e (List.mem_cons_of_mem _ member), counted⟩

theorem countAll_signers (l : List (List Bool × Uint 8)) (acc : Nat × Nat) :
    signers (l.foldl countOne acc).2 = signers acc.2 ∪ (l.map Prod.snd).toFinset ∧
      (l.foldl countOne acc).1 + (signers acc.2).card = acc.1 + (signers (l.foldl countOne acc).2).card := by
  induction l generalizing acc with
  | nil => simp
  | cons e rest ih =>
    obtain ⟨owners, count⟩ := ih (countOne acc e)
    have one : signers (countOne acc e).2 = insert e.2 (signers acc.2) := signers_or_mask acc.2 e.2
    rw [List.foldl_cons]
    constructor
    · rw [owners, one, List.map_cons, List.toFinset_cons, Finset.insert_union, Finset.union_insert]
    · by_cases known : e.2 ∈ signers acc.2
      · have same : (countOne acc e).1 = acc.1 := if_neg (not_not.mpr (or_mask_eq_self.mpr known))
        rw [one, Finset.insert_eq_of_mem known, same] at count
        exact count
      · have more : (countOne acc e).1 = acc.1 + 1 := if_pos fun same => known (or_mask_eq_self.mp same)
        rw [one, Finset.card_insert_of_notMem known, more] at count
        omega

end Lists

section Envelopes

/-- An external message as far as its parts can be read. -/
structure Envelope where
  rootSignature : List Bool
  -- what the root signature signs
  signed : Slice
  rootI : Uint 8
  signatures : Option Cell
  -- what the other signatures sign
  content : Slice
  walletId : Uint 32
  queryId : Uint 64
  msg : Slice

def readEnvelope (inMsg : Slice) : Outcome Envelope := do
  let (rootSignature, signed) ← loadBits 512 inMsg
  let (rootI, cs) ← loadUint 8 signed
  let (signatures, content) ← loadDict cs
  let (walletId, cs) ← loadUint 32 content
  let (queryId, msg) ← loadUint 64 cs
  .ok { rootSignature, signed, rootI, signatures, content, walletId, queryId, msg }

/-- The size of a query is within the limits. -/
def Small (msg : Slice) : Prop :=
  (calcBocSize 0 0 (.mk msg.bits msg.refs)).1 ≤ 8 ∧ (calcBocSize 0 0 (.mk msg.bits msg.refs)).2 ≤ 2048

/-- The message brings a query of this wallet with a valid root signature of an owner. -/
structure Rooted (crypto : Crypto) (s : State) (e : Envelope) (owner : OwnerInfo) : Prop where
  found : s.ownerInfos.get? e.rootI = some owner
  valid : crypto.checkSignature (crypto.sliceHash e.signed) e.rootSignature owner.publicKey = true
  wallet : e.walletId = s.walletId
  small : Small e.msg

def Envelope.order (crypto : Crypto) (e : Envelope) (owner : OwnerInfo) : Order where
  rootI := e.rootI
  owner := owner
  signatures := e.signatures
  hash := crypto.sliceHash e.content
  queryId := e.queryId
  msg := e.msg

variable {crypto : Crypto} {s : State} {inMsg : Slice} {e : Envelope}

theorem loadOrder_success {o : Order} (h : loadOrder crypto s inMsg = .ok o) :
    ∃ e owner, readEnvelope inMsg = .ok e ∧ Rooted crypto s e owner ∧ o = e.order crypto owner := by
  obtain ⟨⟨rootSignature, signed⟩, one, h⟩ := of_bind h
  obtain ⟨⟨rootI, rest⟩, two, h⟩ := of_bind h
  obtain ⟨owner, found, h⟩ := of_bind h
  obtain ⟨_, valid, h⟩ := of_bind h
  obtain ⟨⟨signatures, content⟩, three, h⟩ := of_bind h
  obtain ⟨⟨walletId, after⟩, four, h⟩ := of_bind h
  obtain ⟨_, wallet, h⟩ := of_bind h
  obtain ⟨⟨queryId, msg⟩, five, h⟩ := of_bind h
  obtain ⟨_, small, h⟩ := of_bind h
  cases h
  refine ⟨⟨rootSignature, signed, rootI, signatures, content, walletId, queryId, msg⟩, owner, ?_, ?_, rfl⟩
  · simp [readEnvelope, one, two, three, four, five]
  · refine ⟨orNull_success.mp found, throwUnless_success.mp valid, throwUnless_success.mp wallet, ?_⟩
    simpa [Small] using throwIf_success.mp small

theorem loadOrder_of_rooted {owner : OwnerInfo} (read : readEnvelope inMsg = .ok e)
    (rooted : Rooted crypto s e owner) : loadOrder crypto s inMsg = .ok (e.order crypto owner) := by
  obtain ⟨⟨rootSignature, signed⟩, one, read⟩ := of_bind read
  obtain ⟨⟨rootI, rest⟩, two, read⟩ := of_bind read
  obtain ⟨⟨signatures, content⟩, three, read⟩ := of_bind read
  obtain ⟨⟨walletId, after⟩, four, read⟩ := of_bind read
  obtain ⟨⟨queryId, msg⟩, five, read⟩ := of_bind read
  cases read
  obtain ⟨found, valid, wallet, small⟩ := rooted
  have room : ¬ ((calcBocSize 0 0 (.mk msg.bits msg.refs)).1 > 8 ∨ (calcBocSize 0 0 (.mk msg.bits msg.refs)).2 > 2048) :=
    not_or.mpr ⟨not_lt.mpr small.1, not_lt.mpr small.2⟩
  simp only [loadOrder, one, two, three, four, five, found, orNull, ok_bind, throwUnless, throwIf, if_pos valid,
    if_pos wallet, if_neg room]
  rfl

/-- The content of a query, as all signatures cover it. -/
def contentOf (walletId : Uint 32) (queryId : Uint 64) (msg : Slice) : Slice :=
  ⟨Uint.bits walletId ++ (Uint.bits queryId ++ msg.bits), msg.refs⟩

theorem readEnvelope_content (read : readEnvelope inMsg = .ok e) :
    e.content = contentOf e.walletId e.queryId e.msg ∧
      ∃ rest, loadUint 8 e.signed = .ok (e.rootI, rest) ∧ loadDict rest = .ok (e.signatures, e.content) := by
  obtain ⟨⟨rootSignature, signed⟩, one, read⟩ := of_bind read
  obtain ⟨⟨rootI, rest⟩, two, read⟩ := of_bind read
  obtain ⟨⟨signatures, content⟩, three, read⟩ := of_bind read
  obtain ⟨⟨walletId, after⟩, four, read⟩ := of_bind read
  obtain ⟨⟨queryId, msg⟩, five, read⟩ := of_bind read
  cases read
  refine ⟨?_, rest, two, three⟩
  rw [loadUint_eq four, loadUint_eq five]
  rfl

variable {now : Uint 32}

/-- The record that a message finds or opens: its creator, its signers so far, and its messages. -/
inductive Opens (crypto : Crypto) (s : State) (e : Envelope) (owner : OwnerInfo) : Opened → Prop
  | fresh (unused : s.pendingQueries.get? e.queryId = none) (room : owner.flood.val < 10) :
      Opens crypto s e owner
        { isNew := true, flood := owner.flood + 1, creatorI := e.rootI, cnt := 1, cntBits := mask e.rootI, msg := e.msg }
  | known {creatorI cnt : Uint 8} {cntBits : Nat} {msg : Slice}
      (record : s.pendingQueries.get? e.queryId = some (.waiting creatorI cnt cntBits msg))
      (same : crypto.sliceHash msg = crypto.sliceHash e.msg) (unsigned : e.rootI ∉ signers cntBits) :
      Opens crypto s e owner
        { isNew := false, flood := owner.flood, creatorI, cnt := cnt + 1, cntBits := cntBits ||| mask e.rootI, msg }

theorem openQuery_iff {owner : OwnerInfo} {q : Opened} :
    openQuery crypto now s (e.order crypto owner) = .ok q ↔
      bound now ≤ (e.queryId : Int) ∧ Opens crypto s e owner q := by
  constructor
  · intro h
    dsimp only [Envelope.order] at h
    obtain ⟨_, room, h⟩ := of_bind h
    obtain ⟨_, inTime, h⟩ := of_bind h
    obtain ⟨⟨creatorI, cnt, cntBits, msg⟩, unpacked, h⟩ := of_bind h
    obtain ⟨_, unsigned, h⟩ := of_bind h
    have room := throwIf_success.mp room
    have unsigned := throwIf_success.mp unsigned
    refine ⟨not_lt.mp (throwIf_success.mp inTime), ?_⟩
    cases record : s.pendingQueries.get? e.queryId with
    | none =>
      rw [record] at unpacked room h
      cases unpacked
      cases h
      simp only [Option.isNone_none, if_true, true_and] at room
      have start : 0 ||| mask e.rootI = mask e.rootI := Nat.zero_or _
      rw [start]
      exact .fresh record (by omega)
    | some query =>
      rw [record] at unpacked h
      cases query with
      | completed => cases unpacked
      | waiting creator count bits stored =>
        obtain ⟨_, same, unpacked⟩ := of_bind unpacked
        cases unpacked
        cases h
        exact .known record (throwUnless_success.mp same) (and_mask_eq_zero.mp (not_not.mp unsigned))
  · rintro ⟨inTime, opens⟩
    unfold openQuery
    dsimp only [Envelope.order]
    cases opens with
    | fresh unused room =>
      have few : ¬ ((owner.flood : Int) + 1 > 10) := by omega
      simp [unused, unpackQueryData, throwIf, few, not_lt.mpr inTime]
    | known record same unsigned =>
      simp [record, unpackQueryData, throwIf, throwUnless, same, not_lt.mpr inTime, and_mask_eq_zero.mpr unsigned]

end Envelopes

section Updates

/-- What an update does: the query is performed, or its record is written. -/
inductive Updated (pendingQueries : Dict 64 Query) (ownerInfos : Dict 8 OwnerInfo) (msg : Slice) (queryId : Uint 64)
    (creatorI : Uint 8) (cnt cntBits : Nat) (n k : Uint 8) : Update → Prop
  | performed {messages : List RawMessage} {owner info : OwnerInfo} (enough : k.val ≤ cnt)
      (loaded : loadMessages msg.bits msg.refs = .ok messages) (found : ownerInfos.get? creatorI = some owner)
      (key : info.publicKey = owner.publicKey) (flood : (info.flood : Int) = owner.flood - 1) :
      Updated pendingQueries ownerInfos msg queryId creatorI cnt cntBits n k
        { pendingQueries := pendingQueries.set queryId queryId.isLt .completed
          ownerInfos := ownerInfos.set creatorI creatorI.isLt info, sent := [{ queryId, msg, messages }] }
  | noted {count : Uint 8} (few : cnt < k.val) (same : count.val = cnt) (fits : cntBits < 2 ^ n.val) :
      Updated pendingQueries ownerInfos msg queryId creatorI cnt cntBits n k
        { pendingQueries := pendingQueries.set queryId queryId.isLt (.waiting creatorI count cntBits msg)
          ownerInfos, sent := [] }

variable {pendingQueries : Dict 64 Query} {ownerInfos : Dict 8 OwnerInfo} {msg : Slice} {queryId : Uint 64}
  {creatorI : Uint 8} {cnt cntBits : Nat} {n k : Uint 8}

theorem updatePendingQueries_success {u : Update}
    (h : updatePendingQueries pendingQueries ownerInfos msg queryId creatorI cnt cntBits n k = .ok u) :
    Updated pendingQueries ownerInfos msg queryId creatorI cnt cntBits n k u := by
  unfold updatePendingQueries at h
  split at h
  · next enough =>
    obtain ⟨messages, loaded, h⟩ := of_bind h
    obtain ⟨owner, found, h⟩ := of_bind h
    obtain ⟨info, packed, h⟩ := of_bind h
    obtain ⟨flood, stored, packed⟩ := of_bind packed
    cases packed
    cases h
    exact .performed enough loaded (orNull_success.mp found) rfl (storeUint_success stored)
  · next few =>
    obtain ⟨count, counted, h⟩ := of_bind h
    obtain ⟨bits, stored, h⟩ := of_bind h
    cases h
    have same := storeUint_success counted
    have value := storeUint_success stored
    have bits_eq : bits.val = cntBits := by exact_mod_cast value
    rw [bits_eq]
    exact .noted (not_le.mp few) (by exact_mod_cast same) (bits_eq ▸ bits.isLt)

/-- An update with enough signatures succeeds if the messages can be read and the creator has a query to
count down. -/
theorem updatePendingQueries_performed {messages : List RawMessage} {owner : OwnerInfo} (enough : k.val ≤ cnt)
    (loaded : loadMessages msg.bits msg.refs = .ok messages) (found : ownerInfos.get? creatorI = some owner)
    (counted : 0 < owner.flood.val) :
    ∃ u, updatePendingQueries pendingQueries ownerInfos msg queryId creatorI cnt cntBits n k = .ok u := by
  obtain ⟨flood, stored, -⟩ := storeUint_of_fits (n := 8) (x := (owner.flood : Int) - 1) (by omega) (by omega)
  unfold updatePendingQueries
  rw [if_pos enough]
  simp only [loaded, found, orNull, packOwnerInfo, stored, ok_bind]
  exact ⟨_, rfl⟩

theorem updatePendingQueries_noted (few : cnt < k.val) (fits : cntBits < 2 ^ n.val) :
    ∃ u, updatePendingQueries pendingQueries ownerInfos msg queryId creatorI cnt cntBits n k = .ok u := by
  obtain ⟨count, counted, -⟩ := storeUint_of_fits (n := 8) (x := (cnt : Int)) (by omega) (by omega)
  obtain ⟨bits, stored, -⟩ := storeUint_of_fits (n := n.val) (x := (cntBits : Int)) (by omega) (by exact_mod_cast fits)
  unfold updatePendingQueries
  rw [if_neg (not_le.mpr few)]
  simp only [counted, stored]
  exact ⟨_, rfl⟩

end Updates

section Messages

variable (crypto : Crypto) (s : State)

/-- The signatures of a message that are counted: the one of the root owner, or all of them. -/
inductive Counts (e : Envelope) (q : Opened) : Nat → Nat → Prop
  | root : Counts e q q.cnt q.cntBits
  | all {list : Cell} {counted : Nat × Nat} (signatures : e.signatures = some list) (few : q.cnt < s.k.val)
      (read : readable list = true)
      (valid : ∀ x ∈ attached list, Valid crypto s.ownerInfos (crypto.sliceHash e.content) x.1 x.2)
      (total : counted = (attached list).foldl countOne (0, q.cntBits)) : Counts e q (q.cnt + counted.1) counted.2

/-- The effect of a message on its record and on the owners, when these signatures have been counted. -/
structure Ended (e : Envelope) (q : Opened) (cnt cntBits : Nat) (u : Update) (sent : List Sending) : Prop where
  keys : ∀ i, keyOf u.ownerInfos i = keyOf s.ownerInfos i
  floods : ∀ i, floodOf u.ownerInfos i = floodOf s.ownerInfos i + (if q.isNew = true ∧ i = e.rootI then 1 else 0) -
    (if s.k.val ≤ cnt ∧ i = q.creatorI then 1 else 0)
  record : s.k.val ≤ cnt ∧ u.pendingQueries = s.pendingQueries.set e.queryId e.queryId.isLt .completed ∧
      (∃ messages, loadMessages q.msg.bits q.msg.refs = .ok messages ∧ sent = [{ queryId := e.queryId, msg := q.msg, messages }]) ∨
    cnt < s.k.val ∧ sent = [] ∧ ∃ count : Uint 8, count.val = cnt ∧
      u.pendingQueries = s.pendingQueries.set e.queryId e.queryId.isLt (.waiting q.creatorI count cntBits q.msg)

variable {crypto s} {e : Envelope} {owner : OwnerInfo} {q : Opened} {now : Uint 32} {ownerInfos : Dict 8 OwnerInfo}

theorem Opens.creator (opens : Opens crypto s e owner q) (fresh : q.isNew = true) : q.creatorI = e.rootI := by
  cases opens with
  | fresh => rfl
  | known => cases fresh

/-- An update of the record of the message, from owners that have counted a new query. -/
theorem Updated.ended {pendingQueries : Dict 64 Query} {cnt cntBits : Nat} {u : Update}
    (updated : Updated pendingQueries ownerInfos q.msg e.queryId q.creatorI cnt cntBits s.n s.k u)
    (keys : ∀ i, keyOf ownerInfos i = keyOf s.ownerInfos i)
    (floods : ∀ i, floodOf ownerInfos i = floodOf s.ownerInfos i + if q.isNew = true ∧ i = e.rootI then 1 else 0)
    (records : ∀ query, pendingQueries.set e.queryId e.queryId.isLt query =
      s.pendingQueries.set e.queryId e.queryId.isLt query) : Ended s e q cnt cntBits u u.sent := by
  cases updated with
  | performed enough loaded found key flood =>
    refine ⟨fun i => ?_, fun i => ?_, .inl ⟨enough, records _, _, loaded, rfl⟩⟩
    · rw [keyOf_set found key, keys]
    · rw [floodOf_set, ← floods]
      by_cases creator : i = q.creatorI
      · rw [if_pos creator, if_pos ⟨enough, creator⟩, creator, floodOf_of_get? found, flood]
      · rw [if_neg creator, if_neg fun both => creator both.2, sub_zero]
  | noted few same fits =>
    refine ⟨keys, fun i => ?_, .inr ⟨few, rfl, _, same, records _⟩⟩
    have kept : ¬ (s.k.val ≤ cnt ∧ i = q.creatorI) := fun both => absurd both.1 (not_le.mpr few)
    rw [floods, if_neg kept, sub_zero]

theorem countQuery_success (opens : Opens crypto s e owner q)
    (rooted : Rooted crypto s e owner) (h : countQuery s (e.order crypto owner) q = .ok ownerInfos) :
    (∀ i, keyOf ownerInfos i = keyOf s.ownerInfos i) ∧
      ∀ i, floodOf ownerInfos i = floodOf s.ownerInfos i + if q.isNew = true ∧ i = e.rootI then 1 else 0 := by
  unfold countQuery at h
  split at h
  · next fresh =>
    obtain ⟨info, packed, h⟩ := of_bind h
    obtain ⟨flood, stored, packed⟩ := of_bind packed
    cases packed
    cases h
    refine ⟨keyOf_set rooted.found rfl, fun i => ?_⟩
    have value := storeUint_success stored
    change floodOf (s.ownerInfos.set e.rootI e.rootI.isLt _) i = _
    rw [floodOf_set]
    by_cases root : i = e.rootI
    · rw [if_pos root, if_pos ⟨fresh, root⟩, root, floodOf_of_get? rooted.found]
      cases opens with
      | fresh => exact value
      | known => cases fresh
    · rw [if_neg root, if_neg fun both => root both.2, add_zero]
  · next old =>
    cases h
    exact ⟨fun _ => rfl, fun i => by rw [if_neg fun both => old both.1, add_zero]⟩

/-- The first signature leaves a query open: a new query has to be valid for another hour, and the owners
are among the first `n`. -/
structure Noted (s : State) (now : Uint 32) (e : Envelope) (q : Opened) : Prop where
  hour : q.isNew = true → bound now + (60 * 60) * 2 ^ 32 ≤ (e.queryId : Int)
  fits : q.cntBits < 2 ^ s.n.val

theorem firstUpdate_success {u : Update} (opens : Opens crypto s e owner q) (rooted : Rooted crypto s e owner)
    (h : firstUpdate now s (e.order crypto owner) q = .ok u) :
    Ended s e q q.cnt q.cntBits u u.sent ∧ (q.cnt < s.k.val → Noted s now e q) := by
  obtain ⟨ownerInfos, counted, h⟩ := of_bind h
  obtain ⟨_, hour, h⟩ := of_bind h
  obtain ⟨keys, floods⟩ := countQuery_success opens rooted counted
  have updated := updatePendingQueries_success h
  refine ⟨updated.ended keys floods fun _ => rfl, fun few => ?_⟩
  have hour := throwIf_success.mp hour
  cases updated with
  | performed enough => exact absurd enough (not_le.mpr few)
  | noted _ _ fits => exact ⟨fun fresh => not_lt.mp fun soon => hour ⟨fresh, few, soon⟩, fits⟩

/-- The second update goes on from a first one that has not performed the query. -/
theorem secondUpdate_success {first late : Update} (ended : Ended s e q q.cnt q.cntBits first first.sent)
    (h : secondUpdate crypto s (e.order crypto owner) q first = .ok late) :
    ∃ cnt cntBits, Counts crypto s e q cnt cntBits ∧ Ended s e q cnt cntBits late (first.sent ++ late.sent) := by
  have unchanged : Ended s e q q.cnt q.cntBits { first with sent := [] } (first.sent ++ []) := by
    rw [List.append_nil]
    exact ⟨ended.keys, ended.floods, ended.record⟩
  unfold secondUpdate at h
  split at h
  · cases h
    exact ⟨q.cnt, q.cntBits, .root, unchanged⟩
  rename_i list signatures
  split at h
  · cases h
    exact ⟨q.cnt, q.cntBits, .root, unchanged⟩
  rename_i few
  obtain ⟨⟨newCnt, cntBits⟩, checked, h⟩ := of_bind h
  obtain ⟨read, valid, total⟩ := (checkSignatures_iff list 0 q.cntBits (newCnt, cntBits)).mp checked
  -- the first update has written the record and kept the creator's counter
  rcases ended.record with ⟨enough, -⟩ | ⟨-, none, count, -, written⟩
  · exact absurd enough few
  have floods (i : Uint 8) : floodOf first.ownerInfos i =
      floodOf s.ownerInfos i + if q.isNew = true ∧ i = e.rootI then 1 else 0 := by
    have kept : ¬ (s.k.val ≤ q.cnt ∧ i = q.creatorI) := fun both => few both.1
    rw [ended.floods, if_neg kept, sub_zero]
  refine ⟨q.cnt + newCnt, cntBits, .all signatures (not_le.mp few) read ?_ total, ?_⟩
  · intro x member
    obtain ⟨key, known, holds⟩ := valid x member
    exact ⟨key, (ended.keys x.2).symm.trans known, holds⟩
  · rw [none, List.nil_append]
    refine (updatePendingQueries_success h).ended ended.keys floods fun query => ?_
    rw [written, Dict.set_set]

variable (crypto s) in
/-- The message is handled to its end, where the clean-up is: it has the gas, none of its checks fails, and its
actions succeed. -/
structure CleansUp (i : Input) : Prop where
  gas : i.gas = .enough
  acts : i.acts = true
  updates : ∃ o q u late, loadOrder crypto s i.body = .ok o ∧ openQuery crypto i.now s o = .ok q ∧
    firstUpdate i.now s o q = .ok u ∧ secondUpdate crypto s o q u = .ok late

variable (crypto s) in
/-- What a message does that does not fail. -/
inductive Effect (i : Input) : State → List Sending → Prop
  /-- The actions fail. -/
  | idle : Effect i s []
  | init (fresh : s.lastCleaned = 0) : Effect i { s with lastCleaned := 1 } []
  /-- Signatures have been counted; if the message is handled to its end, expired records are dropped. -/
  | counted {e : Envelope} {owner : OwnerInfo} {q : Opened} {cnt cntBits : Nat} {u : Update} {sent : List Sending}
      {lastCleaned : Uint 64} {limit : Int} (started : i.gas ≠ .beforeCommit) (acts : i.acts = true)
      (read : readEnvelope i.body = .ok e) (rooted : Rooted crypto s e owner) (inTime : bound i.now ≤ (e.queryId : Int))
      (opens : Opens crypto s e owner q) (noted : q.cnt < s.k.val → Noted s i.now e q)
      (counts : Counts crypto s e q cnt cntBits) (ended : Ended s e q cnt cntBits u sent)
      (expired : limit = 0 ∧ cnt = q.cnt ∨ limit = bound i.now - 64 * 2 ^ 32 ∧ CleansUp crypto s i) :
      Effect i { s with lastCleaned, ownerInfos := u.ownerInfos
                        pendingQueries := u.pendingQueries.filterKeys fun k => decide (limit ≤ (k : Int)) } sent

theorem receive_effect {i : Input} {after : State} {sent : List Sending}
    (h : receive crypto s i = .ok (after, sent)) : Effect crypto s i after sent := by
  obtain ⟨⟨done, out⟩, handled, h⟩ := of_bind h
  dsimp only at h
  split at h
  · next acts =>
    cases h
    unfold recvExternal at handled
    split at handled
    · cases handled
    rename_i started
    split at handled
    · obtain ⟨_, fresh, handled⟩ := of_bind handled
      cases handled
      exact .init (not_not.mp (throwIf_success.mp fresh))
    obtain ⟨o, loaded, handled⟩ := of_bind handled
    obtain ⟨q, opened, handled⟩ := of_bind handled
    obtain ⟨u, updated, handled⟩ := of_bind handled
    obtain ⟨e, owner, read, rooted, rfl⟩ := loadOrder_success loaded
    obtain ⟨inTime, opens⟩ := openQuery_iff.mp opened
    obtain ⟨ended, noted⟩ := firstUpdate_success opens rooted updated
    dsimp only at handled
    split at handled
    · next final late finished =>
      cases handled
      split at finished
      · next gas =>
        obtain ⟨second, later, finished⟩ := of_bind finished
        obtain ⟨lastCleaned, -, finished⟩ := of_bind finished
        cases finished
        obtain ⟨cnt, cntBits, counts, ended⟩ := secondUpdate_success ended later
        rw [cleanUp, Dict.dropBelow_fst _ _ _ _ le_rfl]
        have reaches : CleansUp crypto s i := ⟨gas, acts, _, q, u, second, loaded, opened, updated, later⟩
        exact .counted started acts read rooted inTime opens noted counts ended (.inr ⟨rfl, reaches⟩)
      · cases finished
    · -- the committed state keeps all records
      have all : u.pendingQueries = u.pendingQueries.filterKeys fun k => decide ((0 : Int) ≤ (k : Int)) := by
        apply Dict.ext_get?
        intro j
        rw [Dict.get?_filterKeys, if_pos (by simp)]
      cases handled
      unfold State.store
      rw [all]
      exact .counted started acts read rooted inTime opens noted .root ended (.inl ⟨rfl, rfl⟩)
  · cases h
    exact .idle

end Messages

def sampleKey (i : Uint 8) : Uint 256 := ⟨100 + i.val, by have := i.isLt; omega⟩

/-- Three owners, 0 to 2. -/
def sampleOwners : Dict 8 OwnerInfo :=
  ((Dict.empty.set 0 (by decide) ⟨sampleKey 0, 0⟩).set 1 (by decide) ⟨sampleKey 1, 0⟩).set 2 (by decide) ⟨sampleKey 2, 0⟩

/-- Two of the three owners have to sign. -/
def sampleWallet : State := createInitState 5 3 2 sampleOwners

/-- The list of the signatures of some owners for a query without messages. -/
def sampleSignatures (queryId : Uint 64) : List (Uint 8) → Option Cell
  | [] => none
  | i :: rest =>
    some (.mk (sampleSign (sampleKey i) (contentOf 5 queryId ⟨[], []⟩) ++ (Uint.bits i ++ [!rest.isEmpty]))
      (sampleSignatures queryId rest).toList)

/-- What the root owner signs. -/
def sampleSigned (root : Uint 8) (others : List (Uint 8)) (queryId : Uint 64) : Slice :=
  ⟨Uint.bits root ++ (!others.isEmpty) :: (contentOf 5 queryId ⟨[], []⟩).bits, (sampleSignatures queryId others).toList⟩

/-- A message of the root owner with the signatures of others. -/
def sampleMessage (now : Uint 32) (root : Uint 8) (others : List (Uint 8)) (queryId : Uint 64) : Input where
  now := now
  body := ⟨sampleSign (sampleKey root) (sampleSigned root others queryId) ++ (sampleSigned root others queryId).bits,
    (sampleSigned root others queryId).refs⟩
  gas := .enough
  acts := true

/-- The identifier of a query that expires at a time. -/
def sampleQuery (time : Uint 32) (number : Uint 32) : Uint 64 :=
  ⟨time.val * 2 ^ 32 + number.val, by have := time.isLt; have := number.isLt; omega⟩

/-- Two owners in one message. -/
example : ((run (receive sampleCrypto) sampleWallet [sampleMessage 1000 0 [1] (sampleQuery 5000 1)]).pendingQueries.get?
    (sampleQuery 5000 1)).isSome = true ∧
    ((commit (receive sampleCrypto) sampleWallet (sampleMessage 1000 0 [1] (sampleQuery 5000 1))).2.map Sending.queryId) =
      [sampleQuery 5000 1] := by decide +kernel

end TonStaking.Source.Multisig
