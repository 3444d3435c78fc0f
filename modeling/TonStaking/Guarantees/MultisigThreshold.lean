import TonStaking.Source.Multisig.Performing

/-!
# Threshold of the multisig wallet

A query is sent at most once, and only with the signatures of `k` owners. That
`k` owners have delivered valid signatures in time does not mean that it has
been sent: the wallet counts the signatures of a message only if its root owner
has not been counted before and every other signature of the list is valid.
-/
namespace TonStaking.Guarantees.MultisigThreshold
open Tvm Source Source.Multisig

section Definitions

variable (crypto : Crypto) (signed : Uint 256 → Slice → Prop) (start : State) (inputs : List Input)

/-- Everything that is sent along a run. -/
def sendings : List Sending :=
  track (receive crypto) (fun s sent i => sent ++ (commit (receive crypto) s i).2) start [] inputs

/-- Signatures cannot be forged: a valid one comes from the holder of the key. -/
def Unforgeable : Prop :=
  ∀ cs signature key, crypto.checkSignature (crypto.sliceHash cs) signature key = true → signed key cs

/-- The holder of a key signed a query: its content, or a message that brings it. -/
def SignedBy (key : Uint 256) (content : Slice) : Prop :=
  signed key content ∨
    ∃ cs i rest list, signed key cs ∧ loadUint 8 cs = .ok (i, rest) ∧ loadDict rest = .ok (list, content)

/-- These owners signed the query. -/
def Endorsed (s : State) (queryId : Uint 64) (msg : Slice) (owners : Finset (Uint 8)) : Prop :=
  ∀ j ∈ owners, ∃ key, keyOf s.ownerInfos j = some key ∧ SignedBy signed key (contentOf s.walletId queryId msg)

/-- The owners whose valid signatures a message has: the one over all of it, and those in the list. -/
def brought (publicKeys : Dict 8 OwnerInfo) (e : Envelope) : List (Uint 8) :=
  (if Valid crypto publicKeys (crypto.sliceHash e.signed) e.rootSignature e.rootI then [e.rootI] else []) ++
    (((e.signatures.map attached).getD []).filter fun x =>
      decide (Valid crypto publicKeys (crypto.sliceHash e.content) x.1 x.2)).map Prod.snd

/-- The message brings a valid signature of an owner before the query expires. -/
def Brings (queryId : Uint 64) (msg : Slice) (j : Uint 8) (i : Input) : Prop :=
  i.now.val < queryId.val >>> 32 ∧
    ∃ e, readEnvelope i.body = .ok e ∧ e.walletId = start.walletId ∧ e.queryId = queryId ∧ e.msg = msg ∧
      j ∈ brought crypto start.ownerInfos e

/-- Valid signatures of at least `k` owners, and at least one, have been delivered. -/
def Delivered (queryId : Uint 64) (msg : Slice) : Prop :=
  ∃ owners : Finset (Uint 8), owners.Nonempty ∧ start.k.val ≤ owners.card ∧
    ∀ j ∈ owners, ∃ i ∈ inputs, Brings crypto start queryId msg j i

/-- The query has been sent. -/
def Sent (queryId : Uint 64) (msg : Slice) : Prop :=
  ∃ x ∈ sendings crypto start inputs, x.queryId = queryId ∧ x.msg = msg

/-- A query is sent once and with `k` owners behind it. -/
structure Safe : Prop where
  once : ((sendings crypto start inputs).map Sending.queryId).Nodup
  endorsed : ∀ x ∈ sendings crypto start inputs, ∃ owners : Finset (Uint 8), start.k.val ≤ owners.card ∧
    Endorsed signed (run (receive crypto) start inputs) x.queryId x.msg owners

/-- A query is also sent as soon as `k` signatures are there. -/
structure Threshold : Prop extends Safe crypto signed start inputs where
  performed : ∀ queryId msg, Delivered crypto start inputs queryId msg → Sent crypto start inputs queryId msg

/-- The hash tells the query of a message from the one that its record holds. -/
def HashTells (s : State) (i : Input) : Prop := ∀ e, readEnvelope i.body = .ok e → Distinguishes crypto s e

/-- With this message the signatures of a query are complete that has not been sent. -/
def Completes (before : List Input) (i : Input) (e : Envelope) : Prop :=
  readEnvelope i.body = .ok e ∧ Delivered crypto start (before ++ [i]) e.queryId e.msg ∧
    ¬ Sent crypto start before e.queryId e.msg

end Definitions

section Safety

variable {crypto : Crypto} {signed : Uint 256 → Slice → Prop} {start s after : State} {seen : List Input}
  {sent new : List Sending} {i : Input} {e : Envelope} {owner : OwnerInfo} {q : Opened}

/-- The state after some messages, with what has been sent by then. -/
structure Sound (signed : Uint 256 → Slice → Prop) (start s : State) (seen : List Input) (sent : List Sending) : Prop where
  walletId : s.walletId = start.walletId
  k : s.k = start.k
  keys : ∀ j, keyOf s.ownerInfos j = keyOf start.ownerInfos j
  tallied : Tallied s
  records : ∀ (key : Uint 64) creatorI cnt cntBits msg,
    s.pendingQueries.get? key = some (.waiting creatorI cnt cntBits msg) → Endorsed signed start key msg (signers cntBits)
  performed : ∀ x ∈ sent, s.pendingQueries.get? x.queryId = some .completed ∨ ∃ i ∈ seen, (x.queryId : Int) < bound i.now
  once : (sent.map Sending.queryId).Nodup
  endorsed : ∀ x ∈ sent, ∃ owners : Finset (Uint 8), start.k.val ≤ owners.card ∧
    Endorsed signed start x.queryId x.msg owners

theorem Sound.idle (sound : Sound signed start s seen sent) (lastCleaned : Uint 64) :
    Sound signed start { s with lastCleaned } (seen ++ [i]) (sent ++ []) := by
  rw [List.append_nil]
  refine ⟨sound.walletId, sound.k, sound.keys, sound.tallied, sound.records, fun x member => ?_, sound.once, sound.endorsed⟩
  rcases sound.performed x member with completed | ⟨j, seen, expired⟩
  · exact .inl completed
  · exact .inr ⟨j, List.mem_append_left _ seen, expired⟩

theorem signedBy_root (unforgeable : Unforgeable crypto signed) (read : readEnvelope i.body = .ok e)
    (rooted : Rooted crypto s e owner) :
    SignedBy signed owner.publicKey (contentOf s.walletId e.queryId e.msg) := by
  obtain ⟨content, rest, root, list⟩ := readEnvelope_content read
  rw [rooted.wallet] at content
  exact .inr ⟨e.signed, e.rootI, rest, e.signatures, unforgeable _ _ _ rooted.valid, root, content ▸ list⟩

section

variable (sound : Sound signed start s seen sent)
include sound

theorem Sound.not_sent (ordered : ∀ j ∈ seen, j.now ≤ i.now)
    (inTime : bound i.now ≤ (e.queryId : Int)) (opens : Opens crypto s e owner q) :
    e.queryId ∉ sent.map Sending.queryId := by
  intro member
  obtain ⟨x, listed, same⟩ := List.mem_map.mp member
  rcases sound.performed x listed with completed | ⟨j, earlier, expired⟩
  · rw [same] at completed
    cases opens with
    | fresh unused => cases unused.symm.trans completed
    | known record => cases record.symm.trans completed
  · have order : j.now.val ≤ i.now.val := ordered j earlier
    rw [same] at expired
    unfold bound at expired inTime
    omega

/-- What has been sent stays completed, or has expired by now. -/
theorem Sound.stays {query : Query} {limit : Int} {x : Sending}
    (unsent : e.queryId ∉ sent.map Sending.queryId) (late : limit ≤ bound i.now) (member : x ∈ sent) :
    ((s.pendingQueries.set e.queryId e.queryId.isLt query).filterKeys fun k => decide (limit ≤ (k : Int))).get? x.queryId =
        some .completed ∨
      ∃ j ∈ seen ++ [i], (x.queryId : Int) < bound j.now := by
  rcases sound.performed x member with completed | ⟨j, earlier, gone⟩
  · by_cases kept : limit ≤ (x.queryId : Int)
    · have other : x.queryId.val ≠ e.queryId.val := fun equal =>
        unsent (List.mem_map.mpr ⟨x, member, Fin.ext equal⟩)
      rw [Dict.get?_filterKeys, if_pos (by simpa using kept), Dict.get?_set, if_neg other]
      exact .inl completed
    · exact .inr ⟨i, by simp, by omega⟩
  · exact .inr ⟨j, List.mem_append_left _ earlier, gone⟩

variable (unforgeable : Unforgeable crypto signed) (tells : HashTells crypto s i)
include unforgeable tells

/-- The owners of a record all signed the query, and the root owner does so with the message. -/
theorem Sound.opened
    (read : readEnvelope i.body = .ok e) (rooted : Rooted crypto s e owner)
    (opens : Opens crypto s e owner q) : Endorsed signed start e.queryId e.msg (signers q.cntBits) := by
  have root : ∃ key, keyOf start.ownerInfos e.rootI = some key ∧
      SignedBy signed key (contentOf start.walletId e.queryId e.msg) := by
    refine ⟨owner.publicKey, ?_, ?_⟩
    · rw [← sound.keys]
      exact keyOf_of_get? rooted.found
    · rw [← sound.walletId]
      exact signedBy_root unforgeable read rooted
  have same := opens.msg_eq (tells e read)
  cases opens with
  | fresh =>
    have one := signers_or_mask 0 e.rootI
    rw [Nat.zero_or, signers_zero] at one
    intro j member
    rw [one, Finset.mem_insert] at member
    rcases member with rfl | none
    · exact root
    · cases none
  | known record =>
    intro j member
    rw [signers_or_mask, Finset.mem_insert] at member
    rcases member with rfl | counted
    · exact root
    · rw [← same]
      exact sound.records e.queryId _ _ _ _ record j counted

theorem Sound.counted {cnt cntBits : Nat}
    (read : readEnvelope i.body = .ok e)
    (rooted : Rooted crypto s e owner) (opens : Opens crypto s e owner q) (counts : Counts crypto s e q cnt cntBits) :
    Endorsed signed start e.queryId e.msg (signers cntBits) := by
  have first := sound.opened unforgeable tells read rooted opens
  cases counts with
  | root => exact first
  | @all list counted _ _ _ valid total =>
    intro j member
    rw [total, (countAll_signers (attached list) (0, q.cntBits)).1, Finset.mem_union] at member
    rcases member with before | added
    · exact first j before
    obtain ⟨x, listed, rfl⟩ := List.mem_map.mp (List.mem_toFinset.mp added)
    obtain ⟨key, known, holds⟩ := valid x listed
    have content := (readEnvelope_content read).1
    rw [rooted.wallet, sound.walletId] at content
    exact ⟨key, (sound.keys x.2).symm.trans known, .inl (content ▸ unforgeable _ _ _ holds)⟩

theorem Sound.step
    (ordered : ∀ j ∈ seen, j.now ≤ i.now) (effect : Effect crypto s i after new) :
    Sound signed start after (seen ++ [i]) (sent ++ new) := by
  cases effect with
  | idle => exact sound.idle s.lastCleaned
  | init => exact sound.idle 1
  | @counted e owner q cnt cntBits u _ lastCleaned limit _ _ read rooted inTime opens _ counts ended expired =>
    have unsent := sound.not_sent ordered inTime opens
    have owners := sound.counted unforgeable tells read rooted opens counts
    have tally := counts.cnt_eq (opens.cnt_eq sound.tallied)
    have same := opens.msg_eq (tells e read)
    have keys (j : Uint 8) := (ended.keys j).trans (sound.keys j)
    have late : limit ≤ bound i.now := by
      rcases expired with ⟨rfl, -⟩ | ⟨rfl, -⟩
      · exact mul_nonneg (Int.natCast_nonneg _) (by decide)
      · omega
    rcases ended.record with ⟨enough, written, messages, -, rfl⟩ | ⟨few, rfl, count, counted, written⟩
    · rw [written]
      refine ⟨sound.walletId, sound.k, keys, ?_, ?_, ?_, ?_, ?_⟩
      · intro key creatorI cnt cntBits msg entry
        rcases entry_of_filter_set entry with ⟨-, changed⟩ | before
        · cases changed
        · exact sound.tallied key creatorI cnt cntBits msg before
      · intro key creatorI cnt cntBits msg entry
        rcases entry_of_filter_set entry with ⟨-, changed⟩ | before
        · cases changed
        · exact sound.records key creatorI cnt cntBits msg before
      · intro x member
        rcases List.mem_append.mp member with before | now
        · exact sound.stays unsent late before
        rw [List.mem_singleton.mp now, Dict.get?_filterKeys, if_pos (by simpa using late.trans inTime),
          Dict.get?_set, if_pos rfl]
        exact .inl rfl
      · rw [List.map_append, List.map_singleton]
        refine List.nodup_append.mpr ⟨sound.once, List.nodup_singleton _, ?_⟩
        rintro _ member _ now rfl
        rw [List.mem_singleton.mp now] at member
        exact unsent member
      · intro x member
        rcases List.mem_append.mp member with before | now
        · exact sound.endorsed x before
        rw [List.mem_singleton.mp now]
        refine ⟨signers cntBits, ?_, ?_⟩
        · rw [← sound.k, ← tally]
          exact enough
        · rw [same]
          exact owners
    · rw [List.append_nil, written]
      refine ⟨sound.walletId, sound.k, keys, ?_, ?_, fun x => sound.stays unsent late, sound.once, sound.endorsed⟩
      · intro key creatorI cnt cntBits msg entry
        rcases entry_of_filter_set entry with ⟨-, changed⟩ | before
        · cases changed
          rw [counted, tally]
        · exact sound.tallied key creatorI cnt cntBits msg before
      · intro key creatorI cnt cntBits msg entry
        rcases entry_of_filter_set entry with ⟨rfl, changed⟩ | before
        · cases changed
          rw [same]
          exact owners
        · exact sound.records key creatorI cnt cntBits msg before

end

theorem Sound.commit (sound : Sound signed start s seen sent) (unforgeable : Unforgeable crypto signed)
    (tells : HashTells crypto s i) (ordered : ∀ j ∈ seen, j.now ≤ i.now) :
    Sound signed start (commit (receive crypto) s i).1 (seen ++ [i]) (sent ++ (commit (receive crypto) s i).2) := by
  cases outcome : receive crypto s i with
  | error e =>
    rw [commit_of_error outcome]
    exact sound.idle s.lastCleaned
  | ok result =>
    rw [commit_of_success outcome]
    exact sound.step unforgeable tells ordered (receive_effect outcome)

/-- From a new wallet, every run is sound. -/
theorem sound_run (unforgeable : Unforgeable crypto signed) (walletId : Uint 32) (n k : Uint 8)
    (ownersInfo : Dict 8 OwnerInfo) (inputs : List Input) (ordered : inputs.Pairwise fun a b => a.now ≤ b.now)
    (tells : Meets (receive crypto) (HashTells crypto) (createInitState walletId n k ownersInfo) inputs) :
    Sound signed (createInitState walletId n k ownersInfo)
      (run (receive crypto) (createInitState walletId n k ownersInfo) inputs) inputs
      (sendings crypto (createInitState walletId n k ownersInfo) inputs) := by
  induction inputs using List.reverseRecOn with
  | nil =>
    exact ⟨rfl, rfl, fun _ => rfl, nofun, nofun, nofun, List.nodup_nil, nofun⟩
  | append_singleton before i ih =>
    obtain ⟨earlier, -, last⟩ := List.pairwise_append.mp ordered
    have sound := ih earlier tells.before
    rw [run_snoc, sendings, track_snoc]
    exact sound.commit unforgeable tells.at fun j member => last j member i (List.mem_singleton_self i)

theorem Sound.safe {inputs : List Input}
    (sound : Sound signed start (run (receive crypto) start inputs) inputs (sendings crypto start inputs)) :
    Safe crypto signed start inputs := by
  refine ⟨sound.once, fun x member => ?_⟩
  obtain ⟨owners, enough, endorsed⟩ := sound.endorsed x member
  refine ⟨owners, enough, fun j counted => ?_⟩
  obtain ⟨key, known, signed⟩ := endorsed j counted
  exact ⟨key, (sound.keys j).trans known, sound.walletId ▸ signed⟩

theorem covered_run (walletId : Uint 32) (n k : Uint 8) (ownersInfo : Dict 8 OwnerInfo) (inputs : List Input) :
    Covered (run (receive crypto) (createInitState walletId n k ownersInfo) inputs) := by
  induction inputs using List.reverseRecOn with
  | nil => exact fun j => floodOf_nonneg ownersInfo j
  | append_singleton before i ih =>
    rw [run_snoc]
    exact covered_commit i ih

variable {before : List Input} {queryId : Uint 64} {msg : Slice}

theorem sent_snoc :
    Sent crypto start (before ++ [i]) queryId msg ↔ Sent crypto start before queryId msg ∨
      ∃ x ∈ (commit (receive crypto) (run (receive crypto) start before) i).2, x.queryId = queryId ∧ x.msg = msg := by
  unfold Sent sendings
  rw [track_snoc]
  simp [or_and_right, exists_or]

/-- If a message brings nothing for a query, its signatures were complete before. -/
theorem delivered_before (delivered : Delivered crypto start (before ++ [i]) queryId msg)
    (nothing : ∀ j, ¬ Brings crypto start queryId msg j i) : Delivered crypto start before queryId msg := by
  obtain ⟨owners, some, enough, brought⟩ := delivered
  refine ⟨owners, some, enough, fun j member => ?_⟩
  obtain ⟨x, listed, brings⟩ := brought j member
  rcases List.mem_append.mp listed with earlier | last
  · exact ⟨x, earlier, brings⟩
  · rw [List.mem_singleton.mp last] at brings
    exact absurd brings (nothing j)

/-- In every run of a new wallet a query is sent at most once and only with `k` owners behind it. The threshold is kept
in all states exactly if every message that completes the signatures of a query performs it. -/
theorem threshold_iff (crypto : Crypto) (signed : Uint 256 → Slice → Prop) (unforgeable : Unforgeable crypto signed)
    (walletId : Uint 32) (n k : Uint 8) (ownersInfo : Dict 8 OwnerInfo) (inputs : List Input)
    (ordered : inputs.Pairwise fun a b => a.now ≤ b.now)
    (tells : Meets (receive crypto) (HashTells crypto) (createInitState walletId n k ownersInfo) inputs) :
    (∀ before after, inputs = before ++ after →
      Safe crypto signed (createInitState walletId n k ownersInfo) before) ∧
    ((∀ before after, inputs = before ++ after →
      Threshold crypto signed (createInitState walletId n k ownersInfo) before) ↔
      ∀ before i after e, inputs = before ++ i :: after →
        Completes crypto (createInitState walletId n k ownersInfo) before i e →
        ∃ owner q, Performs crypto (run (receive crypto) (createInitState walletId n k ownersInfo) before) i e owner q) := by
  set start := createInitState walletId n k ownersInfo with new
  have sound (before after : List Input) (split : inputs = before ++ after) :
      Sound signed start (run (receive crypto) start before) before (sendings crypto start before) := by
    rw [split] at ordered tells
    exact sound_run unforgeable walletId n k ownersInfo before (List.pairwise_append.mp ordered).1 tells.before
  have performs (before : List Input) (i : Input) (after : List Input) (e : Envelope) (split : inputs = before ++ i :: after)
      (read : readEnvelope i.body = .ok e) :
      (∃ x ∈ (commit (receive crypto) (run (receive crypto) start before) i).2, x.queryId = e.queryId ∧ x.msg = e.msg) ↔
        ∃ owner q, Performs crypto (run (receive crypto) start before) i e owner q := by
    have now := (sound before (i :: after) split).tallied
    rw [split] at tells
    exact sends_iff read (covered_run walletId n k ownersInfo before) now (tells.at e read)
  refine ⟨fun before after split => (sound before after split).safe, ?_, ?_⟩
  · rintro always before i after e split ⟨read, delivered, unsent⟩
    have kept := (always (before ++ [i]) after (by simp [split])).performed e.queryId e.msg delivered
    exact (performs before i after e split read).mp ((sent_snoc.mp kept).resolve_left unsent)
  · intro performed before after split
    refine ⟨(sound before after split).safe, ?_⟩
    -- the message that completes the signatures is the first one after which they are complete
    induction before using List.reverseRecOn generalizing after with
    | nil =>
      rintro queryId msg ⟨owners, ⟨j, member⟩, -, brought⟩
      obtain ⟨x, none, -⟩ := brought j member
      cases none
    | append_singleton before i ih =>
      intro queryId msg delivered
      have split : inputs = before ++ i :: after := by simp [split]
      by_cases sent : Sent crypto start before queryId msg
      · exact sent_snoc.mpr (.inl sent)
      by_cases brings : ∃ j, Brings crypto start queryId msg j i
      · obtain ⟨-, -, e, read, -, rfl, rfl, -⟩ := brings
        have done := performed before i after e split ⟨read, delivered, sent⟩
        exact sent_snoc.mpr (.inr ((performs before i after e split read).mpr done))
      · have earlier := delivered_before delivered (not_exists.mp brings)
        exact absurd (ih (i :: after) split queryId msg earlier) sent

/-- Signers as far as the toy signatures tell. -/
def sampleSigner (key : Uint 256) (cs : Slice) : Prop :=
  ∃ signature, sampleCrypto.checkSignature (sampleCrypto.sliceHash cs) signature key = true

theorem sampleSigner_unforgeable : Unforgeable sampleCrypto sampleSigner := fun _ signature _ valid => ⟨signature, valid⟩

def holdsNothing : Query → Bool
  | .completed => true
  | .waiting _ _ _ msg => msg.isEmpty

theorem eq_of_isEmpty {cs other : Slice} (empty : cs.isEmpty = true) (same : other.isEmpty = true) : cs = other := by
  obtain ⟨bits, refs⟩ := cs
  obtain ⟨bits', refs'⟩ := other
  simp only [Slice.isEmpty, Bool.and_eq_true, List.isEmpty_iff] at empty same
  rw [empty.1, empty.2, same.1, same.2]

/-- There is nothing to tell apart where neither the message nor a record has messages. -/
theorem hashTells_of_empty {s : State} (message : (readEnvelope i.body).toOption.all (fun e => e.msg.isEmpty) = true)
    (records : s.pendingQueries.entries.all (fun entry => holdsNothing entry.2) = true) : HashTells crypto s i := by
  intro e read creatorI cnt cntBits msg entry _
  rw [read] at message
  have listed := (s.pendingQueries.get?_eq_some_iff e.queryId _).mp entry
  exact eq_of_isEmpty (List.all_eq_true.mp records _ listed) message

theorem brings_of_empty {j : Uint 8} (inTime : i.now.val < queryId.val >>> 32)
    (message : (readEnvelope i.body).toOption.any (fun e => e.msg.isEmpty && decide (e.walletId = start.walletId ∧
      e.queryId = queryId ∧ j ∈ brought crypto start.ownerInfos e)) = true) :
    Brings crypto start queryId ⟨[], []⟩ j i := by
  cases read : readEnvelope i.body with
  | error e =>
    rw [read] at message
    cases message
  | ok e =>
    rw [read] at message
    change (e.msg.isEmpty && decide _) = true at message
    rw [Bool.and_eq_true, decide_eq_true_eq] at message
    obtain ⟨empty, wallet, same, signed⟩ := message
    exact ⟨inTime, e, read, wallet, same, eq_of_isEmpty empty rfl, signed⟩

/-- Owner 0 opens a query, then sends it again with the signature of owner 1. -/
def repeatedRoot : List Input :=
  [sampleMessage 1000 0 [] (sampleQuery 5000 0), sampleMessage 1001 0 [1] (sampleQuery 5000 0)]

theorem repeatedRoot_tells : Meets (receive sampleCrypto) (HashTells sampleCrypto) sampleWallet repeatedRoot := by
  refine ⟨hashTells_of_empty ?_ ?_, hashTells_of_empty ?_ ?_, trivial⟩ <;> decide +kernel

/-- Both owners have signed and both signatures have been delivered in time, but the second message is refused
because its root owner has been counted before. -/
theorem repeated_root_loses_signature :
    (repeatedRoot.Pairwise (fun a b => a.now ≤ b.now) ∧
      Meets (receive sampleCrypto) (HashTells sampleCrypto) sampleWallet repeatedRoot ∧
      Delivered sampleCrypto sampleWallet repeatedRoot (sampleQuery 5000 0) ⟨[], []⟩ ∧
      sendings sampleCrypto sampleWallet repeatedRoot = []) ∧
      ¬ ∀ before after, repeatedRoot = before ++ after → Threshold sampleCrypto sampleSigner sampleWallet before := by
  have nothing : sendings sampleCrypto sampleWallet repeatedRoot = [] :=
    List.length_eq_zero_iff.mp (by decide +kernel)
  have delivered : Delivered sampleCrypto sampleWallet repeatedRoot (sampleQuery 5000 0) ⟨[], []⟩ := by
    refine ⟨{0, 1}, ⟨0, by decide⟩, by decide, ?_⟩
    intro j member
    rcases Finset.mem_insert.mp member with rfl | second
    · exact ⟨_, List.mem_cons_self, brings_of_empty (by decide) (by decide +kernel)⟩
    · rw [Finset.mem_singleton.mp second]
      exact ⟨_, List.mem_cons_of_mem _ List.mem_cons_self, brings_of_empty (by decide) (by decide +kernel)⟩
  refine ⟨⟨by decide, repeatedRoot_tells, delivered, nothing⟩, fun always => ?_⟩
  obtain ⟨x, member, -⟩ := (always repeatedRoot [] (List.append_nil _).symm).performed _ _ delivered
  rw [nothing] at member
  cases member

/-- The query is sent when the other owner signs in a message of its own. -/
def secondRoot : List Input :=
  [sampleMessage 1000 0 [] (sampleQuery 5000 0), sampleMessage 1001 1 [] (sampleQuery 5000 0)]

theorem secondRoot_tells : Meets (receive sampleCrypto) (HashTells sampleCrypto) sampleWallet secondRoot := by
  refine ⟨hashTells_of_empty ?_ ?_, hashTells_of_empty ?_ ?_, trivial⟩ <;> decide +kernel

theorem second_root_threshold_iff :
    (∀ before after, secondRoot = before ++ after → Safe sampleCrypto sampleSigner sampleWallet before) ∧
    ((∀ before after, secondRoot = before ++ after → Threshold sampleCrypto sampleSigner sampleWallet before) ↔
      ∀ before i after e, secondRoot = before ++ i :: after → Completes sampleCrypto sampleWallet before i e →
        ∃ owner q, Performs sampleCrypto (run (receive sampleCrypto) sampleWallet before) i e owner q) :=
  threshold_iff sampleCrypto sampleSigner sampleSigner_unforgeable 5 3 2 sampleOwners secondRoot (by decide) secondRoot_tells

end Safety

end TonStaking.Guarantees.MultisigThreshold
