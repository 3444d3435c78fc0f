import TonStaking.Source.Multisig.Records

/-!
# The multisig wallet: when a query is performed

A message performs its query if its root signature is accepted and the owners
counted so far reach `k` with it, or if they do so with the list of signatures
and all of that list is accepted. Nothing else performs a query.
-/
namespace TonStaking.Source.Multisig
open Tvm

section Definitions

variable (crypto : Crypto)

/-- The list of a message completes a query that its root signature leaves open. -/
structure Completing (s : State) (i : Input) (e : Envelope) (q : Opened) (list : Cell) : Prop where
  gas : i.gas = .enough
  noted : Noted s i.now e q
  brought : e.signatures = some list
  read : readable list = true
  valid : ∀ x ∈ attached list, Valid crypto s.ownerInfos (crypto.sliceHash e.content) x.1 x.2
  enough : s.k.val ≤ (signers q.cntBits ∪ ((attached list).map Prod.snd).toFinset).card

structure Performs (s : State) (i : Input) (e : Envelope) (owner : OwnerInfo) (q : Opened) : Prop where
  started : i.gas ≠ .beforeCommit
  acts : i.acts = true
  rooted : Rooted crypto s e owner
  inTime : bound i.now ≤ (e.queryId : Int)
  opens : Opens crypto s e owner q
  loads : ∃ messages, loadMessages e.msg.bits e.msg.refs = .ok messages
  reached : s.k.val ≤ (signers q.cntBits).card ∨ ∃ list, Completing crypto s i e q list

/-- The counters of the records are the numbers of their signers. -/
def Tallied (s : State) : Prop :=
  ∀ (key : Uint 64) creatorI cnt cntBits msg, s.pendingQueries.get? key = some (.waiting creatorI cnt cntBits msg) →
    cnt.val = (signers cntBits).card

/-- No owner has more records than the counter says. -/
def Covered (s : State) : Prop := ∀ j, waitingOf s.pendingQueries j ≤ floodOf s.ownerInfos j

/-- The hash tells the message of a query from the one its record holds. -/
def Distinguishes (s : State) (e : Envelope) : Prop :=
  ∀ creatorI cnt cntBits msg, s.pendingQueries.get? e.queryId = some (.waiting creatorI cnt cntBits msg) →
    crypto.sliceHash msg = crypto.sliceHash e.msg → msg = e.msg

end Definitions

section Counting

variable {crypto : Crypto} {s after : State} {i : Input} {e : Envelope} {owner : OwnerInfo} {q : Opened} {sent : List Sending}

/-- With the root signature the count is still the number of signers. -/
theorem Opens.cnt_eq (opens : Opens crypto s e owner q) (tallied : Tallied s) : q.cnt = (signers q.cntBits).card := by
  cases opens with
  | fresh =>
    have one := signers_or_mask 0 e.rootI
    rw [Nat.zero_or, signers_zero] at one
    rw [one]
    rfl
  | known record _ unsigned =>
    rw [signers_or_mask, Finset.card_insert_of_notMem unsigned, tallied e.queryId _ _ _ _ record]

theorem Opens.msg_eq (opens : Opens crypto s e owner q) (distinct : Distinguishes crypto s e) : q.msg = e.msg := by
  cases opens with
  | fresh => rfl
  | known record same => exact distinct _ _ _ _ record same

/-- The count after a list, and the owners who have signed by then. -/
theorem counted_list (l : List (List Bool × Uint 8)) (tally : q.cnt = (signers q.cntBits).card) :
    q.cnt + (l.foldl countOne (0, q.cntBits)).1 = (signers q.cntBits ∪ (l.map Prod.snd).toFinset).card := by
  obtain ⟨owners, count⟩ := countAll_signers l (0, q.cntBits)
  dsimp only at owners count
  rw [← owners]
  omega

theorem Counts.cnt_eq {cnt cntBits : Nat} (counts : Counts crypto s e q cnt cntBits)
    (tally : q.cnt = (signers q.cntBits).card) : cnt = (signers cntBits).card := by
  cases counts with
  | root => exact tally
  | @all list counted _ _ _ _ total =>
    rw [total, counted_list _ tally, (countAll_signers (attached list) (0, q.cntBits)).1]

theorem Effect.performs {x : Sending} (effect : Effect crypto s i after sent) (member : x ∈ sent) (tallied : Tallied s)
    (distinct : ∀ e, readEnvelope i.body = .ok e → Distinguishes crypto s e) :
    ∃ e owner q, readEnvelope i.body = .ok e ∧ Performs crypto s i e owner q ∧ x.queryId = e.queryId ∧ x.msg = e.msg := by
  cases effect with
  | idle | init => cases member
  | @counted e owner q _ _ _ _ _ _ started acts read rooted inTime opens noted counts ended expired =>
    have tally := opens.cnt_eq tallied
    have same := opens.msg_eq (distinct e read)
    rcases ended.record with ⟨enough, -, messages, loaded, rfl⟩ | ⟨-, rfl, -⟩
    · rw [List.mem_singleton.mp member]
      rw [same] at loaded
      refine ⟨e, owner, q, read, ⟨started, acts, rooted, inTime, opens, ⟨messages, loaded⟩, ?_⟩, rfl, same⟩
      cases counts with
      | root => exact .inl (tally ▸ enough)
      | @all list _ brought few readable valid total =>
        rw [total, counted_list _ tally] at enough
        rcases expired with ⟨-, stopped⟩ | ⟨-, reaches⟩
        · rw [total, counted_list _ tally] at stopped
          omega
        · exact .inr ⟨list, reaches.gas, noted few, brought, readable, valid, enough⟩
    · cases member

theorem covered_commit (i : Input) (covered : Covered s) : Covered (commit (receive crypto) s i).1 := by
  intro j
  have gap := @commit_gap crypto s i j
  have dropped := droppedOf_nonneg s (commit (receive crypto) s i).1 j
  have before := covered j
  omega

variable {u : Update} {ownerInfos : Dict 8 OwnerInfo}

theorem countQuery_of_opens (opens : Opens crypto s e owner q) :
    ∃ ownerInfos, countQuery s (e.order crypto owner) q = .ok ownerInfos := by
  unfold countQuery
  cases opens with
  | fresh unused room =>
    obtain ⟨flood, stored, -⟩ := storeUint_of_fits (n := 8) (x := (owner.flood : Int) + 1) (by omega) (by omega)
    simp only [packOwnerInfo, stored]
    exact ⟨_, rfl⟩
  | known => exact ⟨_, rfl⟩

theorem get?_of_floodOf_pos {j : Uint 8} (positive : 0 < floodOf ownerInfos j) :
    ∃ info, ownerInfos.get? j = some info ∧ 0 < info.flood.val := by
  cases found : ownerInfos.get? j with
  | none => simp [floodOf, found] at positive
  | some info =>
    rw [floodOf_of_get? found] at positive
    exact ⟨info, rfl, by omega⟩

/-- The creator of a query has it counted once the root signature is accepted. -/
theorem Opens.creator_found (opens : Opens crypto s e owner q) (covered : Covered s)
    (floods : ∀ j, floodOf ownerInfos j = floodOf s.ownerInfos j + if q.isNew = true ∧ j = e.rootI then 1 else 0) :
    ∃ info, ownerInfos.get? q.creatorI = some info ∧ 0 < info.flood.val := by
  apply get?_of_floodOf_pos
  rw [floods]
  cases opens with
  | fresh =>
    have some := covered e.rootI
    have none := waitingOf_nonneg s.pendingQueries e.rootI
    rw [if_pos ⟨rfl, rfl⟩]
    dsimp only
    omega
  | @known creatorI cnt cntBits msg record =>
    have some := covered creatorI
    have one := waitingOf_pos record
    dsimp only
    omega

theorem firstUpdate_of_performs (performs : Performs crypto s i e owner q) (covered : Covered s) (tallied : Tallied s)
    (distinct : Distinguishes crypto s e) : ∃ u, firstUpdate i.now s (e.order crypto owner) q = .ok u := by
  have tally := performs.opens.cnt_eq tallied
  obtain ⟨ownerInfos, counted⟩ := countQuery_of_opens performs.opens
  obtain ⟨-, floods⟩ := countQuery_success performs.opens performs.rooted counted
  unfold firstUpdate
  rw [counted, ok_bind]
  by_cases enough : s.k.val ≤ q.cnt
  · have calm : ¬ (q.isNew = true ∧ q.cnt < s.k.val ∧ bound i.now + (60 * 60) * 2 ^ 32 > ((e.order crypto owner).queryId : Int)) :=
      fun all => absurd enough (not_le.mpr all.2.1)
    rw [throwIf, if_neg calm, ok_bind]
    obtain ⟨messages, loaded⟩ := performs.loads
    obtain ⟨info, found, positive⟩ := performs.opens.creator_found covered floods
    rw [performs.opens.msg_eq distinct]
    exact updatePendingQueries_performed enough loaded found positive
  · rcases performs.reached with reached | ⟨list, completing⟩
    · exact absurd (tally ▸ reached) enough
    have calm : ¬ (q.isNew = true ∧ q.cnt < s.k.val ∧ bound i.now + (60 * 60) * 2 ^ 32 > ((e.order crypto owner).queryId : Int)) :=
      fun all => absurd (completing.noted.hour all.1) (not_le.mpr all.2.2)
    rw [throwIf, if_neg calm, ok_bind]
    exact updatePendingQueries_noted (not_le.mp enough) completing.noted.fits

/-- The list of a message that completes its query is accepted. -/
theorem secondUpdate_of_completing {list : Cell} (completing : Completing crypto s i e q list)
    (opens : Opens crypto s e owner q) (covered : Covered s) (tallied : Tallied s)
    (loads : ∃ messages, loadMessages q.msg.bits q.msg.refs = .ok messages) (few : q.cnt < s.k.val)
    (ended : Ended s e q q.cnt q.cntBits u u.sent) :
    ∃ late, secondUpdate crypto s (e.order crypto owner) q u = .ok late ∧ late.sent ≠ [] := by
  have tally := opens.cnt_eq tallied
  have checked : checkSignatures crypto u.ownerInfos (crypto.sliceHash e.content) list 0 q.cntBits =
      .ok ((attached list).foldl countOne (0, q.cntBits)) := by
    refine (checkSignatures_iff list 0 q.cntBits _).mpr ⟨completing.read, fun x member => ?_, rfl⟩
    obtain ⟨key, known, holds⟩ := completing.valid x member
    exact ⟨key, (ended.keys x.2).trans known, holds⟩
  have enough : s.k.val ≤ q.cnt + ((attached list).foldl countOne (0, q.cntBits)).1 := by
    rw [counted_list _ tally]
    exact completing.enough
  have floods (j : Uint 8) : floodOf u.ownerInfos j =
      floodOf s.ownerInfos j + if q.isNew = true ∧ j = e.rootI then 1 else 0 := by
    have kept : ¬ (s.k.val ≤ q.cnt ∧ j = q.creatorI) := fun both => absurd both.1 (not_le.mpr few)
    rw [ended.floods, if_neg kept, sub_zero]
  obtain ⟨messages, loaded⟩ := loads
  obtain ⟨info, found, positive⟩ := opens.creator_found covered floods
  obtain ⟨late, updated⟩ : ∃ late, updatePendingQueries u.pendingQueries u.ownerInfos q.msg e.queryId q.creatorI
      (q.cnt + ((attached list).foldl countOne (0, q.cntBits)).1) ((attached list).foldl countOne (0, q.cntBits)).2
      s.n s.k = .ok late := updatePendingQueries_performed enough loaded found positive
  refine ⟨late, ?_, ?_⟩
  · unfold secondUpdate
    dsimp only [Envelope.order]
    rw [completing.brought]
    dsimp only
    rw [if_neg (not_le.mpr few), checked, ok_bind]
    exact updated
  · cases updatePendingQueries_success updated with
    | performed => exact List.cons_ne_nil _ _
    | noted fewer => exact absurd enough (not_le.mpr fewer)

/-- Once the other signatures are counted, nothing fails, and the records below the bound are dropped. -/
theorem afterCommit_of_update {now : Uint 32} {late : Update}
    (updated : secondUpdate crypto s (e.order crypto owner) q u = .ok late) :
    ∃ after, afterCommit crypto now s (e.order crypto owner) q u = .ok (after, late.sent) ∧
      after.pendingQueries = late.pendingQueries.filterKeys fun k => decide (bound now - 64 * 2 ^ 32 ≤ (k : Int)) := by
  have fits := Dict.dropBelow_lt (bound now - 64 * 2 ^ 32) (le_refl late.pendingQueries.entries.length)
    (s.store late).lastCleaned.isLt
  have kept := Dict.dropBelow_fst (bound now - 64 * 2 ^ 32) _ late.pendingQueries (s.store late).lastCleaned le_rfl
  unfold afterCommit
  rw [updated, ok_bind]
  dsimp only
  unfold cleanUp
  generalize Dict.dropBelow (bound now - 64 * 2 ^ 32) late.pendingQueries.entries.length late.pendingQueries
    (s.store late).lastCleaned = cleaned at fits kept ⊢
  obtain ⟨lastCleaned, stored, -⟩ := storeUint_of_fits (n := 64) (x := (cleaned.2 : Int)) (by omega) (by exact_mod_cast fits)
  rw [stored]
  exact ⟨_, rfl, kept⟩

theorem not_isEmpty_of_readEnvelope (read : readEnvelope i.body = .ok e) : i.body.isEmpty = false := by
  by_contra empty
  have none : i.body.bits = [] := by
    have both := Bool.eq_true_of_not_eq_false empty
    unfold Slice.isEmpty at both
    rw [Bool.and_eq_true] at both
    exact List.isEmpty_iff.mp both.1
  obtain ⟨_, loaded, -⟩ := of_bind read
  obtain ⟨_, preloaded, -⟩ := of_bind loaded
  simp [preloadBits, none] at preloaded

/-- A message whose first update succeeds. -/
theorem receive_eq (started : i.gas ≠ .beforeCommit) (acts : i.acts = true) (read : readEnvelope i.body = .ok e)
    (rooted : Rooted crypto s e owner) (inTime : bound i.now ≤ (e.queryId : Int)) (opens : Opens crypto s e owner q)
    (first : firstUpdate i.now s (e.order crypto owner) q = .ok u) :
    receive crypto s i =
      match (if i.gas = .enough then afterCommit crypto i.now s (e.order crypto owner) q u else .error .outOfGas :
        Outcome (State × List Sending)) with
      | .ok (after, sent) => .ok (after, u.sent ++ sent)
      | .error _ => .ok (s.store u, u.sent) := by
  unfold receive recvExternal
  rw [if_neg started, not_isEmpty_of_readEnvelope read, loadOrder_of_rooted read rooted]
  simp only [ok_bind, openQuery_iff.mpr ⟨inTime, opens⟩, first, acts]
  generalize (if i.gas = .enough then afterCommit crypto i.now s (e.order crypto owner) q u else .error .outOfGas :
    Outcome (State × List Sending)) = rest
  cases rest with
  | error e | ok result => rfl

/-- The clean-up drops all records below its bound. -/
theorem CleansUp.drops (reaches : CleansUp crypto s i) {key : Nat} (old : (key : Int) < bound i.now - 64 * 2 ^ 32) :
    (commit (receive crypto) s i).1.pendingQueries.get? key = none := by
  obtain ⟨o, q, u, late, loaded, opened, first, second⟩ := reaches.updates
  obtain ⟨e, owner, read, rooted, rfl⟩ := loadOrder_success loaded
  obtain ⟨inTime, opens⟩ := openQuery_iff.mp opened
  obtain ⟨after, done, dropped⟩ := @afterCommit_of_update crypto s e owner q u i.now late second
  have started : i.gas ≠ .beforeCommit := by simp [reaches.gas]
  have received := receive_eq started reaches.acts read rooted inTime opens first
  rw [if_pos reaches.gas, done] at received
  rw [commit_of_success received, dropped, Dict.get?_filterKeys]
  exact if_neg fun kept => absurd old (not_lt.mpr (of_decide_eq_true kept))

theorem receive_of_performs (read : readEnvelope i.body = .ok e) (performs : Performs crypto s i e owner q)
    (covered : Covered s) (tallied : Tallied s) (distinct : Distinguishes crypto s e) :
    ∃ after sent, receive crypto s i = .ok (after, sent) ∧ sent ≠ [] := by
  obtain ⟨u, first⟩ := firstUpdate_of_performs performs covered tallied distinct
  obtain ⟨ended, -⟩ := firstUpdate_success performs.opens performs.rooted first
  rw [receive_eq performs.started performs.acts read performs.rooted performs.inTime performs.opens first]
  rcases ended.record with ⟨-, -, messages, -, performed⟩ | ⟨few, -⟩
  · split
    · refine ⟨_, _, rfl, ?_⟩
      rw [performed]
      exact List.cons_ne_nil _ _
    · refine ⟨_, _, rfl, ?_⟩
      rw [performed]
      exact List.cons_ne_nil _ _
  · rcases performs.reached with reached | ⟨list, completing⟩
    · rw [← performs.opens.cnt_eq tallied] at reached
      exact absurd reached (not_le.mpr few)
    have loads := performs.loads
    rw [← performs.opens.msg_eq distinct] at loads
    obtain ⟨late, updated, sends⟩ :=
      secondUpdate_of_completing completing performs.opens covered tallied loads few ended
    obtain ⟨after, done, -⟩ := @afterCommit_of_update crypto s e owner q u i.now late updated
    rw [if_pos completing.gas, done]
    exact ⟨after, _, rfl, fun empty => sends (List.append_eq_nil_iff.mp empty).2⟩

theorem sends_iff (read : readEnvelope i.body = .ok e) (covered : Covered s) (tallied : Tallied s)
    (distinct : Distinguishes crypto s e) :
    (∃ x ∈ (commit (receive crypto) s i).2, x.queryId = e.queryId ∧ x.msg = e.msg) ↔
      ∃ owner q, Performs crypto s i e owner q := by
  have only (e' : Envelope) (again : readEnvelope i.body = .ok e') : Distinguishes crypto s e' := by
    cases read.symm.trans again
    exact distinct
  constructor
  · rintro ⟨x, member, -⟩
    cases outcome : receive crypto s i with
    | error e =>
      rw [commit_of_error outcome] at member
      cases member
    | ok result =>
      rw [commit_of_success outcome] at member
      obtain ⟨e', owner, q, again, performs, -⟩ := (receive_effect outcome).performs member tallied only
      cases read.symm.trans again
      exact ⟨owner, q, performs⟩
  · rintro ⟨owner, q, performs⟩
    obtain ⟨after, sent, outcome, sends⟩ := receive_of_performs read performs covered tallied distinct
    obtain ⟨x, member⟩ := List.exists_mem_of_ne_nil sent sends
    obtain ⟨e', -, -, again, -, same⟩ := (receive_effect outcome).performs member tallied only
    cases read.symm.trans again
    rw [commit_of_success outcome]
    exact ⟨x, member, same⟩

end Counting

end TonStaking.Source.Multisig
