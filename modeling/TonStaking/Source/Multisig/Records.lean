import TonStaking.Source.Multisig.Effects

/-!
# The multisig wallet: flood counters and records

The counter of an owner follows the records that this owner has opened. It
stays behind only when a record is dropped that still waits for signatures.
-/
namespace TonStaking.Source.Multisig
open Tvm Dict

/-- The record waits for signatures and was opened by this owner. -/
def createdBy (i : Uint 8) : Query → Bool
  | .completed => false
  | .waiting creatorI _ _ _ => creatorI = i

/-- The number of queries of an owner that wait for signatures. -/
def waitingOf (pendingQueries : Dict 64 Query) (i : Uint 8) : Int :=
  pendingQueries.sumBy fun _ query => if createdBy i query then 1 else 0

theorem waitingOf_nonneg (pendingQueries : Dict 64 Query) (i : Uint 8) : 0 ≤ waitingOf pendingQueries i := by
  rw [← sumBy_zero (M := Int) pendingQueries]
  apply sumBy_le
  intro _ _ _
  split <;> decide

theorem waitingOf_pos {pendingQueries : Dict 64 Query} {key : Uint 64} {creatorI cnt : Uint 8} {cntBits : Nat} {msg : Slice}
    (record : pendingQueries.get? key = some (.waiting creatorI cnt cntBits msg)) : 0 < waitingOf pendingQueries creatorI := by
  have one := Dict.le_sumBy pendingQueries (fun _ query => if createdBy creatorI query then (1 : Int) else 0)
    (fun _ _ => by split <;> decide) record
  simp only [createdBy] at one
  exact one

theorem entry_of_filter_set {pendingQueries : Dict 64 Query} {changed key : Uint 64} {query record : Query} {p : Nat → Bool}
    (entry : ((pendingQueries.set changed changed.isLt query).filterKeys p).get? key = some record) :
    key = changed ∧ record = query ∨ pendingQueries.get? key = some record := by
  rw [get?_filterKeys] at entry
  split at entry
  · rw [get?_set] at entry
    split at entry
    · next here => exact .inl ⟨Fin.ext here, (Option.some.inj entry).symm⟩
    · exact .inr entry
  · cases entry

section Step

variable {crypto : Crypto} {s after : State} {i : Input} {sent : List Sending}

/-- What a record counts for an owner. -/
def share (i : Uint 8) (query : Option Query) : Int :=
  match query with
  | none => 0
  | some query => if createdBy i query then 1 else 0

/-- The waiting queries of an owner that are gone afterwards. -/
def droppedOf (s after : State) (i : Uint 8) : Int :=
  s.pendingQueries.sumBy fun key query =>
    if createdBy i query = true ∧ after.pendingQueries.get? key = none then 1 else 0

/-- A message changes a counter as it changes the record of its query. -/
theorem flood_follows_record {e : Envelope} {owner : OwnerInfo} {q : Opened} {cnt cntBits : Nat} {u : Update}
    (opens : Opens crypto s e owner q) (ended : Ended s e q cnt cntBits u sent) (j : Uint 8) :
    floodOf u.ownerInfos j - floodOf s.ownerInfos j =
      share j (u.pendingQueries.get? e.queryId) - share j (s.pendingQueries.get? e.queryId) := by
  have root : q.isNew = true → q.creatorI = e.rootI := opens.creator
  have flood := ended.floods j
  have old : share j (s.pendingQueries.get? e.queryId) = if q.isNew = false ∧ j = q.creatorI then 1 else 0 := by
    cases opens with
    | fresh unused => simp [unused, share]
    | known record => simp [record, share, createdBy, eq_comm]
  have new : share j (u.pendingQueries.get? e.queryId) = if cnt < s.k.val ∧ j = q.creatorI then 1 else 0 := by
    rcases ended.record with ⟨enough, written, -⟩ | ⟨few, -, count, -, written⟩
    · simp [written, share, createdBy, not_lt.mpr enough]
    · simp [written, share, createdBy, few, eq_comm]
  rw [old, new, flood]
  by_cases enough : s.k.val ≤ cnt
  · cases fresh : q.isNew with
    | true => simp [enough, root fresh]
    | false => simp [enough, not_lt.mpr enough]
  · cases fresh : q.isNew with
    | true => simp [enough, not_le.mp enough, root fresh]
    | false => simp [not_le.mp enough]

theorem Ended.written {e : Envelope} {q : Opened} {cnt cntBits : Nat} {u : Update}
    (ended : Ended s e q cnt cntBits u sent) :
    ∃ query, u.pendingQueries = s.pendingQueries.set e.queryId e.queryId.isLt query := by
  rcases ended.record with ⟨-, written, -⟩ | ⟨-, -, count, -, written⟩
  · exact ⟨_, written⟩
  · exact ⟨_, written⟩

/-- Between two states, the sum over the records changes by the record of one query and by those that are
dropped. -/
theorem waitingOf_filter {pendingQueries : Dict 64 Query} {key : Uint 64} {query : Query} {limit : Int}
    (kept : limit ≤ (key : Int)) (j : Uint 8) :
    waitingOf ((pendingQueries.set key key.isLt query).filterKeys fun k => decide (limit ≤ (k : Int))) j =
      waitingOf pendingQueries j + share j (some query) - share j (pendingQueries.get? key) -
        pendingQueries.sumBy fun k record => if createdBy j record = true ∧ (k : Int) < limit then 1 else 0 := by
  have parts : waitingOf pendingQueries j =
      (pendingQueries.sumBy fun k record =>
        if decide (limit ≤ (k : Int)) = true then if createdBy j record then 1 else 0 else 0) +
      pendingQueries.sumBy fun k record => if createdBy j record = true ∧ (k : Int) < limit then 1 else 0 := by
    rw [← Dict.sumBy_add]
    apply sumBy_congr
    intro k record _
    by_cases late : limit ≤ (k : Int)
    · simp [not_lt.mpr late]
    · simp [not_le.mp late]
  have old : ((pendingQueries.get? key).map fun record =>
      if decide (limit ≤ ((key : Nat) : Int)) = true then if createdBy j record then (1 : Int) else 0 else 0).getD 0 =
        share j (pendingQueries.get? key) := by
    cases pendingQueries.get? key <;> simp [share, kept]
  unfold waitingOf at parts ⊢
  rw [Dict.sumBy_filterKeys, Dict.sumBy_set, parts, old]
  simp only [kept, decide_true, if_true, share]
  ring

/-- Nothing is dropped as long as no waiting record is removed. -/
theorem droppedOf_kept {j : Uint 8} (kept : ∀ key query, s.pendingQueries.get? key = some query →
    createdBy j query = true → (after.pendingQueries.get? key).isSome) : droppedOf s after j = 0 := by
  refine (sumBy_congr s.pendingQueries _ (fun _ _ => 0) ?_).trans (sumBy_zero _)
  intro key query found
  rw [if_neg]
  rintro ⟨created, gone⟩
  have still := kept key query found created
  rw [gone] at still
  cases still

theorem droppedOf_self (s : State) (j : Uint 8) : droppedOf s s j = 0 :=
  droppedOf_kept fun _ _ found _ => Option.isSome_of_eq_some found

/-- A record goes only if the message cleans up and the record is below the bound of the clean-up. -/
theorem Effect.keeps (effect : Effect crypto s i after sent) {key : Nat} {query : Query}
    (found : s.pendingQueries.get? key = some query)
    (recent : CleansUp crypto s i → bound i.now - 64 * 2 ^ 32 ≤ (key : Int)) :
    (after.pendingQueries.get? key).isSome := by
  cases effect with
  | idle | init => exact Option.isSome_of_eq_some found
  | @counted e owner q cnt cntBits u _ lastCleaned limit _ _ _ _ _ _ _ _ ended expired =>
    have kept : limit ≤ (key : Int) := by
      rcases expired with ⟨rfl, -⟩ | ⟨rfl, reaches⟩
      · exact Int.natCast_nonneg _
      · exact recent reaches
    obtain ⟨query, written⟩ := ended.written
    rw [get?_filterKeys, if_pos (by simpa using kept), written, get?_set]
    split
    · rfl
    · exact Option.isSome_of_eq_some found

/-- The distance between a counter and the number of waiting queries grows by the queries that are dropped. -/
theorem effect_gap (effect : Effect crypto s i after sent) (j : Uint 8) :
    floodOf after.ownerInfos j - waitingOf after.pendingQueries j =
      floodOf s.ownerInfos j - waitingOf s.pendingQueries j + droppedOf s after j := by
  cases effect with
  | idle => rw [droppedOf_self, add_zero]
  | init =>
    change _ = _ + droppedOf s s j
    rw [droppedOf_self, add_zero]
  | @counted e owner q cnt cntBits u _ lastCleaned limit _ _ read rooted inTime opens noted counts ended expired =>
    have kept : limit ≤ (e.queryId : Int) := by
      rcases expired with ⟨rfl, -⟩ | ⟨rfl, -⟩
      · exact Int.natCast_nonneg _
      · omega
    obtain ⟨query, written⟩ := ended.written
    have flood := flood_follows_record opens ended j
    rw [written, get?_set, if_pos rfl] at flood
    have dropped : droppedOf s { s with
        lastCleaned, ownerInfos := u.ownerInfos
        pendingQueries := u.pendingQueries.filterKeys fun k => decide (limit ≤ (k : Int)) } j =
        s.pendingQueries.sumBy fun k record => if createdBy j record = true ∧ (k : Int) < limit then 1 else 0 := by
      apply sumBy_congr
      intro k record found
      have gone : (u.pendingQueries.filterKeys fun k => decide (limit ≤ (k : Int))).get? k = none ↔ (k : Int) < limit := by
        rw [get?_filterKeys, written, get?_set, found]
        by_cases late : limit ≤ (k : Int)
        · simp only [late, decide_true, if_true, not_lt.mpr late]
          split <;> simp
        · simp [not_le.mp late]
      simp [gone]
    rw [dropped, written, waitingOf_filter kept]
    dsimp only
    omega

theorem commit_gap (s : State) (i : Input) (j : Uint 8) :
    floodOf (commit (receive crypto) s i).1.ownerInfos j - waitingOf (commit (receive crypto) s i).1.pendingQueries j =
      floodOf s.ownerInfos j - waitingOf s.pendingQueries j + droppedOf s (commit (receive crypto) s i).1 j := by
  cases outcome : receive crypto s i with
  | error e =>
    rw [commit_of_error outcome, droppedOf_self, add_zero]
  | ok result =>
    rw [commit_of_success outcome]
    exact effect_gap (receive_effect outcome) j

theorem droppedOf_nonneg (s after : State) (j : Uint 8) : 0 ≤ droppedOf s after j := by
  rw [← sumBy_zero (M := Int) s.pendingQueries]
  apply sumBy_le
  intro _ _ _
  split <;> decide

end Step

end TonStaking.Source.Multisig
