import TonStaking.Source.Multisig.Performing

/-!
# Flood counters of the multisig wallet

An owner may have ten queries open. The counter goes up with a new query and
down with a performed one, so it is the number of records that wait for
signatures, until the clean-up drops such a record: the counter of its creator
is not touched, and that place is lost for good.
-/
namespace TonStaking.Guarantees.MultisigFlood
open Tvm Source Source.Multisig

section Definitions

variable (crypto : Crypto)

/-- The counters are the numbers of waiting queries, and an owner without one can open a new query. -/
structure FloodsTrack (s : State) : Prop where
  counts : ∀ i, floodOf s.ownerInfos i = waitingOf s.pendingQueries i
  opens : ∀ (now : Uint 32) (e : Envelope) (owner : OwnerInfo), s.ownerInfos.get? e.rootI = some owner →
    waitingOf s.pendingQueries e.rootI = 0 → s.pendingQueries.get? e.queryId = none → bound now ≤ (e.queryId : Int) →
    ∃ q, openQuery crypto now s (e.order crypto owner) = .ok q

/-- If the message reaches the clean-up, it finds no waiting record that expired more than 64 seconds ago. -/
def DropsNone (s : State) (i : Input) : Prop :=
  CleansUp crypto s i → ∀ (key : Nat) (query : Query) (owner : Uint 8), s.pendingQueries.get? key = some query →
    createdBy owner query = true → bound i.now - 64 * 2 ^ 32 ≤ (key : Int)

end Definitions

section Step

variable {crypto : Crypto} {s after : State} {i : Input} {sent : List Sending}

/-- A record that is dropped counts for its creator. -/
theorem dropsNone_iff (s : State) (i : Input) :
    DropsNone crypto s i ↔ ∀ j, droppedOf s (commit (receive crypto) s i).1 j = 0 := by
  constructor
  · intro none j
    refine droppedOf_kept fun key query found created => ?_
    cases outcome : receive crypto s i with
    | error e =>
      rw [commit_of_error outcome]
      exact Option.isSome_of_eq_some found
    | ok result =>
      rw [commit_of_success outcome]
      exact (receive_effect outcome).keeps found fun reaches => none reaches key query j found created
  · intro zero reaches key query owner found created
    by_contra old
    have gone := reaches.drops (not_le.mp old)
    have one := Dict.le_sumBy s.pendingQueries
      (fun key query => if createdBy owner query = true ∧ (commit (receive crypto) s i).1.pendingQueries.get? key = none
        then (1 : Int) else 0)
      (fun _ _ => by split <;> decide) found
    rw [if_pos ⟨created, gone⟩] at one
    have total := zero owner
    unfold droppedOf at total
    omega

/-- An owner without a waiting query has a counter of 0 and can open one. -/
theorem floodsTrack_iff (s : State) :
    FloodsTrack crypto s ↔ ∀ i, floodOf s.ownerInfos i - waitingOf s.pendingQueries i = 0 := by
  constructor
  · intro track i
    rw [track.counts i, sub_self]
  · intro equal
    refine ⟨fun i => sub_eq_zero.mp (equal i), ?_⟩
    intro now e owner found none unused inTime
    have flood := equal e.rootI
    rw [floodOf_of_get? found, none] at flood
    exact ⟨_, openQuery_iff.mpr ⟨inTime, .fresh unused (by omega)⟩⟩

/-- From a new wallet, the counters are right in all states of a run exactly if no message that reaches the
clean-up finds a record there that still waits for signatures. -/
theorem floods_track_iff (crypto : Crypto) (walletId : Uint 32) (n k : Uint 8) (ownersInfo : Dict 8 OwnerInfo)
    (unused : ∀ i owner, ownersInfo.get? i = some owner → owner.flood.val = 0) (inputs : List Input) :
    (∀ before after, inputs = before ++ after →
      FloodsTrack crypto (run (receive crypto) (createInitState walletId n k ownersInfo) before)) ↔
      Meets (receive crypto) (DropsNone crypto) (createInitState walletId n k ownersInfo) inputs := by
  apply always_iff_meets
  · intro s i track
    rw [floodsTrack_iff] at track ⊢
    rw [dropsNone_iff]
    refine forall_congr' fun j => ?_
    rw [commit_gap, track j, zero_add]
  · rw [floodsTrack_iff]
    intro i
    have none : floodOf ownersInfo i = 0 := by
      unfold floodOf
      cases found : ownersInfo.get? i with
      | none => rfl
      | some owner => simp [unused i owner found]
    change floodOf ownersInfo i - waitingOf Dict.empty i = 0
    rw [none]
    rfl

/-- Ten queries of owner 0 expire without a second signature; a message of owner 1 cleans them up. -/
def expiringQueries : List Input :=
  (List.range 10).map (fun j => sampleMessage 1000 0 [] (sampleQuery 4600 (Fin.ofNat _ j))) ++
    [sampleMessage 5000 1 [] (sampleQuery 8600 0)]

/-- Owner 0 has no query any more and is refused a new one, with exit code 39. -/
theorem expiringQueries_block :
    let s := run (receive sampleCrypto) sampleWallet expiringQueries
    waitingOf s.pendingQueries 0 = 0 ∧ floodOf s.ownerInfos 0 = 10 ∧
      (receive sampleCrypto s (sampleMessage 5000 0 [] (sampleQuery 8600 1))).map (fun _ => ()) =
        .error (.code 39) := by decide +kernel

theorem expired_queries_block_owner :
    let s := run (receive sampleCrypto) sampleWallet expiringQueries
    (waitingOf s.pendingQueries 0 = 0 ∧ floodOf s.ownerInfos 0 = 10 ∧
      (receive sampleCrypto s (sampleMessage 5000 0 [] (sampleQuery 8600 1))).map (fun _ => ()) = .error (.code 39)) ∧
      ¬ ∀ before after, expiringQueries = before ++ after →
        FloodsTrack sampleCrypto (run (receive sampleCrypto) sampleWallet before) := by
  have blocked := expiringQueries_block
  refine ⟨blocked, fun always => ?_⟩
  have equal := (always expiringQueries [] (List.append_nil _).symm).counts 0
  rw [blocked.1, blocked.2.1] at equal
  cases equal

theorem sampleOwners_unused (i : Nat) (owner : OwnerInfo) (found : sampleOwners.get? i = some owner) :
    owner.flood.val = 0 := by
  simp only [sampleOwners, Dict.get?_set] at found
  split at found
  · cases found
    rfl
  split at found
  · cases found
    rfl
  · split at found
    · cases found
      rfl
    · cases found

/-- A query that is completed in time. -/
theorem sample_floods_track :
    (∀ before after, [sampleMessage 1000 0 [] (sampleQuery 4600 0), sampleMessage 1001 1 [] (sampleQuery 4600 0)] =
        before ++ after → FloodsTrack sampleCrypto (run (receive sampleCrypto) sampleWallet before)) ↔
      Meets (receive sampleCrypto) (DropsNone sampleCrypto) sampleWallet
        [sampleMessage 1000 0 [] (sampleQuery 4600 0), sampleMessage 1001 1 [] (sampleQuery 4600 0)] :=
  floods_track_iff sampleCrypto 5 3 2 sampleOwners sampleOwners_unused _

end Step

end TonStaking.Guarantees.MultisigFlood
