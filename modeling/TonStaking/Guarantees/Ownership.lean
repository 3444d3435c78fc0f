import TonStaking.Source.StakingPool.RequestEffect

/-!
# Two-step ownership

The owner names a pending owner (option 32), who then takes over (option 16). The
field `pending_owner` holds 0 while nobody is named, and 0 is a legal masterchain
address: its account can take over a pool without being named.
-/
namespace TonStaking.Guarantees.Ownership
open Tvm Source.StakingPool

/-- A `SETC` message with option 32: who sent it and whom it names. -/
structure Nomination where
  sender : Int
  named : Uint 256
  deriving DecidableEq

section Definitions

variable (cellHash : Cell → Uint 256)

/-- The standing nomination after one more input: option 32 replaces it, option 16
without option 32 clears it. -/
def nominate (s : State) (known : Option Nomination) (i : Input) : Option Nomination :=
  match i.request, i.sender, receive cellHash s i with
  | some (.setConfig option inMsg), .ok (_, sender), .ok _ =>
    if option.val.testBit 5 then (namedOwner option inMsg).toOption.map fun named => ⟨sender, named⟩
    else if option.val.testBit 4 then none
    else known
  | _, _, _ => known

/-- The last nomination of a run that no later `SETC` message has replaced. -/
def nomination (start : State) (inputs : List Input) : Option Nomination :=
  track (receive cellHash) (nominate cellHash) start none inputs

/-- A `SETC` message from the masterchain account with this address. -/
def SetConfigFrom (i : Input) (address : Uint 256) : Prop :=
  (∃ option inMsg, i.request = some (.setConfig option inMsg)) ∧ i.sender = .ok (-1, (address : Int))

/-- The four settings only the owner may change. -/
def SameSettings (a b : PoolConfig) : Prop :=
  b.transactionFee = a.transactionFee ∧ b.minAmount = a.minAmount ∧ b.ownerFee = a.ownerFee ∧
    b.penaltyFee = a.penaltyFee

/-- What one more input `i` may do to the configuration after the run `before`. The owner
that option 32 is checked against is the one option 16 of the same message has set. -/
structure StepAuthorised (start : State) (before : List Input) (i : Input) (a b : PoolConfig) :
    Prop where
  handover : b.owner ≠ a.owner →
    nomination cellHash start before = some ⟨(a.owner : Int), b.owner⟩
  settings : ¬ SameSettings a b → SetConfigFrom i a.owner
  pending : b.pendingOwner ≠ a.pendingOwner → SetConfigFrom i b.owner ∨
    (b.pendingOwner = 0 ∧ SetConfigFrom i a.pendingOwner)

/-- Every change of the configuration along the run is authorised. -/
def TwoStepOwnership (start : State) (inputs : List Input) : Prop :=
  ∀ before i after, inputs = before ++ i :: after →
    StepAuthorised cellHash start before i (run (receive cellHash) start before).poolConfig
      (run (receive cellHash) start (before ++ [i])).poolConfig

end Definitions

/-- The account with address 0 does not take over while nobody is named. -/
def NoSentinelTakeover (s : State) (i : Input) : Prop :=
  ∀ option inMsg, i.request = some (.setConfig option inMsg) → option.val.testBit 4 = true →
    i.sender = .ok (-1, 0) → s.poolConfig.pendingOwner ≠ 0

variable {cellHash : Cell → Uint 256}
variable {s after start : State} {i : Input} {out : List OutMsg} {known : Option Nomination}

/-- Only `SETC` touches anything but the nominators. -/
theorem receive_config (indexed : Indexed s) (success : receive cellHash s i = .ok (after, out)) :
    (after.poolConfig = { s.poolConfig with nominators := after.poolConfig.nominators } ∧
      ∀ option inMsg, i.request ≠ some (.setConfig option inMsg)) ∨
    ∃ option inMsg srcWc srcAddr, i.request = some (.setConfig option inMsg) ∧
      i.sender = .ok (srcWc, srcAddr) ∧
      SetConfigEffect s.poolConfig srcWc srcAddr option inMsg after.poolConfig := by
  rcases receive_effect indexed success with ⟨rfl, -, none⟩ | ⟨m, request, rfl, asked, effect⟩
  · refine .inl ⟨rfl, fun option inMsg some => ?_⟩
    rw [none] at some
    cases some
  rw [asked]
  cases effect with
  | ignored | ownersTransfer owner => exact .inl ⟨rfl, by simp⟩
  | deposit effect | redeem effect | activate effect | fetch effect | gotBalance effect =>
    rw [effect.state]
    exact .inl ⟨rfl, by simp⟩
  | newPeriod effect =>
    rw [effect.poolConfig]
    exact .inl ⟨rfl, by simp⟩
  | setConfig parsed effect => exact .inr ⟨_, _, _, _, rfl, parsed, effect⟩

/-- The nomination agrees with the stored owners. -/
def Standing (s : State) : Option Nomination → Prop
  | none => s.poolConfig.pendingOwner = 0
  | some x => x.sender = s.poolConfig.owner ∧ x.named = s.poolConfig.pendingOwner

theorem nominate_of_other (known : Option Nomination)
    (other : ∀ option inMsg, i.request ≠ some (.setConfig option inMsg)) :
    nominate cellHash s known i = known := by
  unfold nominate
  split
  · next option inMsg _ _ _ asked _ _ => exact absurd asked (other option inMsg)
  · rfl

theorem receive_standing (indexed : Indexed s) (standing : Standing s known)
    (success : receive cellHash s i = .ok (after, out)) :
    Standing after (nominate cellHash s known i) := by
  rcases receive_config indexed success with ⟨same, other⟩ |
    ⟨option, inMsg, srcWc, srcAddr, asked, sent, effect⟩
  · rw [nominate_of_other known other]
    cases known with
    | none | some x =>
      rw [Standing, same]
      exact standing
  · simp only [nominate, asked, sent, success]
    rcases effect.pendingOwner with ⟨bit5, -, addr, named⟩ | ⟨bit5, cleared | ⟨bit4, kept⟩⟩
    · rw [if_pos bit5, named]
      exact ⟨addr, rfl⟩
    · rw [bit5, cleared.1, if_neg (by decide), if_pos rfl]
      exact cleared.2
    -- neither option: the owner and the pending owner stay as they are
    rw [bit5, bit4, if_neg (by decide), if_neg (by decide)]
    have owner : after.poolConfig.owner = s.poolConfig.owner := by
      rcases effect.owner with ⟨-, same⟩ | ⟨set, -⟩
      · exact same
      · rw [bit4] at set
        cases set
    cases known with
    | none => exact kept.trans standing
    | some x =>
      rw [Standing, owner, kept]
      exact standing

theorem commit_standing (indexed : Indexed s) (standing : Standing s known) (i : Input) :
    Standing (commit (receive cellHash) s i).1 (nominate cellHash s known i) := by
  cases outcome : receive cellHash s i with
  | error e =>
    have same : nominate cellHash s known i = known := by
      simp [nominate, outcome]
    rw [same, commit_of_error outcome]
    exact standing
  | ok result =>
    rw [commit_of_success outcome]
    exact receive_standing indexed standing outcome

theorem run_standing (indexed : Indexed start) (standing : Standing start none) (inputs : List Input) :
    Standing (run (receive cellHash) start inputs) (nomination cellHash start inputs) := by
  refine (track_preserves (R := fun s known => Indexed s ∧ Standing s known) ?_ start none inputs
    ⟨indexed, standing⟩).2
  rintro s known i ⟨indexed, standing⟩
  exact ⟨commit_indexed indexed i, commit_standing indexed standing i⟩

theorem receive_authorised {before : List Input} (indexed : Indexed s)
    (standing : Standing s (nomination cellHash start before)) (guarded : NoSentinelTakeover s i)
    (success : receive cellHash s i = .ok (after, out)) :
    StepAuthorised cellHash start before i s.poolConfig after.poolConfig := by
  rcases receive_config indexed success with ⟨same, -⟩ |
    ⟨option, inMsg, srcWc, srcAddr, asked, sent, effect⟩
  · rw [same]
    constructor
    · exact fun changed => absurd rfl changed
    · exact fun changed => absurd ⟨rfl, rfl, rfl, rfl⟩ changed
    · exact fun changed => absurd rfl changed
  constructor
  · intro changed
    rcases effect.owner with ⟨-, same⟩ | ⟨bit4, wc, addr, taken⟩
    · exact absurd same changed
    cases known : nomination cellHash start before with
    | none =>
      -- nobody is named, so the sender would be the account with address 0
      rw [known] at standing
      rw [wc, addr, standing] at sent
      exact absurd standing (guarded option inMsg asked bit4 sent)
    | some x =>
      rw [known] at standing
      rw [taken, ← standing.1, ← standing.2]
  · intro changed
    refine ⟨⟨option, inMsg, asked⟩, ?_⟩
    by_contra other
    have stranger : ¬ (srcWc = -1 ∧ srcAddr = s.poolConfig.owner) := by
      rintro ⟨rfl, rfl⟩
      exact other sent
    apply changed
    exact ⟨effect.transactionFee.resolve_right fun h => stranger h.2,
      effect.minAmount.resolve_right fun h => stranger h.2,
      effect.ownerFee.resolve_right fun h => stranger h.1.2,
      effect.penaltyFee.resolve_right fun h => stranger h.1.2⟩
  · intro changed
    rcases effect.pendingOwner with ⟨-, wc, addr, -⟩ | ⟨-, ⟨bit4, cleared⟩ | ⟨-, kept⟩⟩
    · rw [wc, addr] at sent
      exact .inl ⟨⟨option, inMsg, asked⟩, sent⟩
    · rcases effect.owner with ⟨clear, -⟩ | ⟨-, wc, addr, -⟩
      · rw [bit4] at clear
        cases clear
      · rw [wc, addr] at sent
        exact .inr ⟨cleared, ⟨option, inMsg, asked⟩, sent⟩
    · exact absurd kept changed

/-- Without a takeover by the unnamed address 0, every owner was named by the owner before,
and the settings change only by messages of the owner. -/
theorem two_step_ownership_without_sentinel {poolConfig : PoolConfig} {init : InitMessage}
    {balance : Grams} {start : State} (initialised : tryInit cellHash 0 poolConfig init balance = .ok start)
    (inputs : List Input) (guarded : Meets (receive cellHash) NoSentinelTakeover start inputs) :
    TwoStepOwnership cellHash start inputs := by
  intro before i after split
  rw [split] at guarded
  have startIndexed : Indexed start := tryInit_indexed initialised
  have initial : Standing start none := by
    obtain ⟨first, opened, sub, hash, effect⟩ := tryInit_effects initialised
    rw [Standing, effect.config]
  have indexed : Indexed (run (receive cellHash) start before) := run_indexed startIndexed before
  have standing : Standing (run (receive cellHash) start before) (nomination cellHash start before) :=
    run_standing startIndexed initial before
  rw [run_snoc]
  cases outcome : receive cellHash (run (receive cellHash) start before) i with
  | error e =>
    rw [commit_of_error outcome]
    constructor
    · exact fun changed => absurd rfl changed
    · exact fun changed => absurd ⟨rfl, rfl, rfl, rfl⟩ changed
    · exact fun changed => absurd rfl changed
  | ok result =>
    rw [commit_of_success outcome]
    exact receive_authorised indexed standing guarded.at outcome

/-- The owner 7 names 9, and 9 takes over. -/
theorem sample_two_step_ownership :
    (run (receive sampleHash) sampleState
        [sampleSetConfig 7 32 (Uint.bits (9 : Uint 256)), sampleSetConfig 9 16 []]).poolConfig.owner = 9 ∧
      TwoStepOwnership sampleHash sampleState
        [sampleSetConfig 7 32 (Uint.bits (9 : Uint 256)), sampleSetConfig 9 16 []] := by
  refine ⟨by decide +kernel, two_step_ownership_without_sentinel sample_initialised _ ?_⟩
  refine ⟨?_, ?_, trivial⟩
  · intro option inMsg _ _ sent
    cases sent
  · intro option inMsg _ _ sent
    cases sent

/-- Nobody is named in a new pool, and the account with address 0 takes it over. -/
theorem sentinel_takes_over : ¬ TwoStepOwnership sampleHash sampleState [sampleSetConfig 0 16 []] := by
  intro safe
  have step := (safe [] (sampleSetConfig 0 16 []) [] rfl).handover
  have changed : (run (receive sampleHash) sampleState ([] ++ [sampleSetConfig 0 16 []])).poolConfig.owner ≠
      (run (receive sampleHash) sampleState []).poolConfig.owner := by
    decide +kernel
  cases step changed

end TonStaking.Guarantees.Ownership
