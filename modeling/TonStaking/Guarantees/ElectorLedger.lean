import TonStaking.Guarantees.Unfreezing

/-!
# The ledger of the elector

Credits, past elections, `grams` and the stakes of open elections, compared with
what the elector received in messages and explicitly sent. All transactions keep
the difference or widen it, except the tick that conducts the elections: the
2^30 nanogram of its message to the configuration contract come out of no part
of the ledger.
-/
namespace TonStaking.Guarantees.ElectorLedger
open Tvm Source.Elector Unfreezing

section Definitions

def held (fs : PastElect) : Int := fs.totStakes + fs.bonuses

def pastSum (past : Dict 32 PastElect) : Int := past.sumBy fun _ fs => held fs

/-- The stakes of elections that are not finished. -/
def openStakes : Option Elect → Int
  | none => 0
  | some elect => if elect.finished then 0 else memberSum elect.members

def ledger (s : State) : Int :=
  creditSum s.credits + pastSum s.pastElect + s.grams + openStakes s.elect

def inboundValue (i : Input) : Int :=
  match i.message with
  | none => 0
  | some m => m.value

/-- `flags & 2`: the message is returned if its transaction fails. -/
def bounces (i : Input) : Bool :=
  match i.message with
  | none => false
  | some m => m.flags.val.testBit 1

/-- A message of mode 64 carries the inbound value besides its own. -/
def sentValue (i : Input) (o : OutMsg) : Int :=
  o.value + if o.mode.testBit 6 then inboundValue i else 0

/-- Total value received and total value explicitly sent. -/
structure Flow where
  received : Int
  sent : Int

variable (cellHash : Cell → Uint 256) (checkSignature : List Bool → List Bool → Uint 256 → Bool)

/-- A message that bounces is not received. -/
def note (s : State) (f : Flow) (i : Input) : Flow :=
  match receive cellHash checkSignature s i with
  | .ok (_, out) => ⟨f.received + inboundValue i, f.sent + (out.map (sentValue i)).sum⟩
  | .error _ => { f with received := f.received + if bounces i then 0 else inboundValue i }

def flow (inputs : List Input) : Flow :=
  track (receive cellHash checkSignature) (note cellHash checkSignature) initialState ⟨0, 0⟩ inputs

def Covered (s : State) (f : Flow) : Prop := ledger s ≤ f.received - f.sent

/-- What the stakes of the members exceed the largest stake by. -/
def excess (maxStake : Grams) (members : Dict 256 Member) : Int := memberSum members - cappedSum maxStake members

/-- What the past elections with the identifier hold. -/
def heldBy (past : Dict 32 PastElect) (id : Nat) : Int := ((past.get? id).map held).getD 0

/-- Conducted elections find the value of the message to the configuration contract: in what was received
and is not in the ledger, in stakes above the largest one and in a record that they replace. -/
def Affords (s : State) (f : Flow) (i : Input) : Prop :=
  ∀ elect c maxStake, Conducting cellHash i s elect c → maxStakeOf i.env = .ok maxStake →
    ledger s + 2 ^ 30 ≤ f.received - f.sent + excess maxStake elect.members + heldBy s.pastElect elect.electAt

end Definitions

section Steps

variable {cellHash : Cell → Uint 256} {checkSignature : List Bool → List Bool → Uint 256 → Bool}
variable {i : Input} {s after : State} {out : List OutMsg} {elect : Elect}

theorem inboundValue_nonneg (i : Input) : 0 ≤ inboundValue i := by
  unfold inboundValue
  split <;> omega

theorem openStakes_some (elect : Elect) :
    openStakes (some elect) = if elect.finished then 0 else memberSum elect.members := rfl

theorem pastSum_set (past : Dict 32 PastElect) (id : Nat) (fits : id < 2 ^ 32) (fs : PastElect) :
    pastSum (past.set id fits fs) = pastSum past + held fs - heldBy past id := by
  unfold pastSum heldBy
  rw [Dict.sumBy_set]

theorem heldBy_of_get? {past : Dict 32 PastElect} {id : Nat} {fs : PastElect}
    (found : past.get? id = some fs) : heldBy past id = held fs := by
  simp [heldBy, found]

theorem openStakes_unfinished (current : s.elect = some elect)
    (unfinished : elect.finished = false) : openStakes s.elect = memberSum elect.members := by
  simp [openStakes_some, current, unfinished]

theorem change_ledger (sound : Sound s) (change : Change s after) : ledger after = ledger s := by
  cases change with
  | failed current unfinished =>
    simp [ledger, openStakes, current, unfinished]
  | forgotten current finished =>
    simp [ledger, openStakes, current, finished]
  | announced none empty =>
    simp [ledger, openStakes, none, empty, memberSum, Dict.sumBy, Dict.empty]
  | abandoned => rfl
  | retired found =>
    have past := pastSum_set s.pastElect s.activeId.val s.activeId.isLt
    simp only [ledger, past, heldBy_of_get? found, held]
    omega
  | @adopted id fs found grams bonuses moved =>
    simp only [ledger, pastSum_set, heldBy_of_get? found, held]
    omega
  | @unfrozen id fs found credits unused released grams kept =>
    have conserved := (unfreezeRecord_unfreezes (sound id fs found) released).conserved
    have past : pastSum (s.pastElect.erase id) = pastSum s.pastElect - held fs := Dict.sumBy_erase _ _ found
    simp only [ledger, past, held]
    omega

theorem changes_ledger (sound : Sound s) (changes : Changes s after) : ledger after = ledger s := by
  induction changes with
  | refl => rfl
  | tail before change ih => rw [change_ledger (changes_sound sound before) change, ih]

theorem staked_memberSum {value : Int} {pubkey : Uint 256} {member : Member}
    (added : StakeAdded elect value pubkey member) :
    memberSum (elect.members.set pubkey.val pubkey.isLt member) = memberSum elect.members + value - 1000000000 := by
  have stake := added.stake
  unfold memberSum
  rw [Dict.sumBy_set]
  cases old : elect.members.get? pubkey with
  | none =>
    simp only [old, Option.map_none, Option.getD_none] at stake
    simp
    omega
  | some mem =>
    simp only [old, Option.map_some, Option.getD_some] at stake
    simp
    omega

/-- Conducted elections keep what they do not drop. -/
theorem conducted_ledger {c : Conducted} (conducting : Conducting cellHash i s elect c) :
    (c.sent.map (sentValue i)).sum = 2 ^ 30 ∧ ∃ maxStake, maxStakeOf i.env = .ok maxStake ∧
      ledger c.state + excess maxStake elect.members + heldBy s.pastElect elect.electAt = ledger s := by
  obtain ⟨_, maxStake, r, past, o, conducts⟩ := conducting.conducts
  have value : ((o.value : Nat) : Int) = 2 ^ 30 := by rw [conducts.value]; rfl
  refine ⟨by simp [conducts.sent, sentValue, conducts.mode, value, Nat.testBit], maxStake, conducts.limit, ?_⟩
  have moved := conducts.elections.moved
  have total := conducts.total
  have bonuses := conducts.bonuses
  have before := openStakes_unfinished conducting.current conducts.unfinished
  rw [conducts.state]
  simp only [ledger, pastSum_set, openStakes_some, if_true, held, excess]
  omega

/-- A transaction that conducts no elections keeps the ledger covered. -/
theorem effect_ledger (sound : Sound s) (idle : ∀ elect c, ¬ Conducting cellHash i s elect c)
    (effect : Effect cellHash i s after out) :
    ledger after + (out.map (sentValue i)).sum ≤ ledger s + inboundValue i := by
  cases effect with
  | quiet _ changes =>
    have same := changes_ledger sound changes
    have nonneg := inboundValue_nonneg i
    simp only [List.map_nil, List.sum_nil]
    omega
  | returned message value mode =>
    simp [sentValue, value, mode, Nat.testBit]
  | @staked m message elect current pubkey member added totalStake out sent =>
    have stakes := staked_memberSum added
    have before := openStakes_unfinished current added.unfinished
    have spent : (out.map (sentValue i)).sum ≤ 1000000000 := by
      rcases sent with rfl | ⟨o, rfl, value, mode⟩
      · simp
      · have gram : ((confirmationValue : Nat) : Int) = 1000000000 := rfl
        simp [sentValue, value, mode, gram, Nat.testBit]
    simp only [ledger, before, openStakes_some, stakes, inboundValue, message, Bool.false_eq_true, if_false]
    omega
  | donated message sum =>
    simp only [ledger, inboundValue, message, List.map_nil, List.sum_nil]
    omega
  | rewarded message found sum =>
    simp only [ledger, pastSum_set, heldBy_of_get? found, held, inboundValue, message, List.map_nil, List.sum_nil]
    omega
  | @recovered m message addr amount found o value mode =>
    have credits : creditSum (s.credits.erase addr) = creditSum s.credits - amount := Dict.sumBy_erase _ _ found
    simp [ledger, credits, sentValue, value, mode, Nat.testBit]
    omega
  | conducted conducting => exact absurd conducting (idle _ _)

theorem initial_covered : Covered initialState ⟨0, 0⟩ := by
  have empty : ledger initialState = 0 := rfl
  simp [Covered, empty]

/-- One transaction keeps the ledger covered exactly if it affords the message that it sends to the
configuration contract. -/
theorem commit_covered_iff {s : State} {f : Flow} (sound : Sound s) (covered : Covered s f) (i : Input) :
    Covered (commit (receive cellHash checkSignature) s i).1 (note cellHash checkSignature s f i) ↔
      Affords cellHash s f i := by
  by_cases conducts : ∃ elect c, Conducting cellHash i s elect c
  · obtain ⟨elect, c, conducting⟩ := conducts
    obtain ⟨sent, maxStake, limit, kept⟩ := conducted_ledger conducting
    have none : inboundValue i = 0 := by simp [inboundValue, conducting.tick]
    rw [commit_of_success conducting.receive]
    simp only [Covered, note, conducting.receive]
    constructor
    · intro after elect' c' maxStake' conducting' limit'
      cases conducting.current.symm.trans conducting'.current
      cases limit.symm.trans limit'
      omega
    · intro affords
      have enough := affords elect c maxStake conducting limit
      omega
  · have idle (elect : Elect) (c : Conducted) : ¬ Conducting cellHash i s elect c :=
      fun conducting => conducts ⟨elect, c, conducting⟩
    refine ⟨fun _ elect c _ conducting => absurd conducting (idle elect c), fun _ => ?_⟩
    unfold Covered at covered
    cases outcome : receive cellHash checkSignature s i with
    | error e =>
      rw [commit_of_error outcome]
      simp only [Covered, note, outcome]
      have nonneg : 0 ≤ if bounces i then 0 else inboundValue i := by
        have inbound := inboundValue_nonneg i
        split <;> omega
      omega
    | ok result =>
      have step := effect_ledger sound idle (receive_effect outcome)
      rw [commit_of_success outcome]
      simp only [Covered, note, outcome]
      omega

/-- The ledger is covered in all states of a run exactly if every tick that conducts elections affords
its message to the configuration contract. -/
theorem ledger_covered_iff (cellHash : Cell → Uint 256)
    (checkSignature : List Bool → List Bool → Uint 256 → Bool) (inputs : List Input) :
    (∀ before after, inputs = before ++ after →
      Covered (run (receive cellHash checkSignature) initialState before)
        (flow cellHash checkSignature before)) ↔
    ∀ before i after, inputs = before ++ i :: after →
      Affords cellHash (run (receive cellHash checkSignature) initialState before)
        (flow cellHash checkSignature before) i := by
  have keeps (s : State) (f : Flow) (i : Input) (now : Sound s ∧ Covered s f) :
      (Sound (commit (receive cellHash checkSignature) s i).1 ∧
        Covered (commit (receive cellHash checkSignature) s i).1 (note cellHash checkSignature s f i)) ↔
      Affords cellHash s f i := by
    rw [commit_covered_iff now.1 now.2 i]
    exact and_iff_right (commit_preserves now.1 fun after out => receive_sound s i after out now.1)
  have always := track_always_iff keeps initialState ⟨0, 0⟩ ⟨initial_sound, initial_covered⟩ inputs
  unfold flow
  rw [← always]
  constructor
  · intro covered before after split
    exact ⟨run_preserves receive_sound initialState before initial_sound, covered before after split⟩
  · intro both before after split
    exact (both before after split).2

end Steps

/-- The first elections: a stake of 10 Gram was received with 11 Gram, a confirmation of 1 Gram and the
message to the configuration contract were sent, and the whole stake is in the past elections. -/
theorem conducted_elections_uncovered :
    let s := run (receive sampleHash sampleSignature) initialState sampleElections
    let f := flow sampleHash sampleSignature sampleElections
    ledger s = 10000000000 ∧ f.received = 11000000000 ∧ f.sent = 1000000000 + 2 ^ 30 ∧ ¬ Covered s f := by
  intro s f
  have owed : ledger s = 10000000000 := by decide +kernel
  have received : f.received = 11000000000 := by decide +kernel
  have sent : f.sent = 1000000000 + 2 ^ 30 := by decide +kernel
  rw [Covered, owed, received, sent]
  decide

end TonStaking.Guarantees.ElectorLedger
