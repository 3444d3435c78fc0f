import TonStaking.Source.Elector.Effects

/-!
# Unfreezing of past elections

Every record of past elections holds as much as its frozen stakes add up to, so
`unfreeze_all` never finds another sum and pays out exactly what it holds. The
hash of the active record is compared with `active_hash` when the next validator
set takes over; it is the active hash unless elections with the identifier of
the active record are conducted once more.
-/
namespace TonStaking.Guarantees.Unfreezing
open Tvm Source.Elector

section Definitions

/-- The frozen stakes of every record add up to its total. -/
def Sound (s : State) : Prop := ∀ id fs, s.pastElect.get? id = some fs → Balanced fs

/-- The record of the active validator set has the active hash. -/
def ActiveKnown (s : State) : Prop :=
  s.activeId.val ≠ 0 → ∀ fs, s.pastElect.get? s.activeId = some fs → fs.hash = s.activeHash

/-- What unfreezing a record with the given bonuses does, from any credits. -/
structure PaysOut (fs : PastElect) : Prop where
  errors : ∀ credits past id, past.get? id = some fs →
    ErrorsIn (· = .rangeChk) (unfreezeAll credits past id)
  succeeds : ∀ credits past id, past.get? id = some fs →
    (∀ addr, creditOf credits addr + payout (bonusShare fs) fs.frozen.entries addr < 2 ^ 120) →
    ∃ result, unfreezeAll credits past id = .ok result
  conserves : ∀ credits past id, past.get? id = some fs →
    ∀ after rest unused, unfreezeAll credits past id = .ok (after, rest, unused) →
      rest = past.erase id ∧ Unfreezes credits fs after unused

/-- The frozen stakes add up, the active record has the active hash, and every record pays out what
it holds whatever its bonuses are. -/
structure Unfreezable (s : State) : Prop where
  total : ∀ id fs, s.pastElect.get? id = some fs → stakeSum fs.frozen.entries = fs.totStakes
  active : ActiveKnown s
  paysOut : ∀ id fs, s.pastElect.get? id = some fs → ∀ bonuses, PaysOut { fs with bonuses }

variable (cellHash : Cell → Uint 256)

/-- Elections that the step conducts under the identifier of the active record elect the active set. -/
def KeepsActive (s : State) (i : Input) : Prop :=
  ∀ elect c, Conducting cellHash i s elect c → elect.electAt = s.activeId → s.activeId.val ≠ 0 →
    ∀ vset, electSet i.env s elect = .ok vset → cellHash vset = s.activeHash

end Definitions

section Records

variable {cellHash : Cell → Uint 256} {i : Input} {s after : State} {out : List OutMsg} {fs : PastElect}
  {elect : Elect} {c : Conducted}

theorem paysOut_of_balanced (balanced : Balanced fs) : PaysOut fs where
  errors credits past id found := by
    rw [unfreezeAll_found found]
    exact (unfreezeRecord_errorsIn balanced credits).bind fun _ _ => errorsIn_ok _
  succeeds credits past id found fits := by
    obtain ⟨after, unused, done⟩ := unfreezeRecord_of_fits balanced fits
    rw [unfreezeAll_found found, done]
    exact ⟨_, rfl⟩
  conserves credits past id found after rest unused h := by
    rw [unfreezeAll_found found] at h
    obtain ⟨⟨paid, kept⟩, done, h⟩ := of_bind h
    cases h
    exact ⟨rfl, unfreezeRecord_unfreezes balanced done⟩

/-- Frozen stakes and total decide whether a record is balanced. -/
theorem Sound.set {past : Dict 32 PastElect} {id : Nat}
    (sound : ∀ k fs, past.get? k = some fs → Balanced fs) (fits : id < 2 ^ 32) (balanced : Balanced fs) :
    ∀ k found, (past.set id fits fs).get? k = some found → Balanced found := by
  intro k found h
  rw [Dict.get?_set] at h
  split at h
  · cases h
    exact balanced
  · exact sound k found h

theorem change_sound (sound : Sound s) (change : Change s after) : Sound after := by
  cases change with
  | failed | forgotten | announced | abandoned => exact sound
  | retired found | adopted found =>
    exact Sound.set sound (Fin.isLt _) ⟨(sound _ _ found).total, (sound _ _ found).positive⟩
  | unfrozen =>
    intro id fs found
    rw [Dict.get?_erase] at found
    split at found
    · cases found
    · exact sound id fs found

theorem changes_sound (sound : Sound s) (changes : Changes s after) : Sound after := by
  induction changes with
  | refl => exact sound
  | tail _ change ih => exact change_sound ih change

theorem effect_sound (sound : Sound s) (effect : Effect cellHash i s after out) : Sound after := by
  cases effect with
  | quiet _ changes => exact changes_sound sound changes
  | returned | staked | donated | recovered => exact sound
  | rewarded _ found => exact Sound.set sound (Fin.isLt _) ⟨(sound _ _ found).total, (sound _ _ found).positive⟩
  | conducted conducting =>
    obtain ⟨_, _, _, past, o, conducts⟩ := conducting.conducts
    rw [Sound, conducts.state]
    refine Sound.set sound (Fin.isLt _) ⟨by rw [conducts.frozen, conducts.total, conducts.elections.frozen], ?_⟩
    have positive := conducts.elections.positive
    have total := conducts.total
    omega

theorem initial_sound : Sound initialState := by
  intro id fs found
  cases found

theorem change_activeKnown (known : ActiveKnown s) (change : Change s after) : ActiveKnown after := by
  cases change with
  | failed | forgotten | announced => exact known
  | abandoned => exact fun active => absurd rfl active
  | retired found hash =>
    intro active fs stored
    simp only [Dict.get?_set, if_pos, Option.some.injEq] at stored
    subst stored
    exact hash
  | adopted found =>
    intro active fs stored
    simp only [Dict.get?_set, if_pos, Option.some.injEq] at stored
    subst stored
    rfl
  | unfrozen =>
    intro active fs stored
    rw [Dict.get?_erase] at stored
    split at stored
    · cases stored
    · exact known active fs stored

theorem changes_activeKnown (known : ActiveKnown s) (changes : Changes s after) : ActiveKnown after := by
  induction changes with
  | refl => exact known
  | tail _ change ih => exact change_activeKnown ih change

theorem conducted_activeKnown_iff (known : ActiveKnown s)
    (conducting : Conducting cellHash i s elect c) : ActiveKnown c.state ↔ KeepsActive cellHash s i := by
  obtain ⟨_, _, _, past, o, conducts⟩ := conducting.conducts
  have id : c.state.activeId = s.activeId := by rw [conducts.state]
  have hash : c.state.activeHash = s.activeHash := by rw [conducts.state]
  obtain ⟨vset, elected, recorded⟩ := conducts.hash
  constructor
  · intro after elect' c' conducting' same active vset' elected'
    cases conducting.current.symm.trans conducting'.current
    cases elected.symm.trans elected'
    rw [← hash, ← recorded]
    apply after (by rwa [id])
    rw [id, ← same, conducts.state, Dict.get?_set, if_pos rfl]
  · intro keeps active fs found
    rw [id] at active found
    rw [hash]
    by_cases same : elect.electAt = s.activeId
    · rw [conducts.state, Dict.get?_set, if_pos (congrArg Fin.val same.symm)] at found
      rw [← Option.some.inj found, recorded]
      exact keeps elect c conducting same active vset elected
    · have different : s.activeId.val ≠ elect.electAt.val := fun equal => same (Fin.ext equal).symm
      rw [conducts.state, Dict.get?_set, if_neg different] at found
      exact known active fs found

theorem keepsActive_of_idle (idle : ∀ elect c, ¬ Conducting cellHash i s elect c) : KeepsActive cellHash s i :=
  fun elect c conducting => absurd conducting (idle elect c)

/-- A transaction keeps the active hash known exactly under the condition. -/
theorem effect_activeKnown_iff (known : ActiveKnown s) (effect : Effect cellHash i s after out) :
    ActiveKnown after ↔ KeepsActive cellHash s i := by
  cases effect with
  | quiet idle changes =>
    exact ⟨fun _ => keepsActive_of_idle idle, fun _ => changes_activeKnown known changes⟩
  | returned message | staked message | donated message | recovered message =>
    exact ⟨fun _ => keepsActive_of_idle (not_conducting_of_message message), fun _ => known⟩
  | rewarded message found =>
    refine ⟨fun _ => keepsActive_of_idle (not_conducting_of_message message), fun _ active fs stored => ?_⟩
    simp only [Dict.get?_set, if_pos, Option.some.injEq] at stored
    have same := known active _ found
    rw [← stored]
    exact same
  | conducted conducting => exact conducted_activeKnown_iff known conducting

variable {checkSignature : List Bool → List Bool → Uint 256 → Bool} {s : State}

theorem unfreezable_of_sound (sound : Sound s) (known : ActiveKnown s) : Unfreezable s where
  total id fs found := (sound id fs found).total
  active := known
  paysOut id fs found _ :=
    paysOut_of_balanced ⟨(sound id fs found).total, (sound id fs found).positive⟩

theorem receive_sound (s : State) (i : Input) (after : State) (out : List OutMsg) (sound : Sound s)
    (h : receive cellHash checkSignature s i = .ok (after, out)) : Sound after :=
  effect_sound sound (receive_effect h)

theorem initial_activeKnown : ActiveKnown initialState := fun active => absurd rfl active

/-- One transaction keeps the active hash known exactly under the condition. -/
theorem commit_activeKnown_iff (known : ActiveKnown s) (i : Input) :
    ActiveKnown (commit (receive cellHash checkSignature) s i).1 ↔ KeepsActive cellHash s i := by
  cases outcome : receive cellHash checkSignature s i with
  | error e =>
    rw [commit_of_error outcome]
    refine ⟨fun _ => keepsActive_of_idle fun elect c conducting => ?_, fun _ => known⟩
    cases outcome.symm.trans conducting.receive
  | ok result =>
    rw [commit_of_success outcome]
    exact effect_activeKnown_iff known (receive_effect outcome)

/-- Every record pays out what it holds and the active hash is known in all states of a run, exactly
if no step replaces the active record by elections of another set. -/
theorem unfreezable_iff (cellHash : Cell → Uint 256) (checkSignature : List Bool → List Bool → Uint 256 → Bool)
    (inputs : List Input) :
    (∀ before after, inputs = before ++ after →
      Unfreezable (run (receive cellHash checkSignature) initialState before)) ↔
    Meets (receive cellHash checkSignature) (KeepsActive cellHash) initialState inputs := by
  have sound (before : List Input) : Sound (run (receive cellHash checkSignature) initialState before) :=
    run_preserves receive_sound initialState before initial_sound
  have active : (∀ before after, inputs = before ++ after →
      ActiveKnown (run (receive cellHash checkSignature) initialState before)) ↔ _ :=
    always_iff_meets (P := ActiveKnown) (fun _ i known => commit_activeKnown_iff known i) initialState initial_activeKnown inputs
  rw [← active]
  constructor
  · intro always before after split
    exact (always before after split).active
  · intro always before after split
    exact unfreezable_of_sound (sound before) (always before after split)

end Records

/-- A masterchain with the configuration contract at 5 and the elector at 7, one validator, elections
without any delay and terms of no length. -/
def sampleConfig (current : Cell) : Nat → Option Cell
  | 0 => some (.mk (bitsOf 256 5) [])
  | 1 => some (.mk (bitsOf 256 7) [])
  | 15 => some (.mk (bitsOf 128 0) [])
  | 16 => some (.mk (bitsOf 16 1 ++ bitsOf 16 1 ++ bitsOf 16 1) [])
  | 17 => some (.mk (bitsOf 4 0 ++ bitsOf 4 8 ++ bitsOf 64 1000000000000000000 ++ bitsOf 4 0 ++ bitsOf 32 0x10000) [])
  | 34 => some current
  | _ => none

def sampleEnv (now : Uint 32) (current : Cell) : Env where
  now := now
  config := sampleConfig current
  myAddress := accountAddress ⟨-1, master_fits⟩ 7

def sampleTick (now : Uint 32) (current : Cell) : Input where
  env := sampleEnv now current
  message := none

/-- A stake of 10 Gram from address 9, with a query that asks for a confirmation. -/
def sampleStake (now : Uint 32) (current : Cell) : Input where
  env := sampleEnv now current
  message := some {
    flags := 2, src := accountAddress ⟨-1, master_fits⟩ 9, value := 11000000000, balance := 100000000000
    body := ⟨bitsOf 32 0x4e73744b ++ bitsOf 64 1 ++ bitsOf 256 3 ++ bitsOf 32 1000 ++ bitsOf 32 0x10000 ++
      bitsOf 256 4, [.mk (bitsOf 512 0) []]⟩ }

/-- The first validator set, valid until 1000. -/
def sampleSet : Cell := .mk (bitsOf 8 0x12 ++ bitsOf 32 0 ++ bitsOf 32 1000) []

/-- Tells apart the validator sets of the sample runs. -/
def sampleHash (c : Cell) : Uint 256 := Fin.ofNat _ (natOf c.bits)

/-- All signatures of the sample runs are valid. -/
def sampleSignature (_ _ : List Bool) (_ : Uint 256) : Bool := true

/-- Elections with the identifier 1000 are announced, receive a stake and are conducted. -/
def sampleElections : List Input := [sampleTick 1000 sampleSet, sampleStake 1001 sampleSet, sampleTick 1002 sampleSet]

/-- The validator set that these elections send to the configuration contract. -/
def electedSet : Cell :=
  match (commit (receive sampleHash sampleSignature)
    (run (receive sampleHash sampleSignature) initialState (sampleElections.take 2)) (sampleTick 1002 sampleSet)).2 with
  | [o] => o.body.refs.headD sampleSet
  | _ => sampleSet

/-- The elected set takes over; its term has no length, so elections with the identifier 1000
are announced and conducted again. -/
def sampleReelections : List Input := sampleElections ++
  [sampleTick 1003 electedSet, sampleTick 1004 electedSet, sampleStake 1005 electedSet, sampleTick 1070 electedSet]

/-- The second elections replace the record of the active set: its hash is not the active one, and the
stake frozen for the first elections is in no record. -/
theorem active_record_replaced :
    let s := run (receive sampleHash sampleSignature) initialState sampleReelections
    s.activeId.val = 1000 ∧ s.pastElect.sumBy (fun _ fs => fs.totStakes.val) = 10000000000 ∧ ¬ Unfreezable s := by
  intro s
  have id : s.activeId.val = 1000 := by decide +kernel
  have different : (s.pastElect.get? 1000).any (fun fs => decide (fs.hash ≠ s.activeHash)) = true := by
    decide +kernel
  refine ⟨id, by decide +kernel, fun unfreezable => ?_⟩
  have known := unfreezable.active (by rw [id]; decide)
  rw [id] at known
  cases found : s.pastElect.get? 1000 with
  | none =>
    rw [found] at different
    cases different
  | some fs =>
    rw [found] at different
    simp [known fs found] at different

end TonStaking.Guarantees.Unfreezing
