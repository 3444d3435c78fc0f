import Mathlib.Logic.Relation
import TonStaking.Source.Elector.Loops
import TonStaking.Source.Elector.Ticktock

/-!
# Elector: effects of a transaction

What a successful transaction does to the data and what it sends. Bookkeeping
that moves no money into or out of the contract is a chain of elementary
changes; the other transactions are one constructor each.
-/
namespace TonStaking.Source.Elector
open Tvm

/-- An elementary change of the data that no message brings and that sends nothing. -/
inductive Change : State → State → Prop
  | failed {s : State} {elect : Elect} (current : s.elect = some elect) (unfinished : elect.finished = false)
      (minStake : Grams) :
      Change s { s with elect := some { elect with minStake, failed := true, finished := false } }
  | forgotten {s : State} {elect : Elect} (current : s.elect = some elect) (finished : elect.finished = true) :
      Change s { s with elect := none }
  | announced {s : State} (none : s.elect = none) {elect : Elect} (empty : elect.members = Dict.empty) :
      Change s { s with elect := some elect }
  | retired {s : State} {fs : PastElect} (found : s.pastElect.get? s.activeId = some fs)
      (known : fs.hash = s.activeHash) (unfreezeAt : Uint 32) :
      Change s { s with pastElect := s.pastElect.set s.activeId.val s.activeId.isLt { fs with unfreezeAt } }
  | abandoned {s : State} (hash : Uint 256) : Change s { s with activeId := 0, activeHash := hash }
  | adopted {s : State} {id : Uint 32} {fs : PastElect} (found : s.pastElect.get? id = some fs)
      {grams bonuses : Grams} (moved : (grams : Int) + bonuses = s.grams + fs.bonuses) :
      Change s { s with
        pastElect := s.pastElect.set id.val id.isLt { fs with bonuses }, grams, activeId := id
        activeHash := fs.hash }
  | unfrozen {s : State} {id : Nat} {fs : PastElect} (found : s.pastElect.get? id = some fs)
      {credits : Dict 256 Grams} {unused : Int} (released : unfreezeRecord s.credits fs = .ok (credits, unused))
      {grams : Grams} (kept : (grams : Int) = s.grams + unused) :
      Change s { s with credits, pastElect := s.pastElect.erase id, grams }

abbrev Changes : State → State → Prop := Relation.ReflTransGen Change

/-- What a new stake adds to the members of an election. -/
structure StakeAdded (elect : Elect) (msgValue : Int) (pubkey : Uint 256) (member : Member) : Prop where
  unfinished : elect.finished = false
  stake : (member.stake : Int) =
    msgValue - 1000000000 + ((elect.members.get? pubkey).map fun mem => (mem.stake : Int)).getD 0

/-- The transaction is a tick that conducts the elections. -/
structure Conducting (cellHash : Cell → Uint 256) (i : Input) (s : State) (elect : Elect) (c : Conducted) :
    Prop where
  tick : i.message = none
  current : s.elect = some elect
  ran : conductElections cellHash i.env s elect = .ok c
  done : c.done = true

/-- What a successful transaction does. -/
inductive Effect (cellHash : Cell → Uint 256) (i : Input) (s : State) : State → List OutMsg → Prop
  | quiet {after : State} (idle : ∀ elect c, ¬ Conducting cellHash i s elect c) (changes : Changes s after) :
      Effect cellHash i s after []
  | returned {m : InMsg} (message : i.message = some m) {o : OutMsg} (value : o.value.val = 0)
      (mode : o.mode = 64) : Effect cellHash i s s [o]
  | staked {m : InMsg} (message : i.message = some m) {elect : Elect} (current : s.elect = some elect)
      {pubkey : Uint 256} {member : Member} (added : StakeAdded elect m.value pubkey member)
      (totalStake : Grams) {out : List OutMsg}
      (sent : out = [] ∨ ∃ o : OutMsg, out = [o] ∧ o.value = confirmationValue ∧ o.mode = 2) :
      Effect cellHash i s { s with elect := some { elect with
        totalStake, failed := false, finished := false
        members := elect.members.set pubkey.val pubkey.isLt member } } out
  | donated {m : InMsg} (message : i.message = some m) {grams : Grams}
      (sum : (grams : Int) = s.grams + m.value) : Effect cellHash i s { s with grams } []
  | rewarded {m : InMsg} (message : i.message = some m) {fs : PastElect}
      (found : s.pastElect.get? s.activeId = some fs) {bonuses : Grams}
      (sum : (bonuses : Int) = fs.bonuses + m.value) : Effect cellHash i s { s with
        pastElect := s.pastElect.set s.activeId.val s.activeId.isLt { fs with bonuses } } []
  | recovered {m : InMsg} (message : i.message = some m) {addr : Nat} {amount : Grams}
      (found : s.credits.get? addr = some amount) {o : OutMsg} (value : o.value = amount)
      (mode : o.mode = 64) : Effect cellHash i s { s with credits := s.credits.erase addr } [o]
  | conducted {elect : Elect} {c : Conducted} (conducting : Conducting cellHash i s elect c) :
      Effect cellHash i s c.state c.sent

variable {cellHash : Cell → Uint 256} {checkSignature : List Bool → List Bool → Uint 256 → Bool}
variable {i : Input} {env : Env} {s after : State} {out : List OutMsg}

section Messages

variable {m : InMsg} {queryId : Uint 64}

variable (message : i.message = some m)
include message

theorem not_conducting_of_message (elect : Elect) (c : Conducted) : ¬ Conducting cellHash i s elect c := by
  intro conducting
  have tick := conducting.tick
  rw [message] at tick
  cases tick

omit message in
theorem registerStake_added {elect changed : Elect} {order : StakeOrder} {srcAddr : Uint 256} {msgValue : Int}
    (h : registerStake env elect order srcAddr msgValue = .ok (.ok changed)) :
    ∃ member totalStake, StakeAdded elect msgValue order.validatorPubkey member ∧ changed = { elect with
      totalStake, failed := false, finished := false
      members := elect.members.set order.validatorPubkey.val order.validatorPubkey.isLt member } := by
  unfold registerStake at h
  dsimp only at h
  split at h
  · cases h
  split at h
  · cases h
  split at h
  · cases h
  rename_i unfinished
  split at h
  · cases h
  split at h
  · cases h
  obtain ⟨_, -, h⟩ := of_bind h
  obtain ⟨packed, stored, h⟩ := of_bind h
  obtain ⟨totalStake, -, h⟩ := of_bind h
  cases h
  exact ⟨_, totalStake, ⟨by simpa using unfinished, storeGrams_success stored⟩, rfl⟩

theorem processNewStake_effect {cs : Slice}
    (h : processNewStake checkSignature env s m.src m.value cs queryId = .ok (after, out)) :
    Effect cellHash i s after out := by
  obtain ⟨⟨srcWc, srcAddr⟩, -, h⟩ := of_bind h
  dsimp only at h
  split at h
  · cases h
    exact .returned message rfl rfl
  rename_i elect current
  split at h
  · cases h
    exact .returned message rfl rfl
  obtain ⟨order, -, h⟩ := of_bind h
  obtain ⟨src, -, h⟩ := of_bind h
  split at h
  · cases h
    exact .returned message rfl rfl
  split at h
  · cases h
    exact .returned message rfl rfl
  obtain ⟨result, registered, h⟩ := of_bind h
  cases result with
  | error reason =>
    cases h
    exact .returned message rfl rfl
  | ok changed =>
    obtain ⟨member, totalStake, added, rfl⟩ := registerStake_added registered
    cases h
    apply Effect.staked message current added totalStake
    split
    · exact .inr ⟨_, rfl, rfl, rfl⟩
    · exact .inl rfl

omit message in
/-- Unfreezing under an id: a change, or nothing without a record. -/
theorem unfreezeAll_changes {id : Nat} {credits : Dict 256 Grams} {past : Dict 32 PastElect} {unused : Int}
    (h : unfreezeAll s.credits s.pastElect id = .ok (credits, past, unused)) {grams : Grams}
    (kept : (grams : Int) = s.grams + unused) : Changes s { s with credits, pastElect := past, grams } := by
  unfold unfreezeAll at h
  split at h
  · cases h
    have same : grams = s.grams := by
      apply Fin.ext
      omega
    rw [same]
  · next fs found =>
    obtain ⟨⟨credits, unused⟩, released, h⟩ := of_bind h
    cases h
    exact .single (.unfrozen found released kept)

theorem configSetConfirmed_effect {ok : Bool}
    (h : configSetConfirmed env s m.src queryId ok = .ok (after, out)) : Effect cellHash i s after out := by
  obtain ⟨⟨srcWc, srcAddr⟩, -, h⟩ := of_bind h
  obtain ⟨configAddr, -, h⟩ := of_bind h
  split at h
  · cases h
    exact .quiet (not_conducting_of_message message) .refl
  rename_i elect current
  split at h
  · cases h
    exact .quiet (not_conducting_of_message message) .refl
  split at h
  · cases h
    exact .quiet (not_conducting_of_message message) .refl
  rename_i mine
  split at h
  · cases h
    exact .quiet (not_conducting_of_message message) .refl
  obtain ⟨⟨credits, past, unused⟩, released, h⟩ := of_bind h
  obtain ⟨grams, stored, h⟩ := of_bind h
  cases h
  have finished : elect.finished = true := by
    rw [not_or] at mine
    simpa using mine.2
  have changes := unfreezeAll_changes released (storeGrams_success stored)
  exact .quiet (not_conducting_of_message message) (changes.tail (.forgotten current finished))

theorem processSimpleTransfer_effect
    (h : processSimpleTransfer s m.src m.value = .ok (after, out)) : Effect cellHash i s after out := by
  obtain ⟨⟨srcWc, srcAddr⟩, -, h⟩ := of_bind h
  dsimp only at h
  split at h
  · obtain ⟨grams, stored, h⟩ := of_bind h
    cases h
    exact .donated message (storeGrams_success stored)
  split at h
  · obtain ⟨grams, stored, h⟩ := of_bind h
    cases h
    exact .donated message (storeGrams_success stored)
  · next fs found =>
    obtain ⟨bonuses, stored, h⟩ := of_bind h
    cases h
    exact .rewarded message found (storeGrams_success stored)

theorem recoverStake_effect {op : Uint 32}
    (h : recoverStake op s m.src queryId = .ok (after, out)) : Effect cellHash i s after out := by
  obtain ⟨⟨srcWc, srcAddr⟩, -, h⟩ := of_bind h
  dsimp only at h
  split at h
  · cases h
    exact .returned message rfl rfl
  split at h
  · cases h
    exact .returned message rfl rfl
  · next amount found =>
    cases h
    exact .recovered message (Dict.udictGet?_some found).2 rfl rfl

theorem recvInternal_effect
    (h : recvInternal checkSignature env s m = .ok (after, out)) : Effect cellHash i s after out := by
  unfold recvInternal at h
  split at h
  · cases h
    exact .quiet (not_conducting_of_message message) .refl
  split at h
  · exact processSimpleTransfer_effect message h
  obtain ⟨⟨op, inMsg⟩, -, h⟩ := of_bind h
  dsimp only at h
  split at h
  · exact processSimpleTransfer_effect message h
  obtain ⟨⟨queryId, inMsg⟩, -, h⟩ := of_bind h
  unfold dispatch at h
  split at h
  · exact processNewStake_effect message h
  split at h
  · exact recoverStake_effect message h
  split at h
  · obtain ⟨ok, -, h⟩ := of_bind h
    cases h
    exact .returned message rfl rfl
  split at h
  · exact configSetConfirmed_effect message h
  split at h
  · cases h
    exact .returned message rfl rfl
  · cases h
    exact .quiet (not_conducting_of_message message) .refl

end Messages

section Ticktock

variable {past : Dict 32 PastElect} {elect : Elect} {c : Conducted}

theorem retireActive_changes (h : retireActive env s = .ok past) : Changes s { s with pastElect := past } := by
  unfold retireActive at h
  split at h
  · cases h
    exact .refl
  split at h
  · cases h
    exact .refl
  · next fs found =>
    obtain ⟨_, known, h⟩ := of_bind h
    obtain ⟨unfreezeAt, -, h⟩ := of_bind h
    cases h
    exact .single (.retired found (throwUnless_success.mp known) unfreezeAt)

theorem adoptActive_change {curHash : Uint 256} (h : adoptActive s past curHash = .ok after) :
    Change { s with pastElect := past } after := by
  unfold adoptActive at h
  split at h
  · cases h
    exact .abandoned (s := { s with pastElect := past }) curHash
  rename_i id fs search
  obtain ⟨found, same⟩ := Dict.findFirst_some search
  obtain ⟨grams, storedGrams, h⟩ := of_bind h
  obtain ⟨bonuses, storedBonuses, h⟩ := of_bind h
  obtain ⟨changed, set, h⟩ := of_bind h
  obtain ⟨activeId, storedId, h⟩ := of_bind h
  cases h
  obtain ⟨fits, rfl⟩ := Dict.udictSet_success set
  have key : id = activeId.val := by
    have := storeUint_success storedId
    omega
  subst key
  have hash : fs.hash = curHash := by simpa using same
  have sumGrams := storeGrams_success storedGrams
  have sumBonuses := storeGrams_success storedBonuses
  subst hash
  exact .adopted (s := { s with pastElect := past }) found (by simp only; omega)

theorem updateActiveVsetId_changes {updated : Bool} (h : updateActiveVsetId cellHash env s = .ok (updated, after)) :
    Changes s after := by
  obtain ⟨curVset, -, h⟩ := of_bind h
  split at h
  · cases h
    exact .refl
  · obtain ⟨past, retired, h⟩ := of_bind h
    obtain ⟨next, adopted, h⟩ := of_bind h
    cases h
    exact (retireActive_changes retired).tail (adoptActive_change adopted)

theorem finishTick_changes (h : finishTick cellHash env s = .ok after) : Changes s after := by
  obtain ⟨⟨updated, next⟩, ran, h⟩ := of_bind h
  have changes := updateActiveVsetId_changes ran
  dsimp only at h
  split at h
  · cases h
    exact changes
  unfold checkUnfreeze at h
  split at h
  · cases h
    exact changes
  · obtain ⟨⟨credits, past, unused⟩, released, h⟩ := of_bind h
    obtain ⟨grams, stored, h⟩ := of_bind h
    cases h
    exact changes.trans (unfreezeAll_changes released (storeGrams_success stored))

theorem announceNewElections_change (none : s.elect = none)
    (h : announceNewElections env s = .ok (some after)) : Change s after := by
  unfold announceNewElections at h
  split at h
  · cases h
  obtain ⟨cs, -, h⟩ := of_bind h
  obtain ⟨⟨electorAddr, cs⟩, -, h⟩ := of_bind h
  obtain ⟨⟨myWc, myAddr⟩, -, h⟩ := of_bind h
  dsimp only at h
  split at h
  · cases h
  split at h
  · cases h
  obtain ⟨elect, computed, h⟩ := of_bind h
  obtain ⟨conf, -, computed⟩ := of_bind computed
  obtain ⟨cs, -, computed⟩ := of_bind computed
  obtain ⟨⟨curValidUntil, cs⟩, -, computed⟩ := of_bind computed
  dsimp only at computed
  split at computed
  · cases computed
    cases h
  obtain ⟨cs, -, computed⟩ := of_bind computed
  obtain ⟨⟨minStake, cs⟩, -, computed⟩ := of_bind computed
  obtain ⟨electAt, -, computed⟩ := of_bind computed
  obtain ⟨electClose, -, computed⟩ := of_bind computed
  cases computed
  cases h
  exact .announced none rfl

theorem validatorSetInstalled_changes (current : s.elect = some elect)
    (h : validatorSetInstalled cellHash env s elect = .ok (some after)) : Changes s after := by
  unfold validatorSetInstalled at h
  split at h
  · cases h
  rename_i finished
  split at h
  · cases h
  split at h
  · obtain ⟨⟨updated, next⟩, ran, h⟩ := of_bind h
    cases h
    have first : Change s { s with elect := none } := .forgotten current (by simpa using finished)
    exact (Relation.ReflTransGen.single first).trans (updateActiveVsetId_changes ran)
  · cases h

/-- The largest stake that the configuration allows. -/
def maxStakeOf (env : Env) : Outcome Grams := do
  let cs ← env.param 17
  let (_, cs) ← loadGrams cs
  let (maxStake, _) ← loadGrams cs
  .ok maxStake

/-- The elected validators as a validator set with its term. -/
def packElected (env : Env) (elect : Elect) (r : ElectionResult) : Outcome Cell := do
  let conf ← getValidatorConf env
  let start := max ((env.now : Int) + conf.electEndBefore - 60) elect.electAt
  let cs ← env.param 16
  let cs ← skipBits 16 cs
  let (mainValidators, _) ← loadUint 16 cs
  packValidatorSet start (start + conf.electFor) r.cnt (min (r.cnt : Int) mainValidators) r.totalWeight r.vdict

/-- The validator set that `try_elect` gives for the members in this state. -/
def electSet (env : Env) (s : State) (elect : Elect) : Outcome Cell := do
  let cs ← env.param 17
  let (minStake, cs) ← loadGrams cs
  let (maxStake, cs) ← loadGrams cs
  let (minTotalStake, cs) ← loadGrams cs
  let (maxStakeFactor, _) ← loadUint 32 cs
  let r ← tryElect env s.credits elect.members minStake maxStake minTotalStake maxStakeFactor
  packElected env elect r

/-- What conducted elections leave: the record `past` in place of the stakes of the members, and
the message `o` to the configuration contract. -/
structure Conducts (cellHash : Cell → Uint 256) (env : Env) (s : State) (elect : Elect) (c : Conducted)
    (minStake maxStake : Grams) (r : ElectionResult) (past : PastElect) (o : OutMsg) : Prop where
  unfinished : elect.finished = false
  limit : maxStakeOf env = .ok maxStake
  elections : Elections s.credits elect.members maxStake r
  frozen : past.frozen = r.frozen
  total : (past.totStakes : Int) = r.totalStakes
  bonuses : past.bonuses.val = 0
  hash : ∃ vset, electSet env s elect = .ok vset ∧ past.hash = cellHash vset
  value : o.value = configMessageValue
  mode : o.mode = 1
  sent : c.sent = [o]
  state : c.state = { s with
    elect := some { elect with minStake, failed := false, finished := true }, credits := r.credits
    pastElect := s.pastElect.set elect.electAt.val elect.electAt.isLt past }

theorem installElected_conducts {minStake maxStake : Grams} {r : ElectionResult} (unfinished : elect.finished = false)
    (limit : maxStakeOf env = .ok maxStake) (elections : Elections s.credits elect.members maxStake r)
    (elected : electSet env s elect = packElected env elect r)
    (h : installElected cellHash env s { elect with minStake, failed := false, finished := true } r = .ok c) :
    c.done = true ∧ ∃ past o, Conducts cellHash env s elect c minStake maxStake r past o := by
  obtain ⟨conf, terms, h⟩ := of_bind h
  obtain ⟨config, counts, h⟩ := of_bind h
  obtain ⟨cs, skipped, h⟩ := of_bind h
  obtain ⟨⟨mainValidators, _⟩, loaded, h⟩ := of_bind h
  obtain ⟨vset, packed, h⟩ := of_bind h
  obtain ⟨configAddr, -, h⟩ := of_bind h
  obtain ⟨unfreezeAt, -, h⟩ := of_bind h
  obtain ⟨stakeHeld, -, h⟩ := of_bind h
  obtain ⟨totStakes, stored, h⟩ := of_bind h
  cases h
  have set : electSet env s elect = .ok vset := by
    rw [elected]
    simp only [packElected, terms, counts, skipped, loaded, ok_bind]
    exact packed
  exact ⟨rfl, _, _, unfinished, limit, elections, rfl, storeGrams_success stored, rfl, ⟨vset, set, rfl⟩, rfl, rfl, rfl,
    rfl⟩

/-- Elections that are not conducted leave the data as it is or are marked as failed. -/
theorem conductElections_success (current : s.elect = some elect) (h : conductElections cellHash env s elect = .ok c) :
    (c.done = true ∧ ∃ minStake maxStake r past o, Conducts cellHash env s elect c minStake maxStake r past o) ∨
      c.done = false ∧ Changes s c.state := by
  unfold conductElections at h
  split at h
  · cases h
    exact .inr ⟨rfl, .refl⟩
  split at h
  · cases h
    exact .inr ⟨rfl, .refl⟩
  obtain ⟨params, config, h⟩ := of_bind h
  obtain ⟨⟨minStake, afterMin⟩, loadedMin, h⟩ := of_bind h
  obtain ⟨⟨maxStake, afterMax⟩, loadedMax, h⟩ := of_bind h
  obtain ⟨⟨minTotalStake, afterTotal⟩, loadedTotal, h⟩ := of_bind h
  obtain ⟨⟨maxStakeFactor, cs⟩, loadedFactor, h⟩ := of_bind h
  obtain ⟨_, -, h⟩ := of_bind h
  split at h
  · cases h
    exact .inr ⟨rfl, .refl⟩
  split at h
  · cases h
    exact .inr ⟨rfl, .refl⟩
  split at h
  · cases h
    exact .inr ⟨rfl, .refl⟩
  rename_i finished
  have unfinished : elect.finished = false := by simpa using finished
  obtain ⟨r, elected, h⟩ := of_bind h
  split at h
  · next none =>
    cases h
    rcases tryElect_success elected with rfl | ⟨some, -⟩
    · exact .inr ⟨rfl, .single (.failed current unfinished minStake)⟩
    · exact absurd none some
  · next some =>
    rcases tryElect_success elected with rfl | ⟨-, elections⟩
    · exact absurd rfl some
    have limit : maxStakeOf env = .ok maxStake := by
      simp only [maxStakeOf, config, ok_bind, loadedMin, loadedMax]
    have set : electSet env s elect = packElected env elect r := by
      simp only [electSet, config, ok_bind, loadedMin, loadedMax, loadedTotal, loadedFactor, elected]
    obtain ⟨done, conducts⟩ := installElected_conducts unfinished limit elections set h
    exact .inl ⟨done, minStake, maxStake, r, conducts⟩

theorem runTicktock_effect (tick : i.message = none)
    (h : runTicktock cellHash i.env s = .ok (after, out)) : Effect cellHash i s after out := by
  unfold runTicktock at h
  split at h
  · next elect current =>
    obtain ⟨c, ran, h⟩ := of_bind h
    rcases conductElections_success current ran with ⟨done, -⟩ | ⟨undone, changes⟩
    · rw [if_pos done] at h
      cases h
      exact .conducted ⟨tick, current, ran, done⟩
    rw [if_neg (by simp [undone])] at h
    have idle (elect' : Elect) (c' : Conducted) : ¬ Conducting cellHash i s elect' c' := by
      rintro ⟨-, current', ran', done⟩
      cases current.symm.trans current'
      cases ran.symm.trans ran'
      cases undone.symm.trans done
    obtain ⟨installed, checked, h⟩ := of_bind h
    cases installed with
    | some next =>
      cases h
      exact .quiet idle (validatorSetInstalled_changes current checked)
    | none =>
      obtain ⟨next, finished, h⟩ := of_bind h
      cases h
      exact .quiet idle (changes.trans (finishTick_changes finished))
  · next none =>
    have idle (elect : Elect) (c : Conducted) : ¬ Conducting cellHash i s elect c := by
      rintro ⟨-, current, -, -⟩
      cases none.symm.trans current
    obtain ⟨announced, checked, h⟩ := of_bind h
    cases announced with
    | some next =>
      cases h
      exact .quiet idle (.single (announceNewElections_change none checked))
    | none =>
      obtain ⟨next, finished, h⟩ := of_bind h
      cases h
      exact .quiet idle (finishTick_changes finished)

theorem Conducting.conducts (conducting : Conducting cellHash i s elect c) :
    ∃ minStake maxStake r past o, Conducts cellHash i.env s elect c minStake maxStake r past o := by
  rcases conductElections_success conducting.current conducting.ran with ⟨-, conducts⟩ | ⟨undone, -⟩
  · exact conducts
  · cases undone.symm.trans conducting.done

end Ticktock

theorem receive_effect (h : receive cellHash checkSignature s i = .ok (after, out)) :
    Effect cellHash i s after out := by
  unfold receive at h
  split at h
  · next m message => exact recvInternal_effect message h
  · next tick => exact runTicktock_effect tick h

/-- A conducting tick succeeds with what it conducted. -/
theorem Conducting.receive {elect : Elect} {c : Conducted} (conducting : Conducting cellHash i s elect c) :
    receive cellHash checkSignature s i = .ok (c.state, c.sent) := by
  unfold Elector.receive runTicktock
  rw [conducting.tick, conducting.current]
  simp [conducting.ran, conducting.done]

end TonStaking.Source.Elector
