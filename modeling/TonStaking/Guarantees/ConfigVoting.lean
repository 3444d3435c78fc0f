import Mathlib.Algebra.BigOperators.Group.Finset.Basic
import TonStaking.Source.ConfigContract.Voting

/-!
# Votes on the configuration

The validators of a set are in a `HashmapE`: a bit, and a reference to the root
of the dictionary if there is one. The contract takes the cell that holds this
bit for the root itself. One bit is never a label, so the lookup of every voter
fails, and with it every vote, before the message is accepted. No proposal is
performed, whoever votes for it.
-/
namespace TonStaking.Guarantees.ConfigVoting
open Tvm Source.ConfigContract

section Definitions

variable (crypto : Crypto)

/-- The key and the weight of a validator, read from the dictionary of the set. -/
def validatorAt (vset : ValidatorSet) (idx : Uint 16) : Option (Uint 256 × Uint 64) :=
  match Hashmap.udictGet? 16 vset.list (idx.val : Int) with
  | .ok (some descr) => (unpackValidatorDescr descr).toOption
  | _ => none

def weightOf (vset : ValidatorSet) (idx : Uint 16) : Nat := ((validatorAt vset idx).map fun v => v.2.val).getD 0

structure Vote where
  voter : Uint 16
  proposal : Uint 256
  vsetId : Uint 256
  byHash : Bool

/-- A vote of a validator of the current set: validly signed, in time, with the sequence number that the
contract expects. -/
def readVote (s : State) (i : Input) : Outcome Vote := do
  let m ← loadExternal i.now s i.body
  throwUnless 32 (isVote m.action)
  let (idx, cs) ← loadUint 16 m.cs
  let validator ← orNull (validatorAt i.vset idx)
  throwUnless 34 (crypto.checkSignature (crypto.sliceHash m.signed) m.signature validator.1 = true)
  if m.action.val % 2 = 1 then
    .ok { voter := idx, proposal := crypto.sliceHash cs, vsetId := crypto.cellHash i.vset.cell, byHash := false }
  else do
    let (hash, _) ← loadUint 256 cs
    .ok { voter := idx, proposal := hash, vsetId := crypto.cellHash i.vset.cell, byHash := true }

/-- The validators who voted for a proposal under a validator set. -/
def voters (votes : List Vote) (vsetId proposal : Uint 256) : Finset (Uint 16) :=
  ((votes.filter fun v => decide (v.proposal = proposal ∧ v.vsetId = vsetId)).map Vote.voter).toFinset

/-- They have more than two thirds of the total weight. -/
def Supported (vset : ValidatorSet) (votes : List Vote) (proposal : Uint 256) : Prop :=
  vset.totalWeight.val * 2 < (∑ idx ∈ voters votes (crypto.cellHash vset.cell) proposal, weightOf vset idx) * 3

instance (vset : ValidatorSet) (votes : List Vote) (proposal : Uint 256) : Decidable (Supported crypto vset votes proposal) :=
  inferInstanceAs (Decidable (_ < _))

/-- The votes so far, and the proposals that have been accepted with them. -/
structure Book where
  votes : List Vote
  decided : List (Uint 256)

/-- A proposal has to be brought before it can be voted for by its hash. -/
def Book.knows (book : Book) (v : Vote) : Prop := v.byHash = false ∨ ∃ u ∈ book.votes, u.byHash = false ∧ u.proposal = v.proposal

instance (book : Book) (v : Vote) : Decidable (book.knows v) := inferInstanceAs (Decidable (_ ∨ _))

/-- The vote with which a proposal first has enough support decides it. -/
def Book.cast (book : Book) (i : Input) (v : Vote) : Book :=
  if book.knows v then
    { votes := book.votes ++ [v]
      decided := if v.proposal ∉ book.decided ∧ Supported crypto i.vset (book.votes ++ [v]) v.proposal
        then book.decided ++ [v.proposal] else book.decided }
  else book

def note (s : State) (book : Book) (i : Input) : Book :=
  match readVote crypto s i with
  | .ok v => book.cast crypto i v
  | .error _ => book

/-- The proposals that are to be performed along a run. -/
def decided (start : State) (inputs : List Input) : List (Uint 256) :=
  (track (receive crypto) (note crypto) start ⟨[], []⟩ inputs).decided

/-- The proposal whose action an event reports. -/
def performedHash : Event → Option (Uint 256)
  | .performed proposal => some (crypto.sliceHash proposal)
  | .action _ => none

/-- The proposals that the contract performs along a run. -/
def performed (start : State) (inputs : List Input) : List (Uint 256) :=
  track (receive crypto) (fun s done i => done ++ (commit (receive crypto) s i).2.filterMap (performedHash crypto)) start []
    inputs

/-- The contract before the first vote. -/
def newContract (cfgDict : Dict 32 Cell) (seqno : Uint 32) (publicKey : Uint 256) : State where
  cfgDict := cfgDict
  storedSeqno := seqno
  publicKey := publicKey
  voteDict := Dict.empty

end Definitions

section Lookup

variable {crypto : Crypto} {start : State}

theorem udictGet?_single (n : Nat) (bit : Bool) (refs : List Cell) (idx : Uint n) :
    Hashmap.udictGet? n (some (.mk [bit] refs)) (idx.val : Int) = .error .cellUnd := by
  unfold Hashmap.udictGet?
  rw [storeUint_val]
  cases bit <;> rfl

/-- What is done with the part of a set behind its tag. -/
theorem getValidatorDescr_tagged {tag : Uint 8} (value : tag.val = 0x12) (bits : List Bool) (refs : List Cell) (idx : Uint 16) :
    getValidatorDescr (some (.mk (Uint.bits tag ++ bits) refs)) idx = (do
      let cs ← skipBits (32 + 32 + 16 + 16) ⟨bits, refs⟩
      let (totalWeight, cs) ← loadUint 64 cs
      let dict := Cell.mk cs.bits cs.refs
      let value ← Hashmap.udictGet? 16 (some dict) (idx.val : Int)
      .ok (value, totalWeight.val)) := by
  unfold getValidatorDescr
  simp [Cell.bits, Cell.refs, throwUnless, if_pos value]

theorem getValidatorDescr_fails (vset : ValidatorSet) (idx : Uint 16) :
    getValidatorDescr (some vset.cell) idx = .error .cellUnd := by
  have times : Uint.bits vset.utimeSince ++ (Uint.bits vset.utimeUntil ++ (Uint.bits vset.total ++
      (Uint.bits vset.main ++ (Uint.bits vset.totalWeight ++ [vset.list.isSome])))) =
      (Uint.bits vset.utimeSince ++ Uint.bits vset.utimeUntil ++ Uint.bits vset.total ++ Uint.bits vset.main) ++
        (Uint.bits vset.totalWeight ++ [vset.list.isSome]) := by
    simp
  rw [ValidatorSet.cell, getValidatorDescr_tagged (by decide), times, skipBits_append (by simp), ok_bind, loadUint_bits,
    ok_bind]
  dsimp only
  rw [udictGet?_single, error_bind]

theorem recvVote_fails (now : Uint 32) (vset : ValidatorSet) (electorParam : Option Cell) (s : State) (m : External) :
    ∃ e, recvVote crypto now (some vset.cell) electorParam s m = .error e := by
  unfold recvVote
  cases loadUint 16 m.cs with
  | error e => exact ⟨e, rfl⟩
  | ok loaded =>
    rw [ok_bind]
    dsimp only
    rw [getValidatorDescr_fails, error_bind]
    exact ⟨_, rfl⟩

theorem recvOrder_performs_none {now : Uint 32} {electorParam : Option Cell} {s after : State} {m : External}
    {events : List Event} (h : recvOrder crypto now electorParam s m = .ok (after, events)) :
    events.filterMap (performedHash crypto) = [] := by
  obtain ⟨_, -, h⟩ := of_bind h
  obtain ⟨_, -, h⟩ := of_bind h
  dsimp only at h
  split at h
  · next result done =>
    cases h
    obtain ⟨p, -, done⟩ := of_bind done
    cases done
    rw [List.filterMap_map, List.filterMap_eq_nil_iff]
    intro out _
    rfl
  · cases h
    rfl

theorem commit_performs_none (s : State) (i : Input) :
    (commit (receive crypto) s i).2.filterMap (performedHash crypto) = [] := by
  cases outcome : receive crypto s i with
  | error e =>
    rw [commit_of_error outcome]
    rfl
  | ok result =>
    rw [commit_of_success outcome]
    obtain ⟨m, -, outcome⟩ := of_bind outcome
    split at outcome
    · obtain ⟨e, fails⟩ := recvVote_fails i.now i.vset i.electorParam s m
      rw [fails] at outcome
      cases outcome
    · exact recvOrder_performs_none outcome

theorem performed_eq_nil (start : State) (inputs : List Input) : performed crypto start inputs = [] := by
  induction inputs using List.reverseRecOn with
  | nil => rfl
  | append_singleton before i ih =>
    unfold performed at ih ⊢
    rw [track_snoc, ih, commit_performs_none]
    rfl

theorem decided_of_snoc {before : List Input} {i : Input}
    (none : decided crypto start (before ++ [i]) = []) : decided crypto start before = [] := by
  unfold decided at none ⊢
  rw [track_snoc] at none
  unfold note at none
  split at none
  · unfold Book.cast at none
    split at none
    · dsimp only at none
      split at none
      · exact absurd none (List.append_ne_nil_of_right_ne_nil _ (List.cons_ne_nil _ _))
      · exact none
    · exact none
  · exact none

theorem decided_of_append (before after : List Input)
    (none : decided crypto start (before ++ after) = []) : decided crypto start before = [] := by
  induction after using List.reverseRecOn with
  | nil => rwa [List.append_nil] at none
  | append_singleton after i ih =>
    apply ih
    rw [← List.append_assoc] at none
    exact decided_of_snoc none

/-- Along any sequence of messages, with any validator sets, the contract performs the proposals that have been
accepted exactly if there is none. -/
theorem performed_iff (crypto : Crypto) (cfgDict : Dict 32 Cell) (seqno : Uint 32) (publicKey : Uint 256) (inputs : List Input) :
    (∀ before after, inputs = before ++ after →
      performed crypto (newContract cfgDict seqno publicKey) before = decided crypto (newContract cfgDict seqno publicKey) before) ↔
      decided crypto (newContract cfgDict seqno publicKey) inputs = [] := by
  constructor
  · intro always
    rw [← always inputs [] (List.append_nil _).symm, performed_eq_nil]
  · intro none before after split
    rw [split] at none
    rw [performed_eq_nil, decided_of_append before after none]

/-- The only validator of a set, with weight 3 and key 100. -/
def sampleDescr : List Bool :=
  Uint.bits (0x53 : Uint 8) ++ (Uint.bits (0x8e81278a : Uint 32) ++ (Uint.bits (100 : Uint 256) ++ Uint.bits (3 : Uint 64)))

def sampleSet : ValidatorSet where
  utimeSince := 1000
  utimeUntil := 2000
  total := 1
  main := 1
  totalWeight := 3
  list := some (.mk (Hashmap.appendLabel (Uint.bits (0 : Uint 16)) 16 ++ sampleDescr) [])
  mainLe := by decide
  mainPos := by decide

/-- The proposal to change the master key. -/
def sampleProposal : List Bool := Uint.bits (0x50624b21 : Uint 32) ++ Uint.bits (7 : Uint 256)

/-- The vote of validator 0 for it. -/
def sampleVote : Slice :=
  ⟨Uint.bits (0x566f7465 : Uint 32) ++ (Uint.bits (0 : Uint 32) ++ (Uint.bits (1600 : Uint 32) ++
    (Uint.bits (0 : Uint 16) ++ sampleProposal))), []⟩

def sampleInput : Input where
  now := 1500
  vset := sampleSet
  electorParam := none
  body := ⟨sampleSign 100 sampleVote ++ sampleVote.bits, []⟩

/-- The vote of the only validator is refused with a cell underflow. -/
theorem only_validator_refused :
    (decided sampleCrypto (newContract Dict.empty 0 1) [sampleInput] = [sampleCrypto.sliceHash ⟨sampleProposal, []⟩] ∧
      performed sampleCrypto (newContract Dict.empty 0 1) [sampleInput] = [] ∧
      (receive sampleCrypto (newContract Dict.empty 0 1) sampleInput).map (fun _ => ()) = .error .cellUnd) ∧
      ¬ ∀ before after, [sampleInput] = before ++ after →
        performed sampleCrypto (newContract Dict.empty 0 1) before = decided sampleCrypto (newContract Dict.empty 0 1) before := by
  have facts : decided sampleCrypto (newContract Dict.empty 0 1) [sampleInput] =
        [sampleCrypto.sliceHash ⟨sampleProposal, []⟩] ∧
      performed sampleCrypto (newContract Dict.empty 0 1) [sampleInput] = [] ∧
      (receive sampleCrypto (newContract Dict.empty 0 1) sampleInput).map (fun _ => ()) = .error .cellUnd := by
    decide +kernel
  refine ⟨facts, fun always => ?_⟩
  have same := always [sampleInput] [] rfl
  rw [facts.1, facts.2.1] at same
  cases same

end Lookup

end TonStaking.Guarantees.ConfigVoting
