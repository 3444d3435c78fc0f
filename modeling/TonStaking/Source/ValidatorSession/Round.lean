import Mathlib.Data.List.FinRange
import TonStaking.Tvm.Slice

/-!
# A round of the validator session

APPROVE and VOTEFOR in a round of `validator-session/validator-session-state.cpp`
(156-167, 430-469, 861-918, 1046-1060) and the test of whether a VOTEFOR is generated (1090-1124),
with the description of the session (`validator-session-description.cpp` 41-49, 140-142).
A null block is the candidate that skips the round. The vectors of a round hold one entry
for each key and are only searched, so their order is left out; `signed` tells whether a
signature is accepted.
-/
namespace TonStaking.Source.ValidatorSession

open Tvm

/-- The weights are `ValidatorWeight`, 64-bit words whose sums and products wrap. -/
structure Description (n : Nat) where
  weight : Fin n → Uint 64
  maxRoundAttempts : Uint 32

structure SentBlock where
  srcIdx : Nat
  candidateId : Uint 256
  deriving DecidableEq

/-- `SessionBlockCandidate` and `SessionVoteCandidate`: a block and the nodes for it. -/
structure Candidate (n : Nat) where
  block : Option SentBlock
  nodes : Fin n → Bool

structure AttemptState (n : Nat) where
  seqno : Uint 32
  votes : List (Candidate n)
  precommitted : Fin n → Bool
  voteFor : Option SentBlock
  voteForInited : Bool

structure RoundState (n : Nat) where
  precommitted : Bool
  firstAttempt : Fin n → Uint 32
  sentBlocks : List (Candidate n)
  attempts : Uint 32 → Option (AttemptState n)

variable {n : Nat} (d : Description n)

def totalWeight : Uint 64 := (List.finRange n).foldl (fun w i => w + d.weight i) 0

def cutoffWeight : Uint 64 := totalWeight d * 2 / 3 + 1

def getVoteForAuthor (n : Nat) (att : Uint 32) : Nat := att % n

/-- The loop over the nodes ends as soon as the weight reaches the cutoff. -/
def reachesCutoff (nodes : Fin n → Bool) : List (Fin n) → Uint 64 → Bool
  | [], _ => false
  | i :: rest, w =>
    if nodes i then
      if cutoffWeight d ≤ w + d.weight i then true else reachesCutoff nodes rest (w + d.weight i)
    else reachesCutoff nodes rest w

def Candidate.checkBlockIsApproved (c : Candidate n) : Bool :=
  reachesCutoff d c.nodes (List.finRange n) 0

/-- `get_id`, where `none` is `skip_round_candidate_id`. -/
def Candidate.id (c : Candidate n) : Option (Uint 256) := c.block.map (·.candidateId)

def AttemptState.create (att : Uint 32) : AttemptState n := ⟨att, [], fun _ => false, none, false⟩

def RoundState.create : RoundState n := ⟨false, fun _ => 0, [], fun _ => none⟩

namespace RoundState

variable (round : RoundState n) (src : Fin n) (att : Uint 32)

def getBlock (candidate : Option (Uint 256)) : Option (Candidate n) :=
  round.sentBlocks.find? (·.id = candidate)

def getAttempt : AttemptState n := (round.attempts att).getD (.create att)

/-- A message moves the first attempt of its node, then it is applied. -/
def action (apply : RoundState n → RoundState n) : RoundState n :=
  let first := round.firstAttempt src
  apply (if first = 0 ∨ first > att then
    { round with firstAttempt := Function.update round.firstAttempt src att } else round)

def pushCandidate (c : Candidate n) : RoundState n :=
  { round with sentBlocks := c :: round.sentBlocks.filter (·.id ≠ c.id) }

def approvedBlock (candidate : Option (Uint 256)) (signed : Bool) : RoundState n :=
  match round.getBlock candidate with
  | none => if candidate.isSome ∨ !signed then round
    else round.pushCandidate ⟨none, fun i => i = src⟩
  | some c =>
    if c.nodes src then round
    else if candidate.isSome ∧ round.sentBlocks.any (fun b =>
        b.block.map (·.srcIdx) = c.block.map (·.srcIdx) ∧ b.nodes src) then round
    else if !signed then round
    else round.pushCandidate ⟨c.block, Function.update c.nodes src true⟩

def checkNeedGenerateVoteFor : Bool :=
  if src.val ≠ getVoteForAuthor n att then false
  else if round.precommitted then false
  else if round.firstAttempt src = 0 ∧ d.maxRoundAttempts > 0 then false
  else if round.firstAttempt src + d.maxRoundAttempts > att ∧ d.maxRoundAttempts > 0 then false
  else if (round.attempts att).any (·.voteForInited) then false
  else round.sentBlocks.any (·.checkBlockIsApproved d)

end RoundState

/-- The second test of the attempt is made for `max_round_attempts == 0`. -/
def AttemptState.voteForAction (state : AttemptState n) (src : Fin n) (att : Uint 32)
    (candidate : Option (Uint 256)) (round : RoundState n) : AttemptState n :=
  if state.voteForInited then state
  else if src.val ≠ getVoteForAuthor n att then state
  else if round.firstAttempt src = 0 ∧ d.maxRoundAttempts > 0 then state
  else if round.firstAttempt src + d.maxRoundAttempts > att ∧ d.maxRoundAttempts = 0 then state
  else match round.getBlock candidate with
    | none => state
    | some x => if x.checkBlockIsApproved d then { state with voteFor := x.block, voteForInited := true } else state

end TonStaking.Source.ValidatorSession
