import TonStaking.Source.Elector.Elections
import TonStaking.Tvm.Transaction

/-!
# Elector: tick-tock transactions

`crypto/smartcont/elector-code.fc` 589-756. A function that answers true ends
the transaction with `throw_if(0, ..)`, which commits what was stored. The
functions get the data that was parsed at the start of the transaction; the
only one that stores anything and answers false is `conduct_elections`, for
elections that failed.
-/
namespace TonStaking.Source.Elector
open Tvm

variable (cellHash : Cell → Uint 256)

theorem State.active_lt (s : State) : s.activeId.val < 2 ^ 32 := s.activeId.isLt

/-- `active_id becomes inactive`: a new time of unfreezing, counted from now. -/
def retireActive (env : Env) (s : State) : Outcome (Dict 32 PastElect) :=
  if s.activeId.val = 0 then .ok s.pastElect
  else
    match s.pastElect.get? s.activeId with
    | none => .ok s.pastElect
    | some fs => do
      throwUnless 57 (fs.hash = s.activeHash)
      let unfreezeAt ← storeUint 32 (env.now + fs.stakeHeld)
      .ok (s.pastElect.set s.activeId.val s.active_lt { fs with unfreezeAt })

/-- Lines 613-644: the record of the current validator set gets an eighth of the free grams. -/
def adoptActive (s : State) (pastElect : Dict 32 PastElect) (curHash : Uint 256) : Outcome State :=
  match pastElect.findFirst fun _ fs => decide (fs.hash = curHash) with
  | none => .ok { s with pastElect, activeId := 0, activeHash := curHash }
  | some (id, fs) => do
    let amount : Int := s.grams.val / 2 ^ 3
    let grams ← storeGrams (s.grams - amount)
    let bonuses ← storeGrams (fs.bonuses + amount)
    let pastElect ← pastElect.udictSet id { fs with bonuses }
    let activeId ← storeUint 32 id
    .ok { s with pastElect, grams, activeId, activeHash := curHash }

def updateActiveVsetId (env : Env) (s : State) : Outcome (Bool × State) := do
  let curVset ← orNull (env.config 34)
  if cellHash curVset = s.activeHash then .ok (false, s)
  else do
    let pastElect ← retireActive env s
    let s ← adoptActive s pastElect (cellHash curVset)
    .ok (true, s)

def cellHashEq (vset : Option Cell) (expected : Uint 256) : Bool :=
  match vset with
  | none => false
  | some c => cellHash c = expected

def validatorSetInstalled (env : Env) (s : State) (elect : Elect) : Outcome (Option State) :=
  if elect.finished = false then .ok none
  else
    match s.pastElect.get? elect.electAt with
    | none => .ok none
    | some fs =>
      if cellHashEq cellHash (env.config 34) fs.hash ∨ cellHashEq cellHash (env.config 36) fs.hash then do
        let (_, s) ← updateActiveVsetId cellHash env { s with elect := none }
        .ok (some s)
      else .ok none

/-- `unfreeze only one at time`. -/
def checkUnfreeze (env : Env) (s : State) : Outcome State :=
  match s.pastElect.findFirst fun id fs => decide (fs.unfreezeAt ≤ env.now ∧ id ≠ s.activeId.val) with
  | none => .ok s
  | some (id, _) => do
    let (credits, pastElect, unusedPrizes) ← unfreezeAll s.credits s.pastElect id
    let grams ← storeGrams (s.grams + unusedPrizes)
    .ok { s with credits, pastElect, grams }

/-- Lines 725-742: the elections that `cur_valid_until` calls for, if it is time for them. -/
def newElections (env : Env) (curVset : Cell) : Outcome (Option Elect) := do
  let conf ← getValidatorConf env
  let cs ← skipBits 40 curVset.beginParse
  let (curValidUntil, _) ← loadUint 32 cs
  let t0 : Int := curValidUntil - conf.electBeginBefore
  if (env.now : Int) < t0 then .ok none
  else do
    let t : Int := if env.now - t0 < 60 then t0 else env.now
    let cs ← env.param 17
    let (minStake, _) ← loadGrams cs
    let electAt ← storeUint 32 (t + conf.electBeginBefore)
    let electClose ← storeUint 32 (t + conf.electBeginBefore - conf.electEndBefore)
    .ok (some { electAt, electClose, minStake, totalStake := 0, members := Dict.empty
                failed := false, finished := false })

def announceNewElections (env : Env) (s : State) : Outcome (Option State) :=
  if (env.config 36).isSome then .ok none
  else do
    let cs ← env.param 1
    let (electorAddr, _) ← loadUint 256 cs
    let (myWc, myAddr) ← parseStdAddr env.myAddress
    if myWc + 1 ≠ 0 ∨ myAddr ≠ electorAddr then .ok none
    else
      match env.config 34 with
      | none => .ok none
      | some curVset => do
        let elect ← newElections env curVset
        .ok (elect.map fun elect => { s with elect := some elect })

/-- The end of `run_ticktock`, on the data as it is stored by then. -/
def finishTick (env : Env) (s : State) : Outcome State := do
  let (updated, s) ← updateActiveVsetId cellHash env s
  if updated then .ok s else checkUnfreeze env s

def runTicktock (env : Env) (s : State) : Outcome (State × List OutMsg) :=
  match s.elect with
  | some elect => do
    let conducted ← conductElections cellHash env s elect
    if conducted.done then .ok (conducted.state, conducted.sent)
    else do
      match ← validatorSetInstalled cellHash env s elect with
      | some installed => .ok (installed, [])
      | none => do
        let s ← finishTick cellHash env conducted.state
        .ok (s, [])
  | none => do
    match ← announceNewElections env s with
    | some announced => .ok (announced, [])
    | none => do
      let s ← finishTick cellHash env s
      .ok (s, [])

section Run

variable (checkSignature : List Bool → List Bool → Uint 256 → Bool)

/-- One transaction: an inbound message, or a tick or tock without one. -/
structure Input where
  env : Env
  message : Option InMsg

def receive (s : State) (i : Input) : Outcome (State × List OutMsg) :=
  match i.message with
  | some m => recvInternal checkSignature i.env s m
  | none => runTicktock cellHash i.env s

/-- The data the contract is deployed with. -/
def initialState : State :=
  { elect := none, credits := Dict.empty, pastElect := Dict.empty, grams := 0, activeId := 0
    activeHash := 0 }

end Run

end TonStaking.Source.Elector
