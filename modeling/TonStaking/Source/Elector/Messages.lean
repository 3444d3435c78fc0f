import TonStaking.Tvm.Dict
import TonStaking.Tvm.Message

/-!
# Elector: stored data and internal messages

`crypto/smartcont/elector-code.fc` 1-406, one definition for each function. The
data that only the contract writes is typed: a field holds a value of its
stored width, and packing is the range check of the store. Operations that
write the tail of the data cell back without parsing it leave those fields as
they are. The complaints of a past election are always the empty dictionary and
are left out.
-/
namespace TonStaking.Source.Elector
open Tvm

structure Member where
  stake : Grams
  time : Uint 32
  maxFactor : Uint 32
  srcAddr : Uint 256
  adnlAddr : Uint 256

structure Elect where
  electAt : Uint 32
  electClose : Uint 32
  minStake : Grams
  totalStake : Grams
  members : Dict 256 Member
  failed : Bool
  finished : Bool

structure Frozen where
  addr : Uint 256
  weight : Uint 64
  stake : Grams
  banned : Bool

structure PastElect where
  unfreezeAt : Uint 32
  stakeHeld : Uint 32
  hash : Uint 256
  frozen : Dict 256 Frozen
  totStakes : Grams
  bonuses : Grams

structure State where
  elect : Option Elect
  credits : Dict 256 Grams
  pastElect : Dict 32 PastElect
  grams : Grams
  activeId : Uint 32
  activeHash : Uint 256

/-- What a transaction sees besides the data. -/
structure Env where
  now : Uint 32
  config : Nat → Option Cell
  myAddress : MsgAddress

/-- `config_param(i).begin_parse()`. -/
def Env.param (env : Env) (i : Nat) : Outcome Slice := do
  let c ← orNull (env.config i)
  .ok c.beginParse

def Env.configAddr (env : Env) : Outcome (Uint 256) := do
  let cs ← env.param 0
  let (addr, _) ← loadUint 256 cs
  .ok addr

structure ValidatorConf where
  electFor : Int
  electBeginBefore : Int
  electEndBefore : Int
  stakeHeld : Int

def getValidatorConf (env : Env) : Outcome ValidatorConf := do
  let cs ← env.param 15
  let (electFor, cs) ← loadInt 32 cs
  let (electBeginBefore, cs) ← loadInt 32 cs
  let (electEndBefore, cs) ← loadInt 32 cs
  let (stakeHeld, _) ← loadInt 32 cs
  .ok { electFor, electBeginBefore, electEndBefore, stakeHeld }

def sendMessageBack (addr : MsgAddress) (ansTag : Uint 32) (queryId : Uint 64) (body : Int)
    (grams : Grams) (mode : Nat) : OutMsg where
  dest := addr
  value := grams
  body := ⟨Uint.bits ansTag ++ Uint.bits queryId ++ (if 0 ≤ body then bitsOf 32 body.toNat else []), []⟩
  mode := mode

def returnStake (addr : MsgAddress) (queryId : Uint 64) (reason : Int) : OutMsg :=
  sendMessageBack addr 0xee6f454c queryId reason 0 64

def confirmationValue : Grams := 1000000000

def sendConfirmation (addr : MsgAddress) (queryId : Uint 64) (comment : Int) : OutMsg :=
  sendMessageBack addr 0xf374484c queryId comment confirmationValue 2

section Stakes

variable (checkSignature : List Bool → List Bool → Uint 256 → Bool)

structure StakeOrder where
  validatorPubkey : Uint 256
  stakeAt : Uint 32
  maxFactor : Uint 32
  adnlAddr : Uint 256
  signature : List Bool

/-- Lines 104-109: the rest of a new stake message. -/
def unpackStakeOrder (cs : Slice) : Outcome StakeOrder := do
  let (validatorPubkey, cs) ← loadUint 256 cs
  let (stakeAt, cs) ← loadUint 32 cs
  let (maxFactor, cs) ← loadUint 32 cs
  let (adnlAddr, cs) ← loadUint 256 cs
  let (signed, cs) ← loadRef cs
  let signature ← preloadBits 512 signed.beginParse
  endParse cs
  .ok { validatorPubkey, stakeAt, maxFactor, adnlAddr, signature }

/-- What a validator signs. -/
def signedStake (order : StakeOrder) (srcAddr : Uint 256) : List Bool :=
  bitsOf 32 0x654c5074 ++ Uint.bits order.stakeAt ++ Uint.bits order.maxFactor ++ Uint.bits srcAddr ++
    Uint.bits order.adnlAddr

/-- Lines 124-173: the stake in the current election; the reason of a refusal otherwise. -/
def registerStake (env : Env) (elect : Elect) (order : StakeOrder) (srcAddr : Uint 256) (msgValue : Int) :
    Outcome (Except Int Elect) :=
  let stake := msgValue - 1000000000
  if stake * 2 ^ 12 < elect.totalStake then .ok (.error 2)
  else if order.stakeAt ≠ elect.electAt then .ok (.error 3)
  else if elect.finished then .ok (.error 0)
  else
    let old := elect.members.get? order.validatorPubkey
    let merged : Int := stake + (old.map fun mem => (mem.stake : Int)).getD 0
    if (old.map fun mem => decide (srcAddr ≠ mem.srcAddr)).getD false then .ok (.error 4)
    else if merged < elect.minStake then .ok (.error 5)
    else do
      throwUnless 44 (merged ≠ 0)
      let packed ← storeGrams merged
      let totalStake ← storeGrams (elect.totalStake + stake)
      let member : Member :=
        { stake := packed, time := env.now, maxFactor := order.maxFactor, srcAddr, adnlAddr := order.adnlAddr }
      .ok (.ok { elect with
        totalStake, failed := false, finished := false
        members := elect.members.set order.validatorPubkey.val order.validatorPubkey.isLt member })

def processNewStake (env : Env) (s : State) (sAddr : MsgAddress) (msgValue : Int) (cs : Slice)
    (queryId : Uint 64) : Outcome (State × List OutMsg) := do
  let (srcWc, srcAddr) ← parseStdAddr sAddr
  match s.elect with
  | none => .ok (s, [returnStake sAddr queryId 0])
  | some elect =>
    if srcWc + 1 ≠ 0 then .ok (s, [returnStake sAddr queryId 0])
    else do
      let order ← unpackStakeOrder cs
      let srcAddr ← storeUint 256 srcAddr
      if checkSignature (signedStake order srcAddr) order.signature order.validatorPubkey = false then
        .ok (s, [returnStake sAddr queryId 1])
      else if order.maxFactor.val < 0x10000 then .ok (s, [returnStake sAddr queryId 6])
      else do
        match ← registerStake env elect order srcAddr msgValue with
        | .error reason => .ok (s, [returnStake sAddr queryId reason])
        | .ok elect =>
          .ok ({ s with elect := some elect },
            if queryId.val ≠ 0 then [sendConfirmation sAddr queryId 0] else [])

end Stakes

/-- The credit of an address, zero for one without an entry. -/
def creditOf (credits : Dict 256 Grams) (addr : Nat) : Int :=
  match credits.get? addr with
  | none => 0
  | some val => val

/-- `credits 'amount' to 'addr' inside credit dictionary 'credits'`. -/
def creditTo (credits : Dict 256 Grams) (addr : Uint 256) (amount : Int) : Outcome (Dict 256 Grams) := do
  let sum ← storeGrams (amount + creditOf credits addr)
  .ok (credits.set addr.val addr.lt256 sum)

/-- Variables of the two loops over the frozen stakes. -/
structure Release where
  credits : Dict 256 Grams
  total : Int
  recovered : Int
  returnedBonuses : Int

/-- One round of the loops over the frozen stakes, with the bonus of a participant. -/
def releaseOne (bonusOf : Frozen → Outcome Int) (r : Release) (x : Frozen) : Outcome Release :=
  if x.banned then .ok { r with recovered := r.recovered + x.stake, total := r.total + x.stake }
  else do
    let bonus ← bonusOf x
    let credits ← creditTo r.credits x.addr (x.stake + bonus)
    .ok { r with credits, returnedBonuses := r.returnedBonuses + bonus, total := r.total + x.stake }

def releaseAll (bonusOf : Frozen → Outcome Int) (credits : Dict 256 Grams) (freezeDict : Dict 256 Frozen) :
    Outcome Release :=
  freezeDict.forEach (fun r _ x => releaseOne bonusOf r x)
    { credits, total := 0, recovered := 0, returnedBonuses := 0 }

def unfreezeWithoutBonuses (credits : Dict 256 Grams) (freezeDict : Dict 256 Frozen) (totStakes : Grams) :
    Outcome (Dict 256 Grams × Int) := do
  let r ← releaseAll (fun _ => .ok 0) credits freezeDict
  throwUnless 59 (r.total = totStakes)
  .ok (r.credits, r.recovered)

def unfreezeWithBonuses (credits : Dict 256 Grams) (freezeDict : Dict 256 Frozen)
    (totStakes totBonuses : Grams) : Outcome (Dict 256 Grams × Int) := do
  let r ← releaseAll (fun x => divInt (totBonuses * x.stake) totStakes) credits freezeDict
  throwUnless 59 (r.total = totStakes ∧ r.returnedBonuses ≤ totBonuses)
  .ok (r.credits, r.recovered + totBonuses - r.returnedBonuses)

/-- The branch of `unfreeze_all` for a record that was found. -/
def unfreezeRecord (credits : Dict 256 Grams) (fs : PastElect) : Outcome (Dict 256 Grams × Int) :=
  if 0 < fs.bonuses.val then unfreezeWithBonuses credits fs.frozen fs.totStakes fs.bonuses
  else unfreezeWithoutBonuses credits fs.frozen fs.totStakes

def unfreezeAll (credits : Dict 256 Grams) (pastElections : Dict 32 PastElect) (electId : Nat) :
    Outcome (Dict 256 Grams × Dict 32 PastElect × Int) :=
  match pastElections.get? electId with
  | none => .ok (credits, pastElections, 0)
  | some fs => do
    let (credits, unusedPrizes) ← unfreezeRecord credits fs
    .ok (credits, pastElections.erase electId, unusedPrizes)

section Receive

variable (checkSignature : List Bool → List Bool → Uint 256 → Bool)

def configSetConfirmed (env : Env) (s : State) (sAddr : MsgAddress) (queryId : Uint 64) (ok : Bool) :
    Outcome (State × List OutMsg) := do
  let (srcWc, srcAddr) ← parseStdAddr sAddr
  let configAddr ← env.configAddr
  match s.elect with
  | none => .ok (s, [])
  | some elect =>
    if srcWc + 1 ≠ 0 ∨ srcAddr ≠ configAddr then .ok (s, [])
    else if elect.electAt.val ≠ queryId.val ∨ elect.finished = false then .ok (s, [])
    else if ok then .ok (s, [])
    else do
      -- cancel elections, return stakes
      let (credits, pastElect, unusedPrizes) ← unfreezeAll s.credits s.pastElect elect.electAt
      let grams ← storeGrams (s.grams + unusedPrizes)
      .ok ({ s with elect := none, credits, pastElect, grams }, [])

def processSimpleTransfer (s : State) (sAddr : MsgAddress) (msgValue : Int) :
    Outcome (State × List OutMsg) := do
  let (srcWc, srcAddr) ← parseStdAddr sAddr
  if srcAddr ≠ 0 ∨ srcWc + 1 ≠ 0 ∨ s.activeId.val = 0 then do
    let grams ← storeGrams (s.grams + msgValue)
    .ok ({ s with grams }, [])
  else
    match s.pastElect.get? s.activeId with
    | none => do
      let grams ← storeGrams (s.grams + msgValue)
      .ok ({ s with grams }, [])
    | some fs => do
      let bonuses ← storeGrams (fs.bonuses + msgValue)
      .ok ({ s with pastElect := s.pastElect.set s.activeId.val s.activeId.isLt { fs with bonuses } }, [])

def recoverStake (op : Uint 32) (s : State) (sAddr : MsgAddress) (queryId : Uint 64) :
    Outcome (State × List OutMsg) := do
  let (srcWc, srcAddr) ← parseStdAddr sAddr
  if srcWc + 1 ≠ 0 then .ok (s, [sendMessageBack sAddr 0xfffffffe queryId op 0 64])
  else
    match s.credits.udictGet? srcAddr with
    | none => .ok (s, [sendMessageBack sAddr 0xfffffffe queryId op 0 64])
    | some amount =>
      .ok ({ s with credits := s.credits.erase srcAddr.toNat },
        [{ dest := sAddr, value := amount, mode := 64
           body := ⟨bitsOf 32 0xf96f7324 ++ Uint.bits queryId, []⟩ }])

/-- `upgrade_code` answers whether the message comes from the configuration contract and brings
new code. The code itself is not part of the data; `after_code_upgrade` sends the same reply. -/
def upgradeCode (env : Env) (sAddr : MsgAddress) (cs : Slice) : Outcome Bool :=
  if (env.config 0).isNone then .ok false
  else do
    let configAddr ← env.configAddr
    let (srcWc, srcAddr) ← parseStdAddr sAddr
    if srcWc + 1 ≠ 0 ∨ srcAddr ≠ configAddr then .ok false
    else do
      let (_, _) ← loadRef cs
      .ok true

/-- Messages with an operation code and a query id. -/
def dispatch (env : Env) (s : State) (m : InMsg) (op : Uint 32) (queryId : Uint 64) (inMsg : Slice) :
    Outcome (State × List OutMsg) :=
  if op.val = 0x4e73744b then processNewStake checkSignature env s m.src m.value inMsg queryId
  else if op.val = 0x47657424 then recoverStake op s m.src queryId
  else if op.val = 0x4e436f64 then do
    let ok ← upgradeCode env m.src inMsg
    .ok (s, [sendMessageBack m.src (if ok then 0xce436f64 else 0xffffffff) queryId op 0 64])
  else if op.val = 0xee764f4b ∨ op.val = 0xee764f6f then
    configSetConfirmed env s m.src queryId (op.val = 0xee764f4b)
  else if op.val < 2 ^ 31 then .ok (s, [sendMessageBack m.src 0xffffffff queryId op 0 64])
  else .ok (s, [])

def recvInternal (env : Env) (s : State) (m : InMsg) : Outcome (State × List OutMsg) :=
  if m.bounced then .ok (s, [])
  else if m.body.isEmpty then processSimpleTransfer s m.src m.value
  else do
    let (op, inMsg) ← loadUint 32 m.body
    if op.val = 0 then processSimpleTransfer s m.src m.value
    else do
      let (queryId, inMsg) ← loadUint 64 inMsg
      dispatch checkSignature env s m op queryId inMsg

end Receive

end TonStaking.Source.Elector
