import TonStaking.Tvm.Message
import TonStaking.Tvm.Transaction

/-!
# Nominator contract

`staking/smartcont/nominator-code.fc`, one definition for each function. The
contract stands between the pool in workchain 0 and the elector, whose address
is parameter 1 of the masterchain configuration.

`send_message` stores the body into the cell of the message. A cell holds 1023
bits, which leaves no room for a stake order, and the bodies of a recover
request and of a withdrawal are null. These three requests never succeed.
-/
namespace TonStaking.Source.NominatorContract
open Tvm

structure State where
  initialized : Uint 1
  poolAddress : Uint 256
  walletId : Uint 32
  stakeAt : Uint 32
  stakeSent : Grams
  balance : Grams
  stake : Grams
  deriving DecidableEq, Repr

def packState (initialized poolAddress walletId stakeAt stakeSent balance stake : Int) :
    Outcome State := do
  let initialized ← storeUint 1 initialized
  let poolAddress ← storeUint 256 poolAddress
  let walletId ← storeUint 32 walletId
  let stakeAt ← storeUint 32 stakeAt
  let stakeSent ← storeGrams stakeSent
  let balance ← storeGrams balance
  let stake ← storeGrams stake
  .ok { initialized, poolAddress, walletId, stakeAt, stakeSent, balance, stake }

/-- `unpack_state` with its `end_parse`. -/
def unpackState (ds : Slice) : Outcome State := do
  let (initialized, ds) ← loadUint 1 ds
  let (poolAddress, ds) ← loadUint 256 ds
  let (walletId, ds) ← loadUint 32 ds
  let (stakeAt, ds) ← loadUint 32 ds
  let (stakeSent, ds) ← loadGrams ds
  let (balance, ds) ← loadGrams ds
  let (stake, ds) ← loadGrams ds
  if ds.isEmpty then .ok { initialized, poolAddress, walletId, stakeAt, stakeSent, balance, stake }
  else .error .cellUnd

structure StakeOrder where
  validatorPubkey : Uint 256
  stakeAt : Uint 32
  maxFactor : Uint 32
  adnlAddress : Uint 256
  signature : List Bool
  width : signature.length = 512

def unpackStakeOrder (cs : Slice) : Outcome StakeOrder := do
  let (validatorPubkey, cs) ← loadUint 256 cs
  let (stakeAt, cs) ← loadUint 32 cs
  let (maxFactor, cs) ← loadUint 32 cs
  let (adnlAddress, cs) ← loadUint 256 cs
  match cs.refs with
  | [] => .error .cellUnd
  | signed :: _ =>
    if long : 512 ≤ signed.bits.length then
      .ok { validatorPubkey, stakeAt, maxFactor, adnlAddress
            signature := signed.bits.take 512, width := List.length_take_of_le long }
    else .error .cellUnd

def packStakeOrder (order : StakeOrder) : Slice :=
  ⟨Uint.bits order.validatorPubkey ++ Uint.bits order.stakeAt ++ Uint.bits order.maxFactor ++
    Uint.bits order.adnlAddress, [.mk order.signature []]⟩

/-- Bits in front of the body: the flags, the destination, the value, 107 zero bits,
the operation and the query id. -/
def headerWidth (addr : MsgAddress) (value : Grams) : Nat :=
  6 + addr.width + (gramsBits value).length + 107 + 32 + 64

/-- `send_message`; a null body is `none`. -/
def sendMessage (addr : MsgAddress) (op queryId : Int) (body : Option Slice) (grams : Int)
    (mode : Nat) : Outcome OutMsg := do
  let value ← storeGrams grams
  let op ← storeUint 32 op
  let queryId ← storeUint 64 queryId
  let body ← orNull body
  if headerWidth addr value + body.bits.length ≤ 1023 ∧ body.refs.length ≤ 4 then
    .ok { dest := addr, value, mode
          body := ⟨Uint.bits op ++ (Uint.bits queryId ++ body.bits), body.refs⟩ }
  else .error .cellOv

inductive Request where
  | simpleTransfer
  | recoverStake
  | returnStake (reason : Uint 32)
  | confirmStake
  | stake (inMsg : Slice)
  | recoverStakeRequest
  | withdraw (queryId : Uint 64) (grams : Grams)
  | updateBalance (queryId : Uint 64)
  | ignored

/-- A request with a nonzero operation code. The amount of a stake order is read and
not used: the value of the message is staked. -/
def parseOperation (op : Uint 32) (queryId : Uint 64) (inMsg : Slice) : Outcome Request :=
  if op.val = 0xf96f7324 then .ok .recoverStake
  else if op.val = 0xee6f454c then do
    let (reason, _) ← loadUint 32 inMsg
    .ok (.returnStake reason)
  else if op.val = 0xf374484c then do
    let (_, _) ← loadUint 32 inMsg
    .ok .confirmStake
  else if op.val = 0x4e73744b then do
    let (_, inMsg) ← loadGrams inMsg
    .ok (.stake inMsg)
  else if op.val = 0x47657424 then .ok .recoverStakeRequest
  else if op.val = 0x52445457 then do
    let (grams, _) ← loadGrams inMsg
    .ok (.withdraw queryId grams)
  else if op.val = 0x42435446 then .ok (.updateBalance queryId)
  else .ok .ignored

def parseRequest (inMsg : Slice) : Outcome Request :=
  if inMsg.isEmpty then .ok .simpleTransfer
  else do
    let (op, inMsg) ← loadUint 32 inMsg
    if op.val = 0 then .ok .simpleTransfer
    else do
      let (queryId, inMsg) ← loadUint 64 inMsg
      parseOperation op queryId inMsg

section Handlers

variable (elector : Uint 256)

def getElectorAddrS : MsgAddress := .tag6 ⟨-1, master_fits⟩ elector

/-- `preload_int(256)`: the address as a signed number. -/
def getElectorAddr : Int := if elector.val < 2 ^ 255 then elector.val else (elector.val : Int) - 2 ^ 256

/-- Guard of the three elector answers. -/
def fromElector (sAddr : MsgAddress) : Outcome Unit := do
  let (srcWc, srcAddr) ← parseStdAddr sAddr
  throwUnless 43 (srcWc = -1 ∧ srcAddr = getElectorAddr elector)

/-- Guard of the requests of the pool. -/
def fromPool (s : State) (sAddr : MsgAddress) : Outcome Unit := do
  let (srcWc, srcAddr) ← parseStdAddr sAddr
  throwUnless 40 (srcWc = 0 ∧ srcAddr = s.poolAddress)

def processReturnStake (s : State) (sAddr : MsgAddress) : Outcome (State × List OutMsg) := do
  fromElector elector sAddr
  let stakeAt : Int := if s.stake.val = 0 then 0 else s.stakeAt
  let after ← packState s.initialized s.poolAddress s.walletId stakeAt 0 s.balance s.stake
  .ok (after, [])

def processConfirmStake (s : State) (sAddr : MsgAddress) : Outcome (State × List OutMsg) := do
  fromElector elector sAddr
  let after ← packState s.initialized s.poolAddress s.walletId s.stakeAt 0 s.balance s.stakeSent
  .ok (after, [])

def processRecoverStake (s : State) (sAddr : MsgAddress) (msgValue : Int) :
    Outcome (State × List OutMsg) := do
  fromElector elector sAddr
  let (stakeAt, stake) : Int × Int :=
    if (s.stake : Int) ≤ msgValue then (0, 0) else (s.stakeAt, s.stake - msgValue)
  let after ← packState s.initialized s.poolAddress s.walletId stakeAt s.stakeSent
    (s.balance + msgValue) stake
  .ok (after, [])

def processStake (s : State) (sAddr : MsgAddress) (grams : Int) (inMsg : Slice) :
    Outcome (State × List OutMsg) := do
  fromPool s sAddr
  let order ← unpackStakeOrder inMsg
  throwUnless 41 (s.stakeAt.val = 0 ∨ order.stakeAt = s.stakeAt)
  throwUnless 42 (s.stakeSent.val = 0)
  let sent ← sendMessage (getElectorAddrS elector) 0x4e73744b 1 (some (packStakeOrder order)) grams 3
  let after ← packState s.initialized s.poolAddress s.walletId order.stakeAt (s.stakeSent + grams)
    (s.balance - grams) s.stake
  .ok (after, [sent])

def processRecoverStakeRequest (s : State) (sAddr : MsgAddress) : Outcome (State × List OutMsg) := do
  fromPool s sAddr
  let sent ← sendMessage (getElectorAddrS elector) 0x47657424 1 none 10000000 3
  .ok (s, [sent])

def processWithdrawRequest (s : State) (sAddr : MsgAddress) (queryId grams : Int) :
    Outcome (State × List OutMsg) := do
  fromPool s sAddr
  let sent ← sendMessage sAddr 0x534e5254 queryId none grams 3
  .ok (s, [sent])

/-- `balance` is what `get_balance` returns. -/
def processUpdateBalanceRequest (s : State) (sAddr : MsgAddress) (queryId : Int) (balance : Grams) :
    Outcome (State × List OutMsg) := do
  fromPool s sAddr
  let sent ← sendMessage sAddr 0x4c425447 queryId
    (some ⟨gramsBits balance ++ gramsBits s.stake, []⟩) 1000000 3
  let after ← packState s.initialized s.poolAddress s.walletId s.stakeAt s.stakeSent balance s.stake
  .ok (after, [sent])

def handle (s : State) (m : InMsg) : Request → Outcome (State × List OutMsg)
  | .simpleTransfer => .ok (s, [])
  | .recoverStake => processRecoverStake elector s m.src m.value
  | .returnStake _ => processReturnStake elector s m.src
  | .confirmStake => processConfirmStake elector s m.src
  | .stake inMsg => processStake elector s m.src m.value inMsg
  | .recoverStakeRequest => processRecoverStakeRequest elector s m.src
  | .withdraw queryId grams => processWithdrawRequest s m.src queryId grams
  | .updateBalance queryId => processUpdateBalanceRequest s m.src queryId m.balance
  | .ignored => .ok (s, [])

def recvInternal (s : State) (m : InMsg) : Outcome (State × List OutMsg) :=
  if m.bounced then .ok (s, [])
  else do
    let request ← parseRequest m.body
    handle elector s m request

/-- `recv_external`: `try_init` of a contract that is not initialised. -/
def recvExternal (s : State) (balance : Grams) : Outcome State := do
  throwUnless 40 (s.initialized.val = 0)
  packState 1 s.poolAddress s.walletId 0 0 balance 0

end Handlers

/-- The data a nominator is deployed with. -/
def deployed (poolAddress : Uint 256) (walletId : Uint 32) : State where
  initialized := 0
  poolAddress := poolAddress
  walletId := walletId
  stakeAt := 0
  stakeSent := 0
  balance := 0
  stake := 0

inductive Input where
  | internal (m : InMsg)
  | aborted (m : InMsg)
  | external (balance : Grams)

/-- One transaction. `try_init` has no `accept_message`, so an external message is dropped
whatever it computes. -/
def receive (elector : Uint 256) (s : State) : Input → Outcome (State × List OutMsg)
  | .internal m => recvInternal elector s m
  | .aborted _ => .error .outOfGas
  | .external balance => do
    let _ ← recvExternal s balance
    .error .outOfGas

/-- The elector of the main network. -/
def sampleElector : Uint 256 :=
  ⟨0x3333333333333333333333333333333333333333333333333333333333333333, by decide⟩

end TonStaking.Source.NominatorContract
