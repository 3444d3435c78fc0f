import TonStaking.Source.StakingPool.Handlers

/-!
# Staking pool: entry points

`staking/smartcont/staking-pool-code.fc` 466-607 and the index methods 714-775.
`recv_internal` first reads the whole request from the body and then calls one
handler, so the two halves are separate definitions here. The compiled contract
drops the unused `parse_std_addr` of line 487 and the two unused loads of the
`UPDB` request (lines 522-523).
-/
namespace TonStaking.Source.StakingPool
open Tvm

inductive Request where
  | newSubscription
  | redeem (queryId subscriptionId : Int)
  | activateWallet (walletAddress : Uint 256) (walletStatus : Uint 8)
  | transferToWallet (walletAddress : Uint 256) (grams : Grams)
  | withdrawFromWallet (walletAddress : Uint 256) (grams : Grams)
  | fetchBalances
  | gotBalance (balance stake : Grams)
  | newPeriod
  | setConfig (option : Uint 8) (inMsg : Slice)
  | ignored

/-- The `while` loop of `decode_text`. Each round takes eight bits, so the bit
count bounds the number of rounds. -/
def decodeDigits : Nat → Slice → Int → Outcome Int
  | 0, _, _ => .error .cellUnd
  | fuel + 1, inMsg, res =>
    if inMsg.isEmpty then .ok res
    else do
      let (curChar, inMsg) ← loadUint 8 inMsg
      throwUnless 57 (0x30 ≤ curChar.val ∧ curChar.val ≤ 0x39)
      let shifted ← mulInt res 10
      let sum ← addInt shifted curChar
      let res ← addInt sum (-0x30)
      decodeDigits fuel inMsg res

/-- `process redeem text R123 for example`; any first character but `4` is accepted. -/
def decodeText (inMsg : Slice) : Outcome Int := do
  let (curChar, inMsg) ← loadUint 8 inMsg
  throwUnless 56 (curChar.val ≠ 52)
  decodeDigits (inMsg.bits.length + 1) inMsg 0

/-- A request with a nonzero operation code. -/
def parseOperation (op : Uint 32) (queryId : Uint 64) (inMsg : Slice) : Outcome Request :=
  if op.val = 0x534D4452 then do
    let (subscriptionId, _) ← loadUint 32 inMsg
    .ok (.redeem queryId subscriptionId)
  else if op.val = 0x544c5741 then do
    let (walletAddress, inMsg) ← loadUint 256 inMsg
    let (walletStatus, _) ← loadUint 8 inMsg
    .ok (.activateWallet walletAddress walletStatus)
  else if op.val = 0x534e5254 then do
    let (walletAddress, inMsg) ← loadUint 256 inMsg
    let (grams, _) ← loadGrams inMsg
    .ok (.transferToWallet walletAddress grams)
  else if op.val = 0x52445457 then do
    let (walletAddress, inMsg) ← loadUint 256 inMsg
    let (grams, _) ← loadGrams inMsg
    .ok (.withdrawFromWallet walletAddress grams)
  else if op.val = 0x42445055 then .ok .fetchBalances
  else if op.val = 0x4c425447 then do
    let (balance, inMsg) ← loadGrams inMsg
    let (stake, _) ← loadGrams inMsg
    .ok (.gotBalance balance stake)
  else if op.val = 0x5057454e then .ok .newPeriod
  else if op.val = 0x43544553 then do
    let (option, inMsg) ← loadUint 8 inMsg
    .ok (.setConfig option inMsg)
  else .ok .ignored

def parseRequest (inMsg : Slice) : Outcome Request :=
  if inMsg.isEmpty then .ok .newSubscription
  else do
    let (op, inMsg) ← loadUint 32 inMsg
    if op.val = 0 then
      if inMsg.isEmpty then .ok .newSubscription
      else do
        let subscriptionId ← decodeText inMsg
        .ok (.redeem 0 subscriptionId)
    else do
      let (queryId, inMsg) ← loadUint 64 inMsg
      parseOperation op queryId inMsg

section Internal

variable (cellHash : Cell → Uint 256)

def handle (s : State) (m : InMsg) : Request → Outcome (State × List OutMsg)
  | .newSubscription => processNewSubscription cellHash s m.src m.value
  | .redeem queryId subscriptionId => processRedeem s m.src queryId m.value subscriptionId
  | .activateWallet walletAddress walletStatus =>
    processActivateWallet s m.src m.value walletAddress walletStatus
  | .transferToWallet walletAddress grams =>
    processTransferToWallet s m.src m.value walletAddress grams m.balance
  | .withdrawFromWallet walletAddress grams =>
    processWithdrawFromWallet s m.src m.value walletAddress grams
  | .fetchBalances => processFetchBalances s m.src m.value m.balance
  | .gotBalance balance stake => processGotBalance s m.src balance stake
  | .newPeriod => processNewPeriod s m.src m.value
  | .setConfig option inMsg => processSetConfig s m.src m.value option inMsg
  | .ignored => .ok (s, [])

def recvInternal (s : State) (m : InMsg) : Outcome (State × List OutMsg) :=
  if m.bounced then .ok (s, [])
  else do
    let request ← parseRequest m.body
    handle cellHash s m request

/-- The first external message: `load_bits(256)` and two references, the first
one the root of a dictionary, which is never empty. -/
structure InitMessage where
  poolAddress : Uint 256
  nominators : Dict 256 Slice
  nominatorCode : Cell
  nonempty : nominators.entries ≠ []

/-- Data of the contract before and after the first external message. -/
inductive Data where
  | fresh (currentPeriod : Uint 16) (poolConfig : PoolConfig)
  | running (s : State)

/-- Initial data of a nominator contract: not initialised, the pool's address, the
wallet id, and zero for the election and the three amounts. -/
def nominatorInitState (poolAddr : Uint 256) (idx : Uint 32) : Cell :=
  .mk (false :: (Uint.bits poolAddr ++ Uint.bits idx ++ Uint.bits (0 : Uint 32) ++
    gramsBits 0 ++ gramsBits 0 ++ gramsBits 0)) []

def calculateNominatorAddress (code : Cell) (poolAddr : Uint 256) (idx : Uint 32) : Uint 256 :=
  cellHash (.mk [false, false, true, true, false] [code, nominatorInitState poolAddr idx])

/-- The loop of `try_init` over the submitted nominators; it rewrites the
dictionary it walks through. -/
def checkNominators (code : Cell) (poolAddr : Uint 256) :
    Nat → Int → Dict 256 Slice → Outcome (Dict 256 Slice)
  | 0, _, nominators => .ok nominators
  | fuel + 1, nominatorAddress, nominators =>
    match nominators.udictGetNext? nominatorAddress with
    | none => .ok nominators
    | some (address, raw) => do
      let nominator ← unpackNominator raw
      if (calculateNominatorAddress cellHash code poolAddr nominator.walletId).val ≠ address then do
        let invalid ← packNominator 2 0 0 nominator.walletId
        let nominators ← nominators.udictSet address invalid
        checkNominators code poolAddr fuel address nominators
      else checkNominators code poolAddr fuel address nominators

/-- `try_init` on data that parses as a period and a configuration reference. -/
def tryInit (currentPeriod : Uint 16) (poolConfig : PoolConfig) (init : InitMessage)
    (balance : Grams) : Outcome State := do
  throwUnless 30 (currentPeriod.val = 0)
  throwIf 37 (currentPeriod.val ≠ 0)
  let nominators ← checkNominators cellHash init.nominatorCode init.poolAddress
    (init.nominators.entries.length + 1) 0 init.nominators
  let units ← divInt balance 10000
  let first ← packPerformance 10000 balance units 0 0
  let performance ← (Dict.empty : Dict 16 Performance).udictSet currentPeriod first
  let hash ← subscriberHash cellHash 0 poolConfig.owner
  let entry ← packSubscribersEntry 1
  let subscriber ← Hashmap.udictSet 16 none currentPeriod entry
  let packed ← packSubscription poolConfig.owner 0 balance currentPeriod 0 1
  let subscriptions ← (Dict.empty : Dict 32 Subscription).udictSet 1 packed
  let opened ← packPerformance 0 balance units 0 0
  let performance ← performance.udictSet (currentPeriod + 1) opened
  let currentPeriod ← storeUint 16 (currentPeriod + 1)
  .ok
    { currentPeriod, performance, subscriptions
      poolConfig := { poolConfig with pendingOwner := 0, nominators }
      subscribers := (Dict.empty : Dict 256 Subscriber).set hash.val hash.lt256 subscriber }

/-- `recv_external`. Data with four dictionaries fails the `end_parse` of `try_init`. -/
def recvExternal (init : InitMessage) (balance : Grams) : Data → Outcome Data
  | .fresh currentPeriod poolConfig => do
    let s ← tryInit cellHash currentPeriod poolConfig init balance
    .ok (.running s)
  | .running _ => .error .cellUnd

/-- Key of an address in the index methods, which store the workchain signed. -/
def subscriberMethodHash (subscriberWc subscriberAddress : Int) : Outcome (Uint 256) := do
  let wc ← storeInt 8 subscriberWc
  let addr ← storeUint 256 subscriberAddress
  .ok (cellHash (.mk (bitsOf 8 (wc.val % 2 ^ 8).toNat ++ Uint.bits addr) []))

/-- `get_subscribers_subscription`. For any other direction `s_found` still holds the
outcome of the outer lookup and the entry is null. -/
def getSubscribersSubscription (s : State) (subscriberWc subscriberAddress period direction : Int) :
    Outcome (Int × Int) := do
  let hash ← subscriberMethodHash cellHash subscriberWc subscriberAddress
  match s.subscribers.get? hash with
  | none => .ok (0, 0)
  | some subscriber => do
    let near : Outcome (Option (Int × Slice)) :=
      if direction = 0 then do
        let entry ← Hashmap.udictGet? 16 subscriber period
        .ok (entry.map fun e => (period, e))
      else if direction = 1 then do
        let entry ← Hashmap.udictGetNext? 16 subscriber period
        .ok (entry.map fun e => ((e.1 : Int), e.2))
      else if direction = -1 then do
        let entry ← Hashmap.udictGetPrev? 16 subscriber period
        .ok (entry.map fun e => ((e.1 : Int), e.2))
      else .error .typeChk
    match ← near with
    | none => .ok (0, 0)
    | some (period, entry) => do
      let subscriptionId ← unpackSubscribersEntry entry
      .ok (period, (subscriptionId : Int))

/-- The loop of `get_subscribers_subscriptions`; keys grow, so their number bounds it. -/
def collectSubscriptions (subscriber : Subscriber) :
    Nat → Int → List (Nat × Uint 32) → Outcome (List (Nat × Uint 32))
  | 0, _, res => .ok res
  | fuel + 1, period, res => do
    match ← Hashmap.udictGetNext? 16 subscriber period with
    | none => .ok res
    | some (next, entry) => do
      let subscriptionId ← unpackSubscribersEntry entry
      collectSubscriptions subscriber fuel next ((next, subscriptionId) :: res)

def getSubscribersSubscriptions (s : State) (subscriberWc subscriberAddress : Int) :
    Outcome (List (Nat × Uint 32)) := do
  let hash ← subscriberMethodHash cellHash subscriberWc subscriberAddress
  match s.subscribers.get? hash with
  | none => .ok []
  | some subscriber => collectSubscriptions subscriber (2 ^ 16) 0 []

end Internal

end TonStaking.Source.StakingPool
