import TonStaking.Source.StakingPool.Layout

/-!
# Staking pool: message handlers

`staking/smartcont/staking-pool-code.fc` 131-477, one definition for each
function. A handler returns the new contract data and the queued messages, or
the exception that leaves both untouched.

The compiled contract (`staking/smartcont/auto/staking-pool-code.fif`) settles
what the source text leaves to the compiler: a call without `impure` whose
result is not used is dropped. In `process_new_period` this removes the lookup
of the owner's index entry, which is only ever written to a local dictionary.
-/
namespace TonStaking.Source.StakingPool
open Tvm

/-- `(1 << 31) + ((1 << 31) - 1)`. -/
def lastIdx : Int := 2 ^ 31 + (2 ^ 31 - 1)

/-- What `process_redeem` leaves of the subscription and of the current period. -/
structure Redemption where
  grams : Int
  endPeriod : Int
  status : Int
  aum : Int
  deposits : Int
  withdrawals : Int
  sent : List OutMsg

def redeemOp : Int := 0x4d444552

/-- Lines 151-159: redeem in the current period, with the penalty. -/
def redeemCurrent (s : State) (sAddr : MsgAddress) (queryId : Int) (sub : Subscription)
    (current : Performance) : Outcome Redemption := do
  throwUnless 57 (sub.grams.val ≤ current.aum.val)
  let scaled ← mulInt sub.grams s.poolConfig.penaltyFee
  let penalty ← divInt scaled 10000
  let back ← sendMessage sAddr redeemOp queryId 0 (sub.grams - penalty) 64
  let owner ← getAddressSlice 0 s.poolConfig.owner
  let fine ← sendMessage owner redeemOp queryId 0 penalty 64
  .ok
    { grams := 0
      endPeriod := sub.endPeriod
      status := 0
      aum := current.aum - sub.grams
      deposits := current.deposits - sub.grams
      withdrawals := current.withdrawals
      sent := [back, fine] }

/-- Lines 160-173: redeem a subscription of an earlier period with its reward. -/
def redeemEarlier (s : State) (sAddr : MsgAddress) (queryId : Int) (sub : Subscription)
    (current : Performance) : Outcome Redemption := do
  let start ← orThrow 43 (s.performance.udictGet? sub.startPeriod)
  let last ← orThrow 44 (s.performance.udictGet? (s.currentPeriod - 1))
  let units ← divInt sub.grams start.rate
  throwUnless 57 (sub.grams.val ≤ current.aum.val)
  let scaled ← mulInt last.rate sub.grams
  let amount ← divInt scaled start.rate
  let back ← sendMessage sAddr redeemOp queryId 0 amount 64
  .ok
    { grams := sub.grams
      endPeriod := s.currentPeriod
      status := 2
      aum := current.aum - amount
      deposits := current.deposits
      withdrawals := current.withdrawals + units
      sent := [back] }

def redeem (s : State) (sAddr : MsgAddress) (queryId : Int) (sub : Subscription)
    (current : Performance) : Outcome Redemption :=
  if sub.startPeriod = s.currentPeriod then redeemCurrent s sAddr queryId sub current
  else redeemEarlier s sAddr queryId sub current

def processRedeem (s : State) (sAddr : MsgAddress) (queryId msgValue subscriptionId : Int) :
    Outcome (State × List OutMsg) := do
  let (srcWc, srcAddr) ← parseStdAddr sAddr
  let sub ← orThrow 41 (s.subscriptions.udictGet? subscriptionId)
  throwUnless 42 (sub.status.val = 1)
  throwUnless 43 (srcWc = sub.subscriberWc.val ∧ srcAddr = sub.subscriber)
  let current ← orThrow 45 (s.performance.udictGet? s.currentPeriod)
  throwUnless 60 ((s.poolConfig.transactionFee : Int) ≤ msgValue)
  let r ← redeem s sAddr queryId sub current
  let packed ← packSubscription sub.subscriber sub.subscriberWc.val r.grams sub.startPeriod
    r.endPeriod r.status
  let subscriptions ← s.subscriptions.udictSet subscriptionId packed
  let updated ← packPerformance current.rate r.aum current.units r.deposits r.withdrawals
  let performance ← s.performance.udictSet s.currentPeriod updated
  .ok ({ s with performance, subscriptions }, r.sent)

section Subscribe

variable (cellHash : Cell → Uint 256)

/-- Key of a sender in the subscribers dictionary; the workchain is stored unsigned. -/
def subscriberHash (srcWc srcAddr : Int) : Outcome (Uint 256) := do
  let wc ← storeUint 8 srcWc
  let addr ← storeUint 256 srcAddr
  .ok (cellHash (.mk (Uint.bits wc ++ Uint.bits addr) []))

/-- Lines 206-209: add to the entry that the sender's dictionary points to. The
entry, a 32-bit id, is unpacked as if it were the subscription itself. -/
def topUp (s : State) (srcWc srcAddr amount : Int) (last : Slice) : Outcome (Dict 32 Subscription) := do
  let (idx, _) ← loadUint 32 last
  let old ← unpackSubscription last
  let packed ← packSubscription srcAddr srcWc (old.grams + amount) old.startPeriod old.endPeriod
    old.status
  s.subscriptions.udictSet idx packed

/-- Lines 200-211: the sender's dictionary and the subscriptions after the top-up
branch. The id found here is bound to an inner variable and lost. `&` evaluates both
sides, so a search that finds nothing compares a null period. -/
def findSubscriber (s : State) (hash : Uint 256) (srcWc srcAddr amount : Int) :
    Outcome (Subscriber × Dict 32 Subscription) :=
  match s.subscribers.get? hash with
  | none => .ok (none, s.subscriptions)
  | some subscriber => do
    let last ← Hashmap.udictGetPrev? 32 subscriber lastIdx
    let (period, entry) ← orNull last
    if period = s.currentPeriod.val then do
      let subscriptions ← topUp s srcWc srcAddr amount entry
      .ok (subscriber, subscriptions)
    else .ok (subscriber, s.subscriptions)

def processNewSubscription (s : State) (sAddr : MsgAddress) (msgValue : Int) :
    Outcome (State × List OutMsg) := do
  let fee : Int := s.poolConfig.transactionFee
  throwUnless 60 (fee ≤ msgValue)
  let (srcWc, srcAddr) ← parseStdAddr sAddr
  let hash ← subscriberHash cellHash srcWc srcAddr
  if srcWc = 0 ∧ srcAddr = s.poolConfig.owner then .ok (s, [])
  else do
    let (subscriber, subscriptions) ← findSubscriber s hash srcWc srcAddr (msgValue - fee)
    let last := (subscriptions.udictGetPrev? lastIdx).map Prod.fst
    let lastId ← orNull last
    let entry ← packSubscribersEntry lastId
    let subscriber ← Hashmap.udictSet 16 subscriber s.currentPeriod entry
    let packed ← packSubscription srcAddr srcWc (msgValue - fee) s.currentPeriod 0 1
    let subscriptions ← subscriptions.udictSet (lastId + 1) packed
    let current ← orNull (s.performance.udictGet? s.currentPeriod)
    let updated ← packPerformance current.rate (current.aum + msgValue) current.units
      (current.deposits + msgValue) current.withdrawals
    let performance ← s.performance.udictSet s.currentPeriod updated
    .ok ({ s with
      performance, subscriptions
      subscribers := s.subscribers.set hash.val hash.lt256 subscriber }, [])

end Subscribe

/-- Lines 263-278: the incentive fee of a profitable period, issued to the owner
as a subscription of the closing period. -/
def issueOwnersShare (s : State) (srcWc srcAddr managedUnits newRate prevRate : Int) :
    Outcome (Dict 32 Subscription) := do
  let gross ← mulInt managedUnits newRate
  let base ← mulInt managedUnits prevRate
  if base < gross then do
    let scaled ← mulInt (gross - base) s.poolConfig.ownerFee
    let ownersShare ← divInt scaled 10000
    let lastId ← orNull ((s.subscriptions.udictGetPrev? lastIdx).map Prod.fst)
    let packed ← packSubscription srcAddr srcWc ownersShare s.currentPeriod 0 1
    s.subscriptions.udictSet (lastId + 1) packed
  else .ok s.subscriptions

def processNewPeriod (s : State) (sAddr : MsgAddress) (msgValue : Int) :
    Outcome (State × List OutMsg) := do
  let (srcWc, srcAddr) ← parseStdAddr sAddr
  throwUnless 60 ((s.poolConfig.transactionFee : Int) ≤ msgValue)
  let current ← orThrow 43 (s.performance.udictGet? s.currentPeriod)
  let previous ← orThrow 44 (s.performance.udictGetPrev? s.currentPeriod)
  throwUnless 50 (srcWc = 0 ∧ srcAddr = s.poolConfig.owner)
  let managedAum : Int := current.aum - current.deposits
  let managedUnits : Int := current.units - current.withdrawals
  let newRate ← divInt managedAum managedUnits
  let newUnits ← divInt current.aum newRate
  let subscriptions ← issueOwnersShare s srcWc srcAddr managedUnits newRate previous.2.rate
  let closed ← packPerformance newRate current.aum current.units current.deposits current.withdrawals
  let performance ← s.performance.udictSet s.currentPeriod closed
  let opened ← packPerformance 0 current.aum newUnits 0 0
  let performance ← performance.udictSet (s.currentPeriod + 1) opened
  let currentPeriod ← storeUint 16 (s.currentPeriod + 1)
  .ok ({ s with currentPeriod, performance, subscriptions }, [])

/-- `sets the status of nominators wallet`. The fourth unpacked field rebinds
`wallet_id`, so the entry is stored under the wallet id and not under the
address it was read from. -/
def processActivateWallet (s : State) (sAddr : MsgAddress) (msgValue walletId newStatus : Int) :
    Outcome (State × List OutMsg) := do
  throwUnless 60 ((s.poolConfig.transactionFee : Int) ≤ msgValue)
  let (srcWc, srcAddr) ← parseStdAddr sAddr
  throwUnless 50 (srcWc = 0 ∧ srcAddr = s.poolConfig.owner)
  let raw ← orThrow 51 (s.poolConfig.nominators.udictGet? walletId)
  let nominator ← unpackNominator raw
  throwIf 78 (nominator.status.val = 2)
  throwIf 52 ((nominator.status : Int) = newStatus)
  let packed ← packNominator newStatus nominator.balance nominator.stake nominator.walletId
  let nominators ← s.poolConfig.nominators.udictSet nominator.walletId packed
  .ok ({ s with poolConfig := { s.poolConfig with nominators } }, [])

/-- The `do .. until` loop of `process_fetch_balances`: one balance request to
every active nominator above the given address. -/
def requestBalances (nominators : Dict 256 Slice) : Nat → Int → Outcome (List OutMsg)
  | 0, _ => .ok []
  | fuel + 1, addressIdx =>
    match nominators.udictGetNext? addressIdx with
    | none => .ok []
    | some (address, raw) => do
      let nominator ← unpackNominator raw
      if nominator.status.val = 1 then do
        let dest ← getAddressSlice (-1) address
        let request ← sendMessage dest 0x42435446 1 0 1000000 64
        let rest ← requestBalances nominators fuel address
        .ok (request :: rest)
      else requestBalances nominators fuel address

def processFetchBalances (s : State) (sAddr : MsgAddress) (msgValue : Int) (balance : Grams) :
    Outcome (State × List OutMsg) := do
  throwUnless 60 ((s.poolConfig.transactionFee : Int) ≤ msgValue)
  let (srcWc, srcAddr) ← parseStdAddr sAddr
  throwUnless 50 (srcWc = 0 ∧ srcAddr = s.poolConfig.owner)
  let nominators := s.poolConfig.nominators
  let sent ← requestBalances nominators (nominators.entries.length + 1) 0
  let current ← orNull (s.performance.udictGet? s.currentPeriod)
  let updated ← packPerformance current.rate balance current.units current.deposits
    current.withdrawals
  let performance ← s.performance.udictSet s.currentPeriod updated
  .ok ({ s with performance }, sent)

def processGotBalance (s : State) (sAddr : MsgAddress) (balance stake : Int) :
    Outcome (State × List OutMsg) := do
  let (srcWc, srcAddr) ← parseStdAddr sAddr
  let found := s.poolConfig.nominators.udictGet? srcAddr
  throwUnless 55 (srcWc = -1 ∧ found.isSome)
  let raw ← orNull found
  let nominator ← unpackNominator raw
  let packed ← packNominator nominator.status balance stake nominator.walletId
  let nominators ← s.poolConfig.nominators.udictSet srcAddr packed
  let current ← orNull (s.performance.udictGet? s.currentPeriod)
  let updated ← packPerformance current.rate (current.aum + balance + stake) current.units
    current.deposits current.withdrawals
  let performance ← s.performance.udictSet s.currentPeriod updated
  .ok ({ s with performance, poolConfig := { s.poolConfig with nominators } }, [])

/-- `process_transfer_to_wallet` and `process_withdraw_from_wallet` share this tail.
Both negate `found` in their guard. -/
def orderNominator (s : State) (nominatorAddress grams op : Int) (code : Nat) :
    Outcome (State × List OutMsg) := do
  let found := s.poolConfig.nominators.udictGet? nominatorAddress
  throwUnless code (¬ found.isSome)
  let raw ← orNull found
  let nominator ← unpackNominator raw
  if nominator.status.val = 1 then do
    let dest ← getAddressSlice (-1) nominatorAddress
    let order ← sendMessage dest op 1 0 grams 64
    .ok (s, [order])
  else .ok (s, [])

def processTransferToWallet (s : State) (sAddr : MsgAddress) (msgValue nominatorAddress grams : Int)
    (balance : Grams) : Outcome (State × List OutMsg) := do
  throwUnless 60 ((s.poolConfig.transactionFee : Int) ≤ msgValue)
  let (srcWc, srcAddr) ← parseStdAddr sAddr
  throwUnless 50 (srcWc = 0 ∧ srcAddr = s.poolConfig.owner)
  throwUnless 80 (grams ≤ balance)
  orderNominator s nominatorAddress grams 0 50

def processWithdrawFromWallet (s : State) (sAddr : MsgAddress)
    (msgValue nominatorAddress grams : Int) : Outcome (State × List OutMsg) := do
  throwUnless 60 ((s.poolConfig.transactionFee : Int) ≤ msgValue)
  let (srcWc, srcAddr) ← parseStdAddr sAddr
  throwUnless 50 (srcWc = 0 ∧ srcAddr = s.poolConfig.owner)
  orderNominator s nominatorAddress grams 0x52445457 51

/-- Guard of the options 1, 2, 4, 8 (error 61) and 32 (error 66). -/
def fromOwner (code : Nat) (srcWc srcAddr : Int) (config : PoolConfig) : Outcome Unit :=
  throwUnless code (srcWc = -1 ∧ srcAddr = config.owner)

/-- The blocks of the options 1, 2, 4 and 8: a field that the owner sets within its limits. -/
def setField {α : Type} (load : Slice → Outcome (α × Slice)) (code : Nat) (valid : α → Prop)
    [DecidablePred valid] (write : PoolConfig → α → PoolConfig) (srcWc srcAddr : Int)
    (config : PoolConfig) (inMsg : Slice) : Outcome (PoolConfig × Slice) := do
  fromOwner 61 srcWc srcAddr config
  let (value, inMsg) ← load inMsg
  throwUnless code (valid value)
  .ok (write config value, inMsg)

def setTransactionFee : Int → Int → PoolConfig → Slice → Outcome (PoolConfig × Slice) :=
  setField loadGrams 71 (fun fee => 100000000 ≤ fee.val ∧ fee.val ≤ 1000000000)
    fun config transactionFee => { config with transactionFee }

def setMinAmount : Int → Int → PoolConfig → Slice → Outcome (PoolConfig × Slice) :=
  setField loadGrams 72 (fun amount => 1000000000 ≤ amount.val)
    fun config minAmount => { config with minAmount }

def setOwnerFee : Int → Int → PoolConfig → Slice → Outcome (PoolConfig × Slice) :=
  setField (loadUint 32) 73 (fun fee => fee.val ≤ 3000) fun config ownerFee => { config with ownerFee }

/-- Shares the error code of `owner_fee`. -/
def setPenaltyFee : Int → Int → PoolConfig → Slice → Outcome (PoolConfig × Slice) :=
  setField (loadUint 32) 73 (fun fee => fee.val ≤ 3000)
    fun config penaltyFee => { config with penaltyFee }

/-- Option 16: the sender takes over as owner. -/
def acceptOwnership (srcWc srcAddr : Int) (config : PoolConfig) (inMsg : Slice) :
    Outcome (PoolConfig × Slice) := do
  throwUnless 74 (srcWc = -1 ∧ srcAddr = config.pendingOwner)
  let owner ← storeUint 256 srcAddr
  .ok ({ config with owner, pendingOwner := 0 }, inMsg)

/-- Option 32, checked against the owner that option 16 may just have set. -/
def setPendingOwner (srcWc srcAddr : Int) (config : PoolConfig) (inMsg : Slice) :
    Outcome (PoolConfig × Slice) := do
  fromOwner 66 srcWc srcAddr config
  let (pendingOwner, inMsg) ← loadUint 256 inMsg
  .ok ({ config with pendingOwner }, inMsg)

/-- `if( option & (1 << bit) ) { .. }` over the configuration and the rest of the body. -/
def onOption (option : Uint 8) (bit : Nat)
    (block : PoolConfig → Slice → Outcome (PoolConfig × Slice)) (config : PoolConfig)
    (inMsg : Slice) : Outcome (PoolConfig × Slice) :=
  if option.val.testBit bit then block config inMsg else .ok (config, inMsg)

def processSetConfig (s : State) (sAddr : MsgAddress) (msgValue : Int) (option : Uint 8)
    (inMsg : Slice) : Outcome (State × List OutMsg) := do
  throwUnless 60 ((s.poolConfig.transactionFee : Int) ≤ msgValue)
  let (srcWc, srcAddr) ← parseStdAddr sAddr
  let (config, inMsg) ← onOption option 0 (setTransactionFee srcWc srcAddr) s.poolConfig inMsg
  let (config, inMsg) ← onOption option 1 (setMinAmount srcWc srcAddr) config inMsg
  let (config, inMsg) ← onOption option 2 (setOwnerFee srcWc srcAddr) config inMsg
  let (config, inMsg) ← onOption option 3 (setPenaltyFee srcWc srcAddr) config inMsg
  let (config, inMsg) ← onOption option 4 (acceptOwnership srcWc srcAddr) config inMsg
  let (config, _) ← onOption option 5 (setPendingOwner srcWc srcAddr) config inMsg
  .ok ({ s with poolConfig := config }, [])

end TonStaking.Source.StakingPool
