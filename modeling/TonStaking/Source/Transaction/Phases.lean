import TonStaking.Source.Transaction.Actions

/-!
# Transactions: an ordinary transaction

`crypto/block/transaction.cpp` 481-1030 and 1727-1798, and the order of the phases
in `Collator::create_ordinary_transaction`. The storage fees that an account has
to pay, the sizes of the inbound message and the result of the virtual machine
are inputs.
-/
namespace TonStaking.Source.Transaction
open Tvm Currency

structure StorageConfig where
  freezeDueLimit : Int
  deleteDueLimit : Int

structure GasConfig where
  gasLimit : Uint 64
  specialGasLimit : Uint 64
  gasCredit : Uint 64
  gasPrice : Uint 64
  flatGasLimit : Uint 64
  flatGasPrice : Uint 64

/-- The `StateInit` of the inbound message: whether it hashes to the state of a frozen account, whether it
unpacks, whether its split depth is allowed, and whether it hashes to the address. -/
structure InitState where
  hashesToFrozen : Bool
  unpacks : Bool
  depthAllowed : Bool
  hashesToAddress : Bool
  code : Option Cell
  data : Option Cell
  library : Dict 256 SimpleLib

structure IntMsg where
  ihrDisabled : Bool
  bounce : Bool
  src : MsgAddress
  value : Value
  ihrFee : Grams
  createdLt : Nat
  -- size of the dictionary of extra currencies
  extraCells : Nat
  extraBits : Nat

/-- An inbound message; for an external one only its size matters. -/
inductive Inbound where
  | int (m : IntMsg)
  | ext (cells bits : Nat)

/-- The run of the virtual machine: the argument of the last change of the gas limit (`ACCEPT` or
`SETGASLIMIT`), the gas consumed, and the committed state. -/
structure VmRun where
  newLimit : Option Int
  consumed : Int
  committed : Bool
  newData : Option Cell
  actions : ActionList

/-- What an ordinary transaction is made from. -/
structure OrdInput where
  storageCfg : StorageConfig
  gasCfg : GasConfig
  cfg : ActionConfig
  account : Account
  inMsg : Inbound
  init : Option InitState
  ihrDelivered : Bool
  reqStartLt : Nat
  -- `to_pay` of the storage phase
  storageFees : Nat
  vm : VmRun

def Inbound.isExternal : Inbound → Bool
  | .int _ => false
  | .ext _ _ => true

def Inbound.bounceEnabled : Inbound → Bool
  | .int m => m.bounce
  | .ext _ _ => false

/-- Value and IHR fee of an inbound internal message. -/
def Inbound.worth : Inbound → Int
  | .int m => m.value.grams + m.ihrFee
  | .ext _ _ => 0

/-- The constructor of `Transaction`. -/
def newTx (x : OrdInput) : Tx where
  startLt := max x.reqStartLt x.account.lastTransEndLt
  endLt := max x.reqStartLt x.account.lastTransEndLt + 1
  balance := x.account.balance.funds
  originalBalance := some x.account.balance.funds
  msgBalanceRemaining := .zero
  duePayment := x.account.duePayment
  totalFees := .zero
  newCode := x.account.code
  newData := x.account.data
  newLibrary := x.account.library
  outMsgs := []
  accStatus := if x.account.status = .nonexist then .uninit else x.account.status

/-- The fee for importing an external message. -/
def inFwdFee (x : OrdInput) (cells bits : Nat) : Int :=
  toLong (if x.account.isSpecial then 0
    else ((x.cfg.fetchMsgPrices x.account.isMasterchain).computeFwdIhrFees cells bits true).1)

/-- `unpack_input_msg`; none if the message cannot be processed. -/
def unpackInputMsg (x : OrdInput) (tx : Tx) : Option Tx :=
  match x.inMsg with
  | .int m =>
    if m.ihrDisabled && x.ihrDelivered then none
    else
      let startLt := if m.createdLt ≥ tx.startLt then m.createdLt + 1 else tx.startLt
      let endLt := if m.createdLt ≥ tx.startLt then m.createdLt + 2 else tx.endLt
      if x.ihrDelivered then
        some { tx with startLt, endLt, msgBalanceRemaining := m.value.funds
                       totalFees := tx.totalFees.addGrams m.ihrFee }
      else some { tx with startLt, endLt, msgBalanceRemaining := m.value.funds.addGrams m.ihrFee }
  | .ext cells bits =>
    if bits > maxMsgBits ∨ cells > maxMsgCells then none
    else if tx.balance.grams < inFwdFee x cells bits then none
    else
      match tx.balance.subGrams (inFwdFee x cells bits) with
      | none => none
      | some balance => some { tx with
          balance, msgBalanceRemaining := .zero, totalFees := tx.totalFees.addGrams (inFwdFee x cells bits) }

structure StoragePhase where
  feesCollected : Int
  feesDue : Int
  deleted : Bool
  frozen : Bool

/-- `prepare_storage_phase` after its first two checks. -/
def prepareStoragePhase (cfg : StorageConfig) (account : Account) (forceCollect : Bool) (toPay : Option Int) (tx : Tx) :
    Tx × StoragePhase :=
  let paid : StoragePhase := { feesCollected := 0, feesDue := 0, deleted := false, frozen := false }
  match toPay with
  | none => (tx, paid)
  | some toPay =>
    if toPay = 0 then (tx, paid)
    else if toPay ≤ tx.balance.grams then
      ({ tx with balance := { tx.balance with grams := tx.balance.grams - toPay }
                 totalFees := tx.totalFees.addGrams toPay }, { paid with feesCollected := toPay })
    else if tx.accStatus = .frozen ∧ !forceCollect ∧ toPay + tx.duePayment < cfg.deleteDueLimit then
      -- do not collect fee
      (tx, paid)
    else
      let collected := tx.balance.grams
      let totalDue := toPay - collected + tx.duePayment
      let paid := { paid with feesCollected := collected, feesDue := toPay - collected }
      let tx := { tx with balance := { tx.balance with grams := 0 } }
      let closing := !account.isSpecial && (tx.accStatus = .uninit || tx.accStatus = .frozen)
        && cfg.deleteDueLimit < totalDue
      let freezing := !account.isSpecial && tx.accStatus = .active && cfg.freezeDueLimit < totalDue
      if closing then
        -- the extra currencies of a deleted account are collected as a fee
        ({ tx with accStatus := .deleted, balance := .zero
                   totalFees := ⟨tx.totalFees.grams + collected, tx.balance.extra.or tx.totalFees.extra⟩ },
          { paid with deleted := true })
      else
        ({ tx with accStatus := if freezing then .frozen else tx.accStatus
                   totalFees := tx.totalFees.addGrams collected }, { paid with frozen := freezing })

/-- `due_fees_collected` of the credit phase. -/
def dueFeesCollected (tx : Tx) : Int := min tx.msgBalanceRemaining.grams tx.duePayment

/-- `prepare_credit_phase`; none if the extra currencies cannot be credited. -/
def prepareCreditPhase (tx : Tx) : Option Tx :=
  let collected := dueFeesCollected tx
  let msgBalanceRemaining := { tx.msgBalanceRemaining with grams := tx.msgBalanceRemaining.grams - collected }
  match tx.balance.add msgBalanceRemaining with
  | none => none
  | some balance => some { tx with
      balance, msgBalanceRemaining, duePayment := tx.duePayment - collected
      totalFees := tx.totalFees.addGrams collected }

/-- `td::rshift(x, 16, 1)`: division by 2^16, rounded up. -/
def ceilShift (x : Int) : Int := -(-x / 2 ^ 16)

namespace GasConfig

def gasPrice256 (g : GasConfig) : Int := toLong g.gasPrice

def maxGasThreshold (g : GasConfig) : Int :=
  if g.gasLimit.val > g.flatGasLimit.val then
    ceilShift (g.gasPrice256 * toLong (g.gasLimit.val - g.flatGasLimit.val)) + toLong g.flatGasPrice
  else toLong g.flatGasPrice

def gasBoughtFor (g : GasConfig) (nanograms : Int) : Nat :=
  if nanograms < 0 then 0
  else if nanograms ≥ g.maxGasThreshold then g.gasLimit
  else if nanograms < toLong g.flatGasPrice then 0
  else ((((nanograms - toLong g.flatGasPrice) * 2 ^ 16).fdiv g.gasPrice256 + g.flatGasLimit) % 2 ^ 64).toNat

def computeGasPrice (g : GasConfig) (gasUsed : Nat) : Int :=
  if gasUsed ≤ g.flatGasLimit then toLong g.flatGasPrice
  else ceilShift (g.gasPrice256 * toLong (gasUsed - g.flatGasLimit)) + toLong g.flatGasPrice

end GasConfig

structure GasLimits where
  gasMax : Nat
  gasLimit : Nat
  gasCredit : Nat

def computeGasLimits (x : OrdInput) (tx : Tx) : GasLimits :=
  let gasMax := if x.account.isSpecial then x.gasCfg.specialGasLimit.val else x.gasCfg.gasBoughtFor tx.balance.grams
  { gasMax
    gasLimit := x.gasCfg.gasBoughtFor tx.msgBalanceRemaining.grams
    gasCredit := if x.inMsg.isExternal then min x.gasCfg.gasCredit.val gasMax else 0 }

/-- The gas limit and the gas credit when the machine stops. -/
def finalLimits (limits : GasLimits) (vm : VmRun) : Int × Int :=
  match vm.newLimit with
  | none => (toLong limits.gasLimit, toLong limits.gasCredit)
  | some limit => (min (max limit 0) (toLong limits.gasMax), 0)

def gasUsed (limits : GasLimits) (vm : VmRun) : Nat :=
  (min vm.consumed (finalLimits limits vm).1 % 2 ^ 64).toNat

/-- The state of the account is the one of the inbound message. -/
def usesMsgState (init : Option InitState) (status : AccStatus) : Bool :=
  match init with
  | none => false
  | some state => status = .uninit || (status = .frozen && state.hashesToFrozen)

/-- The transaction with the state that the machine runs on, and whether there is one. -/
def loadState (init : Option InitState) (tx : Tx) : Tx × Bool :=
  match init with
  | none => (tx, tx.accStatus = .active)
  | some state =>
    if usesMsgState init tx.accStatus then
      if state.unpacks then
        ({ tx with newCode := state.code, newData := state.data, newLibrary := state.library },
          state.depthAllowed && !(tx.accStatus = .uninit && !state.hashesToAddress))
      else (tx, false)
    else (tx, tx.accStatus = .active)

/-- How the compute phase ends. `gasFees` is null for a phase that is skipped. -/
inductive Computed where
  | skipped
  | rejected
  | ran (success : Bool) (gasFees : Int)

/-- Lines 960-1030: the machine runs and the gas is paid. -/
def runMachine (x : OrdInput) (limits : GasLimits) (tx : Tx) : Checked (Tx × Computed) :=
  if (finalLimits limits x.vm).2 ≠ 0 then .ok (tx, .rejected)
  else
    let accStatus := if usesMsgState x.init tx.accStatus then .active else tx.accStatus
    let gasFees := if x.account.isSpecial then 0 else x.gasCfg.computeGasPrice (gasUsed limits x.vm)
    match tx.balance.subGrams gasFees with
    | none => .error .gasFees
    | some balance =>
      .ok ({ tx with accStatus, balance, totalFees := tx.totalFees.addGrams gasFees }, .ran x.vm.committed gasFees)

/-- `original_balance -= total_fees`. -/
def chargeOriginal (tx : Tx) : Tx :=
  { tx with originalBalance := tx.originalBalance.bind fun original => original.sub tx.totalFees }

def prepareComputePhase (x : OrdInput) (tx : Tx) : Checked (Tx × Computed) :=
  let tx := chargeOriginal tx
  let limits := computeGasLimits x tx
  if tx.balance.grams ≤ 0 ∨ (limits.gasLimit = 0 ∧ limits.gasCredit = 0) then .ok (tx, .skipped)
  else
    match loadState x.init tx with
    | (tx, false) => .ok (tx, .skipped)
    | (tx, true) => runMachine x limits tx

/-- The fees of a bounced message and the value that is left for it. -/
structure Bounced where
  fwdFees : Nat
  msgBalance : Funds

/-- `prepare_bounce_phase` up to the check of the funds: none if there is not enough for the fees. -/
def bounceFunds (x : OrdInput) (m : IntMsg) (toMc : Bool) (tx : Tx) (gasFees : Int) : Option Bounced :=
  let prices := x.cfg.fetchMsgPrices (toMc || x.account.isMasterchain)
  let fwdFees := prices.computeFwdFees m.extraCells m.extraBits
  let msgBalance : Funds := { tx.msgBalanceRemaining with grams := tx.msgBalanceRemaining.grams - gasFees }
  if msgBalance.grams < 0 then none
  else if msgBalance.grams < 2 ^ 63 ∧ msgBalance.grams < toLong fwdFees then none
  else some { fwdFees, msgBalance }

/-- The bounced message; none without a valid address to send it to. -/
def prepareBouncePhase (x : OrdInput) (m : IntMsg) (tx : Tx) (gasFees : Int) : Checked (Option Tx) :=
  match checkRewriteDestAddr x.cfg x.account m.src with
  | none => .ok none
  | some (dest, toMc) =>
    match bounceFunds x m toMc tx gasFees with
    | none => .ok (some tx)
    | some b =>
      match tx.balance.sub b.msgBalance with
      | none => .error .bounceBalance
      | some balance =>
        let prices := x.cfg.fetchMsgPrices (toMc || x.account.isMasterchain)
        let collected := (prices.getFirstPart b.fwdFees).toNat
        let value := b.msgBalance.grams - toLong b.fwdFees
        let fwdFee := toLong (b.fwdFees - collected)
        if FitsGrams value ∧ 0 ≤ fwdFee then
          .ok (some { tx with
            balance, totalFees := tx.totalFees.addGrams (toLong collected), endLt := tx.endLt + 1
            outMsgs := tx.outMsgs ++ [{ external := false, dest, value := ⟨value, b.msgBalance.extra⟩, ihrFee := 0
                                        fwdFee, createdLt := tx.endLt }] })
        else .error .bounceMessage

section Ordinary

variable (cellHash : Cell → Uint 256)

/-- A transaction with what its storage and credit phases took. -/
structure Charged where
  tx : Tx
  storage : StoragePhase
  dueCollected : Int

/-- The storage phase `pay` and the credit phase; the storage phase comes first if the message can bounce. -/
def chargeMoney (x : OrdInput) (pay : Tx → Tx × StoragePhase) (tx : Tx) : Option Charged :=
  if x.inMsg.bounceEnabled then
    (prepareCreditPhase (pay tx).1).map fun after => ⟨after, (pay tx).2, dueFeesCollected (pay tx).1⟩
  else if x.inMsg.isExternal then some ⟨(pay tx).1, (pay tx).2, 0⟩
  else (prepareCreditPhase tx).map fun credited => ⟨(pay credited).1, (pay credited).2, dueFeesCollected tx⟩

/-- An ordinary transaction collects its storage fees by force. -/
def prepareMoney (x : OrdInput) (tx : Tx) : Option Tx :=
  (chargeMoney x (prepareStoragePhase x.storageCfg x.account true (some x.storageFees)) tx).map Charged.tx

/-- The action phase after a success of the machine, the bounce phase after a failure. -/
def prepareLast (x : OrdInput) (tx : Tx) : Computed → Checked (Option Tx)
  | .rejected => .ok none
  | .ran true gasFees => do
    let (tx, _) ← prepareActionPhase cellHash { cfg := x.cfg, account := x.account, gasFees } tx x.vm.newData x.vm.actions
    .ok (some tx)
  | .ran false gasFees =>
    match x.inMsg with
    | .int m => if m.bounce then prepareBouncePhase x m tx gasFees else .ok (some tx)
    | .ext _ _ => .ok (some tx)
  | .skipped =>
    match x.inMsg with
    | .int m => if m.bounce then prepareBouncePhase x m tx 0 else .ok (some tx)
    -- an external message that is not accepted makes no transaction
    | .ext _ _ => .ok none

/-- An ordinary transaction; none if the message makes none. -/
def createOrdinaryTransaction (x : OrdInput) : Checked (Option Tx) :=
  match (unpackInputMsg x (newTx x)).bind (prepareMoney x) with
  | none => .ok none
  | some tx => do
    let (tx, computed) ← prepareComputePhase x tx
    prepareLast cellHash x tx computed

end Ordinary

end TonStaking.Source.Transaction
