import TonStaking.Source.Currency
import TonStaking.Tvm.Dict
import TonStaking.Tvm.Message

/-!
# Transactions: the action phase

`crypto/block/transaction.cpp` 1032-1725. A collection of currencies is a typed
one, its dictionary well formed; an invalid collection is none. Cells of a
message are what their sizes and the two validity checks say about them, for
each of the three ways of packing the message.

A failed `CHECK`, and arithmetic on an invalid collection, end the computation:
they are the errors of `Checked`.
-/
namespace TonStaking.Source.Transaction
open Tvm Tvm.Hashmap Currency

/-- A valid `CurrencyCollection`. -/
@[ext] structure Funds where
  grams : Int
  extra : Option Extra

namespace Funds

def zero : Funds := ⟨0, none⟩

def isZero (a : Funds) : Bool := a.grams = 0 && a.extra.isNone

/-- `operator+`. -/
def add (a b : Funds) : Option Funds :=
  match Extra.add a.extra b.extra with
  | none => none
  | some extra => some ⟨a.grams + b.grams, extra⟩

/-- `operator-`. -/
def sub (a b : Funds) : Option Funds :=
  if a.grams - b.grams < 0 then none
  else
    match Extra.sub a.extra b.extra with
    | none => none
    | some extra => some ⟨a.grams - b.grams, extra⟩

/-- `operator+=` with grams. -/
def addGrams (a : Funds) (grams : Int) : Funds := { a with grams := a.grams + grams }

/-- `operator-=` with grams. -/
def subGrams (a : Funds) (grams : Int) : Option Funds :=
  if a.grams - grams < 0 then none else some { a with grams := a.grams - grams }

def cells (a : Funds) : CurrencyCollection := ⟨a.grams, Extra.cells a.extra⟩

def outcome : Option Funds → Combining CurrencyCollection
  | none => .error .refused
  | some a => .ok a.cells

theorem add_cells (a b : Funds) : a.cells.add b.cells = outcome (a.add b) := by
  unfold CurrencyCollection.add cells
  simp only [Extra.addExtraCurrency_cells]
  unfold add
  cases Extra.add a.extra b.extra <;> rfl

theorem sub_cells (a b : Funds) : a.cells.sub b.cells = outcome (a.sub b) := by
  unfold CurrencyCollection.sub cells sub
  simp only [Extra.subExtraCurrency_cells]
  split
  · rfl
  · cases Extra.sub a.extra b.extra <;> rfl

end Funds

/-- A collection of currencies in a message or an action. -/
structure Value where
  grams : Grams
  extra : Option Extra

def Value.funds (v : Value) : Funds := ⟨v.grams, v.extra⟩

/-- Conversion of an unsigned word to `long long`. -/
def toLong (x : Nat) : Int := if x < 2 ^ 63 then (x : Int) else x - 2 ^ 64

structure MsgPrices where
  lumpPrice : Uint 64
  bitPrice : Uint 64
  cellPrice : Uint 64
  ihrFactor : Uint 32
  firstFrac : Uint 16

namespace MsgPrices

def computeFwdFees (p : MsgPrices) (cells bits : Nat) : Nat :=
  (p.lumpPrice + (p.bitPrice * bits + p.cellPrice * cells + 0xffff) % 2 ^ 128 / 2 ^ 16 % 2 ^ 64) % 2 ^ 64

def computeFwdIhrFees (p : MsgPrices) (cells bits : Nat) (ihrDisabled : Bool) : Nat × Nat :=
  let fwd := p.computeFwdFees cells bits
  (fwd, if ihrDisabled then 0 else fwd * p.ihrFactor % 2 ^ 128 / 2 ^ 16 % 2 ^ 64)

def getFirstPart (p : MsgPrices) (total : Int) : Int := total * p.firstFrac / 2 ^ 16

end MsgPrices

structure Workchain where
  acceptMsgs : Bool
  isValidAddrLen : Nat → Bool

structure ActionConfig where
  maxActions : Nat
  mcPrices : MsgPrices
  basePrices : MsgPrices
  workchains : Int → Option Workchain

def ActionConfig.fetchMsgPrices (cfg : ActionConfig) (isMasterchain : Bool) : MsgPrices :=
  if isMasterchain then cfg.mcPrices else cfg.basePrices

structure SimpleLib where
  isPublic : Bool
  root : Cell

inductive AccStatus where
  | nonexist | uninit | frozen | active | deleted
  deriving DecidableEq

/-- What the phases read of an account. -/
structure Account where
  addr : Uint 256
  myAddr : MsgAddress
  myAddrExact : MsgAddress
  isMasterchain : Bool
  isSpecial : Bool
  status : AccStatus
  balance : Value
  duePayment : Grams
  code : Option Cell
  data : Option Cell
  library : Dict 256 SimpleLib
  lastTransEndLt : Nat

/-- `int_msg_info` of a suggested message; none is a value that does not validate. -/
structure IntInfo where
  ihrDisabled : Bool
  src : MsgAddress
  dest : MsgAddress
  value : Option Value
  ihrFee : Grams
  fwdFee : Grams

structure ExtInfo where
  src : MsgAddress
  dest : MsgAddress

inductive MsgInfo where
  | int (info : IntInfo)
  | ext (info : ExtInfo)

/-- Size of a packed message besides its root cell, whether it fits into a cell, and whether
the result is a valid message. -/
structure Packing where
  cells : Nat
  bits : Nat
  fits : Bool
  valid : Bool

/-- A suggested message. `largeInit`: its `StateInit` has two references or more; `packing`
describes the message as it is, with the `StateInit` and then with the body in a cell of its own. -/
structure Message where
  info : MsgInfo
  largeInit : Bool
  packing : Nat → Packing

inductive LibRef where
  | hash (libHash : Uint 256)
  | ref (library : Cell)

inductive Action where
  | setCode (newCode : Cell)
  | sendMsg (mode : Uint 8) (outMsg : Message)
  | reserveCurrency (mode : Uint 8) (currency : Option Value)
  | changeLibrary (mode : Uint 7) (libref : LibRef)

/-- An entry of the action list; `unknown` is one that no constructor of `OutAction` describes. -/
inductive Node where
  | action (a : Action)
  | unknown

/-- The action list in the order of execution; `broken`: it ends in an entry with data but no
reference. -/
structure ActionList where
  nodes : List Node
  broken : Bool

/-- The address is a `MsgAddress`. -/
def anyAddress : MsgAddress → Bool
  | .tag6 _ _ => false
  | _ => true

/-- The address is a `MsgAddressInt`. -/
def internalAddress : MsgAddress → Bool
  | .std _ _ _ => true
  | .var _ _ _ => true
  | _ => false

/-- The address is a `MsgAddressExt`. -/
def externalAddress : MsgAddress → Bool
  | .none => true
  | .external _ => true
  | _ => false

def MsgInfo.valid : MsgInfo → Bool
  | .int info => anyAddress info.src && internalAddress info.dest
  | .ext info => anyAddress info.src && externalAddress info.dest

/-- `t_OutListNode.validate_ref`. -/
def Node.valid : Node → Bool
  | .action (.sendMsg _ outMsg) => outMsg.info.valid
  | .action (.changeLibrary mode _) => mode.val ≤ 2
  | .action _ => true
  | .unknown => false

/-- A message that a transaction creates. -/
structure OutMessage where
  external : Bool
  dest : MsgAddress
  value : Funds
  ihrFee : Int
  fwdFee : Int
  createdLt : Nat

/-- The value and the fees that a message carries. -/
def OutMessage.carried (m : OutMessage) : Int := m.value.grams + m.fwdFee + m.ihrFee

/-- The fields of a transaction that its phases write. -/
structure Tx where
  startLt : Nat
  endLt : Nat
  balance : Funds
  originalBalance : Option Funds
  msgBalanceRemaining : Funds
  duePayment : Int
  totalFees : Funds
  newCode : Option Cell
  newData : Option Cell
  newLibrary : Dict 256 SimpleLib
  outMsgs : List OutMessage
  accStatus : AccStatus

structure ActionPhase where
  remainingBalance : Funds
  reservedBalance : Funds
  endLt : Nat
  outMsgs : List OutMessage
  newCode : Option Cell
  totalActionFees : Int
  accDeleteReq : Bool

/-- The transaction and its action phase while the actions are performed. -/
structure Acting where
  tx : Tx
  ap : ActionPhase

/-- The place where a transaction fails instead of ending with a result. -/
inductive Failure where
  | gasFees
  | invalidRequest
  | packValue
  | balanceNotZero
  | reservedInvalid
  | balanceInvalid
  | bounceBalance
  | bounceMessage

abbrev Checked (α : Type) := Except Failure α

def check (failure : Failure) (condition : Prop) [Decidable condition] : Checked Unit :=
  if condition then .ok () else .error failure

/-- What the actions of a transaction see. -/
structure ActionEnv where
  cfg : ActionConfig
  account : Account
  gasFees : Int

def checkReplaceSrcAddr (account : Account) (src : MsgAddress) : Option MsgAddress :=
  match src with
  | .none => some account.myAddr
  | .std _ _ _ => if src = account.myAddr ∨ src = account.myAddrExact then some src else none
  | _ => none

/-- The destination workchain takes messages for addresses of this length, and the masterchain
none with an anycast prefix. -/
def destAllowed (cfg : ActionConfig) (anycast : Option Anycast) (workchain : Int) (addrLen : Nat) : Bool :=
  (workchain = -1 || ((cfg.workchains workchain).map fun w => w.acceptMsgs && w.isValidAddrLen addrLen).getD false)
    && !(anycast.isSome && workchain = -1)

/-- The anycast prefix becomes the one of the sending account. -/
def rewriteAnycast (addr : Uint 256) (anycast : Anycast) : Anycast where
  rewritePfx := (Uint.bits addr).take anycast.rewritePfx.length
  depth := by
    have depth := anycast.depth
    rw [List.length_take, Uint.bits_length]
    omega

/-- The destination as it is sent to and whether it is in the masterchain. -/
def checkRewriteDestAddr (cfg : ActionConfig) (account : Account) (dest : MsgAddress) : Option (MsgAddress × Bool) :=
  match dest with
  | .std anycast workchain address =>
    if destAllowed cfg anycast workchain.val 256 then
      some (.std (anycast.map (rewriteAnycast account.addr)) workchain address, workchain.val = -1)
    else none
  | .var anycast workchain address =>
    if destAllowed cfg anycast workchain.val address.length then
      match storeInt 8 workchain.val with
      | .ok short =>
        if address.length = 256 then
          some (.std (anycast.map (rewriteAnycast account.addr)) short (Fin.ofNat _ (natOf address)), workchain.val = -1)
        else some (.var (anycast.map (rewriteAnycast account.addr)) workchain address, workchain.val = -1)
      | .error _ => some (.var (anycast.map (rewriteAnycast account.addr)) workchain address, workchain.val = -1)
    else none
  | other => some (other, false)

def maxMsgBits : Nat := 2 ^ 21

def maxMsgCells : Nat := 2 ^ 13

structure Fees where
  fwd : Int
  ihr : Int

/-- A fee below the computed one is set to it. -/
def raiseFee (fee : Int) (computed : Nat) : Int :=
  if fee < 2 ^ 63 ∧ fee < toLong computed then toLong computed else fee

def computedFees (env : ActionEnv) (toMc : Bool) (size : Packing) (ihrDisabled : Bool) : Nat × Nat :=
  if env.account.isSpecial then (0, 0)
  else (env.cfg.fetchMsgPrices (toMc || env.account.isMasterchain)).computeFwdIhrFees size.cells size.bits ihrDisabled

def messageFees (env : ActionEnv) (toMc : Bool) (size : Packing) (info : IntInfo) : Fees :=
  let computed := computedFees env toMc size info.ihrDisabled
  { fwd := raiseFee info.fwdFee computed.1
    ihr := if info.ihrDisabled then 0 else if computed.2 ≠ 0 then raiseFee info.ihrFee computed.2 else info.ihrFee }

/-- `mode & 2`: an action that cannot be performed is skipped. -/
def skipOr (mode : Uint 8) (code : Int) : Int := if mode.val.testBit 1 then 0 else code

/-- The value that the message is to carry, before its fees; none if the inbound value does not pay for
the gas. -/
def request (env : ActionEnv) (st : Acting) (mode : Uint 8) (value : Value) : Checked (Option Funds) :=
  if mode.val.testBit 7 then .ok (some st.ap.remainingBalance)
  else if mode.val.testBit 6 then
    match value.funds.add st.tx.msgBalanceRemaining with
    | none => if mode.val.testBit 0 then .error .invalidRequest else .ok none
    | some req => if mode.val.testBit 0 then .ok (some req) else .ok (req.subGrams env.gasFees)
  else .ok (some value.funds)

/-- `mode & 1`, which `mode & 128` clears: the fees are paid on top of the value. -/
def paysFees (mode : Uint 8) : Bool := mode.val.testBit 0 && !mode.val.testBit 7

/-- A message that the remaining balance pays for. -/
structure Settled where
  value : Funds
  brutto : Int
  newExtra : Option Extra

def settle (remaining : Funds) (mode : Uint 8) (req : Funds) (fees : Fees) : Except Int Settled :=
  let feesTotal := fees.fwd + fees.ihr
  if paysFees mode = false ∧ req.grams < feesTotal then .error 37
  else
    let brutto := if paysFees mode then req.grams + feesTotal else req.grams
    let value := if paysFees mode then req else { req with grams := req.grams - feesTotal }
    if remaining.grams < brutto then .error 37
    else
      match Extra.sub remaining.extra req.extra with
      | none => .error 38
      | some newExtra => .ok { value, brutto, newExtra }

/-- The amount is one of type `Grams`. -/
def FitsGrams (x : Int) : Prop := 0 ≤ x ∧ x < 2 ^ 120

instance (x : Int) : Decidable (FitsGrams x) := inferInstanceAs (Decidable (_ ∧ _))

/-- The new message is appended. A message that takes the whole balance with mode 128 + 32 leaves none. -/
def appendMsg (st : Acting) (mode : Uint 8) (msg : OutMessage) (feesCollected : Int) : Checked (Acting × Int) := do
  let ap := { st.ap with
    endLt := st.ap.endLt + 1, outMsgs := st.ap.outMsgs ++ [msg]
    totalActionFees := st.ap.totalActionFees + feesCollected }
  if mode.val.testBit 7 ∧ mode.val.testBit 5 then do
    check .balanceNotZero (st.ap.remainingBalance.isZero = true)
    .ok ({ st with ap := { ap with accDeleteReq := ap.reservedBalance.isZero } }, 0)
  else .ok ({ st with ap }, 0)

/-- `clear msg_balance_remaining if it has been used`. -/
def useInbound (mode : Uint 8) (tx : Tx) : Tx :=
  if mode.val.testBit 6 ∨ mode.val.testBit 7 then { tx with msgBalanceRemaining := .zero } else tx

/-- Lines 1515-1604, for a message with its addresses checked. -/
def packInternal (env : ActionEnv) (st : Acting) (level : Nat) (mode : Uint 8) (packing : Packing) (info : IntInfo)
    (value : Value) (dest : MsgAddress) (toMc : Bool) : Checked (Acting × Int) := do
  let fees := messageFees env toMc packing info
  match ← request env st mode value with
  | none => .ok (st, skipOr mode 37)
  | some req =>
    match settle st.ap.remainingBalance mode req fees with
    | .error code => .ok (st, skipOr mode code)
    | .ok settled => do
      let prices := env.cfg.fetchMsgPrices (toMc || env.account.isMasterchain)
      let fwdFeeMine := prices.getFirstPart fees.fwd
      check .packValue (FitsGrams settled.value.grams)
      check .packValue (FitsGrams (fees.fwd - fwdFeeMine) ∧ FitsGrams fees.ihr)
      if packing.fits = false then .ok (st, if level < 2 then -2 else skipOr mode 39)
      else do
        let remainingBalance := ⟨st.ap.remainingBalance.grams - settled.brutto, settled.newExtra⟩
        let st := { tx := useInbound mode st.tx, ap := { st.ap with remainingBalance } }
        if packing.valid = false then .ok (st, -1)
        else
          appendMsg st mode { external := false, dest, value := settled.value, ihrFee := fees.ihr
                              fwdFee := fees.fwd - fwdFeeMine, createdLt := st.ap.endLt } fwdFeeMine

/-- Lines 1605-1634. -/
def packExternal (env : ActionEnv) (st : Acting) (level : Nat) (mode : Uint 8) (packing : Packing)
    (dest : MsgAddress) (toMc : Bool) : Checked (Acting × Int) :=
  let fwdFee := raiseFee 0 (computedFees env toMc packing true).1
  if st.ap.remainingBalance.grams < fwdFee then .ok (st, skipOr mode 37)
  else if packing.fits = false then .ok (st, if level < 2 then -2 else skipOr mode 39)
  else
    let remainingBalance := { st.ap.remainingBalance with grams := st.ap.remainingBalance.grams - fwdFee }
    let st := { st with ap := { st.ap with remainingBalance } }
    if packing.valid = false then .ok (st, -1)
    else
      appendMsg st mode { external := true, dest, value := .zero, ihrFee := 0, fwdFee := 0
                          createdLt := st.ap.endLt } fwdFee

/-- The number of rewritings of the message; one without a large `StateInit` is not packed a second
time as it is. -/
def redoLevel (redoing : Nat) (outMsg : Message) : Nat :=
  if 1 ≤ redoing ∧ outMsg.largeInit = false then 2 else redoing

/-- The two addresses and the size of a message, checked; the code of the error otherwise. -/
def checkedDest (env : ActionEnv) (mode : Uint 8) (src dest : MsgAddress) (size : Packing) :
    Except Int (MsgAddress × Bool) :=
  match checkReplaceSrcAddr env.account src with
  | none => .error 35
  | some _ =>
    match checkRewriteDestAddr env.cfg env.account dest with
    | none => .error (skipOr mode 36)
    | some checked =>
      if size.bits > maxMsgBits ∨ size.cells > maxMsgCells then .error (skipOr mode 40) else .ok checked

/-- `mode & ~0xe3`, or both of 64 and 128. -/
def invalidMode (mode : Uint 8) : Bool :=
  mode.val.testBit 2 || mode.val.testBit 3 || mode.val.testBit 4 || (mode.val.testBit 6 && mode.val.testBit 7)

def tryActionSendMsg (env : ActionEnv) (st : Acting) (mode : Uint 8) (outMsg : Message) (redoing : Nat) :
    Checked (Acting × Int) :=
  if invalidMode mode then .ok (st, -1)
  else
    let level := redoLevel redoing outMsg
    let packing := outMsg.packing level
    match outMsg.info with
    | .ext info =>
      match checkedDest env mode info.src info.dest packing with
      | .error code => .ok (st, code)
      | .ok (dest, toMc) => packExternal env st level mode packing dest toMc
    | .int info =>
      match info.value with
      | none => .ok (st, -1)
      | some value =>
        match checkedDest env mode info.src info.dest packing with
        | .error code => .ok (st, code)
        | .ok (dest, toMc) => packInternal env st level mode packing info value dest toMc

/-- Lines 1104-1111: up to three attempts. -/
def sendMsg (env : ActionEnv) (st : Acting) (mode : Uint 8) (outMsg : Message) : Checked (Acting × Int) := do
  let (st, code) ← tryActionSendMsg env st mode outMsg 0
  if code = -2 then do
    let (st, code) ← tryActionSendMsg env st mode outMsg 1
    if code = -2 then tryActionSendMsg env st mode outMsg 2
    else .ok (st, code)
  else .ok (st, code)

/-- The amount to reserve; none for one that is invalid or negative. -/
def reserveAmount (originalBalance : Option Funds) (mode : Uint 8) (currency : Funds) : Option Funds :=
  let reserve : Option Funds :=
    if mode.val.testBit 2 then
      if mode.val.testBit 3 then originalBalance.bind fun original => original.sub currency
      else originalBalance.bind fun original => currency.add original
    else if mode.val.testBit 3 then none
    else some currency
  reserve.filter fun reserve => 0 ≤ reserve.grams

/-- Lines 1690-1722, with the amount to reserve. -/
def reserveFunds (st : Acting) (mode : Uint 8) (reserve : Funds) : Checked (Acting × Int) :=
  let remaining := st.ap.remainingBalance
  if reserve.grams > remaining.grams ∧ mode.val.testBit 1 = false then .ok (st, 37)
  else
    let reserve := { reserve with grams := min reserve.grams remaining.grams }
    match Extra.sub remaining.extra reserve.extra with
    | none => .ok (st, 38)
    | some extra =>
      let newc : Funds := ⟨remaining.grams - reserve.grams, extra⟩
      -- mode & 1: leave only the amount, reserve everything else
      let (newc, reserve) := if mode.val.testBit 0 then (reserve, newc) else (newc, reserve)
      match st.ap.reservedBalance.add reserve with
      | none => .error .reservedInvalid
      | some reservedBalance =>
        .ok ({ st with ap := { st.ap with remainingBalance := newc, reservedBalance } }, 0)

def tryActionReserveCurrency (st : Acting) (mode : Uint 8) (currency : Option Value) : Checked (Acting × Int) :=
  -- mode & ~15
  if mode.val ≥ 16 then .ok (st, -1)
  else
    match currency with
    | none => .ok (st, -1)
    | some currency =>
      match reserveAmount st.tx.originalBalance mode currency.funds with
      | none => .ok (st, -1)
      | some reserve => reserveFunds st mode reserve

section Library

variable (cellHash : Cell → Uint 256)

/-- `new_library` after the action; the code of the error otherwise. -/
def changedLibrary (library : Dict 256 SimpleLib) (mode : Uint 7) (libref : LibRef) : Except Int (Dict 256 SimpleLib) :=
  let (hash, libRef) := match libref with
    | .hash libHash => (libHash, none)
    | .ref c => (cellHash c, some c)
  if mode.val = 0 then .ok (library.erase hash)
  else
    let isPublic : Bool := mode.val.testBit 1
    -- the library cell of the account, if there is one with this hash
    let own := (library.get? hash).filter fun lib => hash = cellHash lib.root
    if (own.map fun lib => lib.isPublic == isPublic).getD false then .ok library
    else
      match (own.map SimpleLib.root).or libRef with
      | none => .error 41
      | some root => .ok (library.set hash.val hash.lt256 { isPublic, root })

def tryActionChangeLibrary (st : Acting) (mode : Uint 7) (libref : LibRef) : Acting × Int :=
  match changedLibrary cellHash st.tx.newLibrary mode libref with
  | .error code => (st, code)
  | .ok newLibrary => ({ st with tx := { st.tx with newLibrary } }, 0)

def tryActionSetCode (st : Acting) (newCode : Cell) : Acting × Int :=
  ({ st with ap := { st.ap with newCode := some newCode } }, 0)

def tryAction (env : ActionEnv) (st : Acting) : Action → Checked (Acting × Int)
  | .setCode newCode => .ok (tryActionSetCode st newCode)
  | .sendMsg mode outMsg => sendMsg env st mode outMsg
  | .reserveCurrency mode currency => tryActionReserveCurrency st mode currency
  | .changeLibrary mode libref => .ok (tryActionChangeLibrary cellHash st mode libref)

/-- The actions in order, up to the first error. -/
def tryActions (env : ActionEnv) : Acting → List Action → Checked (Acting × Int)
  | st, [] => .ok (st, 0)
  | st, a :: rest => do
    let (st, code) ← tryAction cellHash env st a
    if code = 0 then tryActions env st rest else .ok (st, if code = -1 then 34 else code)

/-- The actions of a list that is valid; the code of the error otherwise. -/
def ActionList.actions (maxActions : Nat) (list : ActionList) : Except Int (List Action) :=
  if list.nodes.length > maxActions then .error 33
  else if list.broken then .error 32
  else if list.nodes.all Node.valid then
    .ok (list.nodes.filterMap fun
      | .action a => some a
      | .unknown => none)
  else .error 34

def beginActions (tx : Tx) : Acting where
  tx := tx
  ap := { remainingBalance := tx.balance, reservedBalance := .zero, endLt := tx.endLt, outMsgs := []
          newCode := none, totalActionFees := 0, accDeleteReq := false }

/-- Lines 1128-1150: all actions have been performed. -/
def finishActions (st : Acting) (newData : Option Cell) : Checked Tx :=
  match st.ap.remainingBalance.add st.ap.reservedBalance with
  | none => .error .balanceInvalid
  | some balance => do
    check .balanceInvalid (0 ≤ st.ap.remainingBalance.grams ∧ 0 ≤ st.ap.reservedBalance.grams)
    check .balanceNotZero (st.ap.accDeleteReq = true → balance.isZero = true)
    .ok { st.tx with
      accStatus := if st.ap.accDeleteReq then .deleted else st.tx.accStatus
      endLt := st.ap.endLt, outMsgs := st.ap.outMsgs
      newCode := st.ap.newCode.or st.tx.newCode, newData, balance
      totalFees := st.tx.totalFees.addGrams st.ap.totalActionFees }

/-- The transaction after its action phase, with the result code. -/
def prepareActionPhase (env : ActionEnv) (tx : Tx) (newData : Option Cell) (list : ActionList) :
    Checked (Tx × Int) :=
  match list.actions env.cfg.maxActions with
  | .error code => .ok (tx, code)
  | .ok actions => do
    let (st, code) ← tryActions cellHash env (beginActions tx) actions
    if code = 0 then do
      let tx ← finishActions st newData
      .ok (tx, 0)
    else .ok (st.tx, code)

end Library

end TonStaking.Source.Transaction
