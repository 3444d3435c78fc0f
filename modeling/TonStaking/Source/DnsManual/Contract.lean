import TonStaking.Source.QueryIds
import TonStaking.Tvm.PrefixDict
import TonStaking.Tvm.Transaction

/-!
# The manual DNS contract

`crypto/smartcont/dns-manual-code.fc` 86-255. The owner changes the table of
domains by external messages: a contract id, a query id whose upper half is a
time limit, and a list of operations. The query id is recorded at the end of the
handler, behind the operations, together with the new table.

The gas of the machine and the outcome of the action phase are inputs. A
transaction is paid for by the contract once `accept_message` is reached, also
if it fails later on; then the state stays as it was. `throw(0)` behind a code
upgrade ends the machine with exit code zero, which commits the data as they are
in the register `c4` and the list of actions (`crypto/vm/vm.cpp` 477-496).

What other code does with the data in its own `after_code_upgrade` is an input,
and a contract with other code takes no further part in the run.
-/
namespace TonStaking.Source.DnsManual

open Tvm Tvm.Hashmap

/-- The data of `load_data` and `store_data`. -/
structure State where
  contractId : Uint 32
  lastCleaned : Uint 64
  publicKey : Uint 256
  root : Option Cell
  oldQueries : Dict 64 Unit

/-- `ManualDns::create_init_data_fast`. -/
def createInitData (publicKey : Uint 256) (walletId : Uint 32) : State where
  contractId := walletId
  lastCleaned := 0
  publicKey := publicKey
  root := none
  oldQueries := Dict.empty

/-- The code and the data of the contract's account. -/
structure Account where
  code : Cell
  data : State

/-- A message that has passed all checks before `accept_message`. -/
structure Order where
  signed : Slice
  queryId : Uint 64
  ops : Slice

structure RawMessage where
  mode : Uint 8
  message : Cell

/-- What an operation leads to: the next one, or the end of the machine with new code. -/
inductive Processed where
  | next (root : Option Cell) (ops : Slice) (sent : List RawMessage)
  | upgrade (newCode : Cell) (root : Option Cell) (ops : Slice)

/-- The number of zero bytes, lines 135-141; `none` if the bits are no whole bytes. -/
def countZeros : List Bool → Option Nat
  | [] => some 0
  | a :: b :: c :: d :: e :: f :: g :: h :: rest =>
    (countZeros rest).map (· + if natOf [a, b, c, d, e, f, g, h] = 0 then 1 else 0)
  | _ => none

/-- Lines 121-129. -/
def loadName (ops : Slice) : Outcome (Slice × Slice) := do
  let (isNameRef, ops) ← loadUint 1 ops
  if isNameRef.val = 1 then do
    let (name, ops) ← loadRef ops
    .ok (name.beginParse, ops)
  else do
    let (nameLen, ops) ← loadUint 6 ops
    let (name, ops) ← loadBits (nameLen * 8) ops
    .ok (⟨name, []⟩, ops)

/-- Lines 130-143: the key of a name in the table, which starts with the number of its zero bytes. -/
def nameKey (name : Slice) : Outcome Slice := do
  throwUnless 38 (16 ≤ name.bits.length)
  throwIf 40 (natOf (name.bits.drop (name.bits.length - 8)) ≠ 0)
  match countZeros name.bits with
  | none => .error .cellUnd
  | some zeros => do
    let zeros ← storeUint 7 zeros
    let key ← buildCell (Uint.bits zeros ++ name.bits) name.refs
    .ok key.beginParse

def pfxdictSetRef (root : Option Cell) (keyLen : Nat) (key : Slice) (value : Option Cell) : Outcome (Option Cell) := do
  let set ← pfxdictSet? keyLen root key ⟨[value.isSome], value.toList⟩
  throwUnless 33 (set.isSome = true)
  .ok set

/-- The function `pfxdict_get_ref`: the prefix, the value and the tail. -/
def pfxdictGetRef (root : Option Cell) (keyLen : Nat) (key : Slice) :
    Outcome (Option (List Bool × Option Cell × Slice)) := do
  let found ← pfxdictGet? keyLen root key
  match found with
  | none => .ok none
  | some (pfx, val, tail) => do
    let (res, _) ← loadDict val
    .ok (some (pfx, res, tail))

/-- Lines 148-158: the category table of a name. -/
def findCatTable (root : Option Cell) (name : Slice) : Outcome (Option Cell) := do
  let found ← pfxdictGetRef root 1023 name
  match found with
  | none => .ok none
  | some (_, val, tail) => do
    throwUnless 35 (tail.isEmpty = true)
    .ok val

/-- Lines 88-111: operations without a name. -/
def processPlainOp (op : Nat) (root : Option Cell) (ops : Slice) : Outcome Processed :=
  if op = 0 then .ok (.next root ops [])
  else if op = 1 then do
    let (mode, ops) ← loadUint 8 ops
    let (message, ops) ← loadRef ops
    .ok (.next root ops [⟨mode, message⟩])
  else if op = 9 then do
    let (newCode, ops) ← loadRef ops
    .ok (.upgrade newCode root ops)
  else .error (.code 45)

/-- Operations 10 to 19: a category of a name. -/
def processCategoryOp (op : Nat) (root : Option Cell) (ops : Slice) : Outcome Processed := do
  let (cat, ops) ← loadInt 16 ops
  let (name, ops) ← loadName ops
  let name ← nameKey name
  let catTable ← findCatTable root name
  if op = 11 then do
    let (newValue, ops) ← loadDict ops
    let (catTable, _) ← idictSetGetRef 16 catTable cat newValue
    let root ← pfxdictSetRef root 1023 name catTable
    .ok (.next root ops [])
  else if op = 12 then do
    let (catTable, found) ← idictDelete? 16 catTable cat
    if found then do
      let root ← pfxdictSetRef root 1023 name catTable
      .ok (.next root ops [])
    else .ok (.next root ops [])
  else .error (.code 44)

/-- Operations 20 to 29: a name. -/
def processNameOp (op : Nat) (root : Option Cell) (ops : Slice) : Outcome Processed := do
  let (name, ops) ← loadName ops
  let name ← nameKey name
  if op = 21 then do
    let (newCatTable, ops) ← loadDict ops
    let root ← pfxdictSetRef root 1023 name newCatTable
    .ok (.next root ops [])
  else if op = 22 then do
    let (root, _) ← pfxdictDelete? 1023 root name
    .ok (.next root ops [])
  else .error (.code 44)

/-- Operations from 30 on: the whole table. -/
def processTableOp (op : Nat) (_root : Option Cell) (ops : Slice) : Outcome Processed :=
  if op = 31 then do
    let (newTreeRoot, ops) ← loadDict ops
    .ok (.next newTreeRoot ops [])
  else if op = 32 then .ok (.next none ops [])
  else .error (.code 44)

def processOp (root : Option Cell) (ops : Slice) : Outcome Processed := do
  let (op, ops) ← loadUint 6 ops
  if op.val < 10 then processPlainOp op root ops
  else if op.val < 20 then processCategoryOp op root ops
  else if op.val < 30 then processNameOp op root ops
  else processTableOp op root ops

/-- `process_ops`; the gas pays for `gas` rounds of the loop. -/
def processOps : Nat → Option Cell → Slice → List RawMessage → Outcome Processed
  | 0, _, _, _ => .error .outOfGas
  | gas + 1, root, ops, sent => do
    let done ← processOp root ops
    match done with
    | .upgrade newCode root ops => .ok (.upgrade newCode root ops)
    | .next root ops more =>
      if ops.bits.isEmpty then
        match ops.refs with
        | [] => .ok (.next root ops (sent ++ more))
        | c :: _ => processOps gas root c.beginParse (sent ++ more)
      else processOps gas root ops (sent ++ more)

section Handler

variable (crypto : Crypto)

/-- Lines 220-228, up to `accept_message`. -/
def loadOrder (now : Uint 32) (s : State) (inMsg : Slice) : Outcome Order := do
  let (signature, inMsg) ← loadBits 512 inMsg
  let (queryContract, cs) ← loadUint 32 inMsg
  let (queryId, cs) ← loadUint 64 cs
  throwIf 35 ((queryId : Int) < bound now)
  throwIf 32 ((s.oldQueries.get? queryId).isSome = true)
  throwUnless 34 (s.contractId = queryContract)
  throwUnless 35 (crypto.checkSignature (crypto.sliceHash inMsg) signature s.publicKey = true)
  .ok { signed := inMsg, queryId, ops := cs }

/-- The end of the machine: the data in `c4`, the actions, and the code if it was set. -/
inductive Ending where
  | stored (data : State) (sent : List RawMessage)
  | upgraded (newCode : Cell) (root : Option Cell) (ops : Slice)

/-- Lines 239-254. -/
def finish (now : Uint 32) (s : State) (order : Order) (sent : List RawMessage) : Outcome Ending := do
  let cleaned := cleanUp now (s.oldQueries.set order.queryId order.queryId.isLt ()) s.lastCleaned
  let lastCleaned ← storeUint 64 cleaned.2
  .ok (.stored { s with lastCleaned, oldQueries := cleaned.1 } sent)

/-- Lines 231-254, behind `accept_message`. -/
def execute (now : Uint 32) (gas : Nat) (s : State) (order : Order) : Outcome Ending := do
  let (op, body) ← loadUint 6 order.ops
  if op.val = 51 then do
    let (publicKey, _) ← loadUint 256 body
    finish now { s with publicKey } order []
  else do
    let done ← processOps gas s.root order.ops []
    match done with
    | .next root _ sent => finish now { s with root } order sent
    | .upgrade newCode root ops => .ok (.upgraded newCode root ops)

/-- An external message; `credit`: the gas credit reaches `accept_message`; `gas`: the rounds of the
loop that the gas pays for; `acts`: the action phase succeeds. -/
structure Input where
  now : Uint 32
  body : Slice
  credit : Bool
  gas : Nat
  acts : Bool

/-- Which cells hold the code of this contract, and what other code does to the data when it is installed. -/
structure Codes where
  manual : Cell → Bool
  afterCodeUpgrade : Cell → Option Cell → Slice → State → Outcome State

/-- The account after an upgrade: the code in `new_code` runs `after_code_upgrade`, which does nothing in
this contract, and its exceptions undo the transaction. -/
def install (codes : Codes) (account : Account) (newCode : Cell) (root : Option Cell) (ops : Slice) : Account :=
  if codes.manual newCode then { account with code := newCode }
  else
    match codes.afterCodeUpgrade newCode root ops account.data with
    | .ok data => { code := newCode, data }
    | .error _ => account

/-- The account behind `accept_message`. -/
def settle (codes : Codes) (account : Account) (i : Input) (order : Order) : Account :=
  match execute i.now i.gas account.data order with
  | .error _ => account
  | .ok (.stored data _) => if i.acts then { account with data } else account
  | .ok (.upgraded newCode root ops) => if i.acts then install codes account newCode root ops else account

def accepted (codes : Codes) (account : Account) (i : Input) : Option Order :=
  if codes.manual account.code = true ∧ i.credit = true then (loadOrder crypto i.now account.data i.body).toOption
  else none

def transact (codes : Codes) (account : Account) (i : Input) : Account :=
  match accepted crypto codes account i with
  | some order => settle codes account i order
  | none => account

end Handler

end TonStaking.Source.DnsManual
