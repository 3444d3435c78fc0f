import TonStaking.Tvm.DataSize
import TonStaking.Tvm.Dict
import TonStaking.Tvm.HashmapOrder
import TonStaking.Tvm.Message
import TonStaking.Tvm.Transaction

/-!
# The automatic DNS contract

`crypto/smartcont/dns-auto-code.fc` 33-403. Domains are registered, prolonged
and updated by internal messages; an entry is stored under 224 bits of the hash
of its name, together with the time at which it expires and the root of its
category table. A second dictionary lists the entries by time of expiration for
the housekeeping.

In the loop over the zero-terminated prefixes of a name, line 290 declares a new
variable `cat_table` in the scope of the innermost block: the variable of line
277 stays null (`crypto/func/gen-abscode.cpp` 193-218,
`crypto/parser/symtable.cpp` 157-179).

The gas of the machine and the outcome of the action phase are inputs: in a
transaction that fails in either phase the state stays and nothing is sent. The
destruction of the account by the last message of `CDel` is not modelled.
-/
namespace TonStaking.Source.DnsAuto

open Tvm Tvm.Hashmap

/-- A domain with its time of expiration and the root of its category table. -/
structure Entry where
  exp : Uint 32
  catTable : Cell

structure Prices where
  stdper : Uint 30
  ppr : Grams
  ppc : Grams
  ppb : Grams

structure State where
  ctl : Cell
  domdata : Dict 224 Entry
  gc : Dict 256 Unit
  prices : Prices
  nhk : Uint 32
  lhk : Uint 32

/-- The data of `new-auto-dns.fif`. -/
def initialData (ctl : Cell) (prices : Prices) : State where
  ctl := ctl
  domdata := Dict.empty
  gc := Dict.empty
  prices := prices
  nhk := 0
  lhk := 0

/-- The head of a query, lines 211-230, and what follows it. -/
structure Query where
  addr : MsgAddress
  srcWc : Int
  srcAddr : Int
  op : Uint 32
  queryId : Uint 64
  rest : Slice

/-- The answer to a query: `send_message`, after `raw_reserve` if an amount is reserved. -/
structure Answer where
  dest : MsgAddress
  tag : Nat
  queryId : Uint 64
  op : Uint 32
  mode : Nat
  reserved : Option Int
  deriving DecidableEq

inductive Kind where
  | register | prolong | update
  deriving DecidableEq

/-- `regd`, `prol` and `updd`. -/
def Kind.op : Kind → Nat
  | .register => 0x72656764
  | .prolong => 0x70726f6c
  | .update => 0x75706464

/-- `qt != 1`. -/
def Kind.strict : Kind → Bool
  | .register => false
  | _ => true

def okTag : Nat := 0xef6b6179

def sendError (q : Query) (code : Nat) : List Answer :=
  [{ dest := q.addr, tag := code, queryId := q.queryId, op := q.op, mode := 64, reserved := none }]

def sendOk (q : Query) (price : Int) : List Answer :=
  [{ dest := q.addr, tag := okTag, queryId := q.queryId, op := q.op, mode := 128, reserved := some price }]

section Handler

-- `string_hash`: the hash of the bits of a slice
variable (stringHash : List Bool → Uint 256)

/-- `string_hash(..) >> 32`. -/
def domainKey (name : List Bool) : Uint 224 :=
  ⟨(stringHash name).val / 2 ^ 32, by have := (stringHash name).isLt; omega⟩

/-- `DICTIGETREF`. For a missing key it pushes a zero and nothing else (`crypto/vm/dictops.cpp` 224-231), but
`idict_get_ref?` takes two values off the stack: the code behind it meets values of another type. -/
def idictGetRef? (n : Nat) (root : Cell) (i : Int) : Outcome Cell := do
  let value ← dictLookup (n + 1) root (intBits n i)
  match value with
  | none => .error .typeChk
  | some ⟨[], [c]⟩ => .ok c
  | some _ => .error .dictErr

/-- Lines 115-121. -/
def dropExpired (n : Nat) (dd : Dict 224 Entry) (key : Nat) : Dict 224 Entry :=
  match dd.get? key with
  | some e => if e.exp ≤ n then dd.erase key else dd
  | none => dd

/-- The loop of lines 111-129; `found? & max_steps` is zero if nothing is found or no step is left. -/
def collect (n : Nat) : Nat → Dict 224 Entry → Dict 256 Unit → Nat → Int → Dict 224 Entry × Dict 256 Unit × Nat
  | 0, dd, gc, nhk, _ => (dd, gc, nhk)
  | fuel + 1, dd, gc, nhk, maxSteps =>
    match gc.udictDeleteGetMin? with
    | none => (dd, gc, nhk)
    | some (mkey, _, rest) =>
      if maxSteps = 0 then (dd, gc, nhk)
      else if mkey / 2 ^ 224 < n then
        let dd := dropExpired n dd (mkey % 2 ^ 224)
        let nhk := match rest.udictDeleteGetMin? with
          | some (mkey, _, _) => mkey / 2 ^ 224
          | none => 0xffffffff
        collect n fuel dd rest nhk (maxSteps - 1)
      else (dd, gc, mkey / 2 ^ 224)

/-- `housekeeping` of the data `s`: it is saved with or without a collection. -/
def housekeeping (now : Uint 32) (s : State) (maxSteps : Int) : Outcome State :=
  if (now : Nat) < max (s.nhk : Nat) (s.lhk + 60) then .ok s
  else do
    let (domdata, gc, nhk) := collect now s.gc.entries.length s.domdata s.gc s.nhk maxSteps
    let nhk ← storeUint 32 nhk
    .ok { s with domdata, gc, nhk, lhk := now }

def calcpriceInternal (domain : List Bool) (data : Option Cell) (ppc ppb : Grams) : Outcome Int := do
  let (bits, refs) ← computeDataSize 100 data
  .ok (ppc * (refs + 2) + ppb * (bits + (domain.length * 2 + (128 + 32 + 32))))

/-- The account of an owner record, an `addr_std` without anycast behind the tag `9fd3`. -/
def parseOwner (ownerInfo : Cell) : Option (Int × Int) :=
  if ownerInfo.bits.length < 16 + 3 + 8 + 256 then none
  else if natOf (ownerInfo.bits.take 19) ≠ 0x9fd3 * 8 + 4 then none
  else
    match loadInt 8 ⟨ownerInfo.bits.drop 19, ownerInfo.refs⟩ with
    | .ok (wc, rest) => some (wc, natOf (rest.bits.take 256))
    | .error _ => none

/-- `check_owner`; 0 is a success. -/
def checkOwner (catTable ownerInfo : Option Cell) (srcWc srcAddr : Int) (strict : Bool) : Nat :=
  if strict = true ∧ catTable.isNone = true then 0xee6f7466
  else
    match ownerInfo with
    | none => if strict then 0xee6f2d32 else 0
    | some info =>
      match parseOwner info with
      | none => 0xe2616432
      | some owner => if owner ≠ (srcWc, srcAddr) then 0xee6f776e else 0

def performCtlOp (now : Uint 32) (s : State) (q : Query) : Outcome (State × List Answer) := do
  let (wc, cs) ← loadInt 8 s.ctl.beginParse
  let (addr, _) ← loadUint 256 cs
  if wc ≠ q.srcWc ∨ (addr : Int) ≠ q.srcAddr then .ok (s, sendError q 0xee6f776e)
  else if q.op.val = 0x43685072 then do
    let (stdper, inMsg) ← loadUint 32 q.rest
    let (ppr, inMsg) ← loadGrams inMsg
    let (ppc, inMsg) ← loadGrams inMsg
    let (ppb, inMsg) ← loadGrams inMsg
    endParse inMsg
    let stdper ← storeUint 30 stdper
    .ok ({ s with prices := { stdper, ppr, ppc, ppb } }, sendOk q 0)
  else if q.op.val = 0x4344656c then do
    let s ← if s.domdata.entries.isEmpty then .ok s else housekeeping now { s with lhk := 1 } (-1)
    if s.domdata.entries.isEmpty then
      .ok (s, [{ dest := q.addr, tag := okTag, queryId := q.queryId, op := q.op, mode := 128 + 32, reserved := none }])
    else .ok (s, sendError q 0xee74656d)
  else .ok (s, sendError q 0xffffffff)

/-- Lines 211-230; `none`: the handler returns at once. -/
def loadQuery (m : InMsg) : Outcome (Option Query) :=
  if m.body.bits.length < 32 ∨ m.bounced = true then .ok none
  else do
    let (srcWc, srcAddr) ← parseStdAddr m.src
    let (op, inMsg) ← loadUint 32 m.body
    if op.val = 0 then .ok none
    else do
      let (queryId, rest) ← if 64 ≤ inMsg.bits.length then loadUint 64 inMsg else .ok (0, inMsg)
      .ok (some { addr := m.src, srcWc, srcAddr, op, queryId, rest })

/-- Lines 255-274; `none`: the name is malformed. The test `(bits - 8) & (7 - 128)` leaves one to sixteen
whole bytes. -/
def loadDomain (inMsg : Slice) : Outcome (Option (List Bool) × Slice) := do
  let (domainCell, inMsg) ← loadDict inMsg
  match domainCell with
  | none => do
    let (bytes, inMsg) ← loadUint 6 inMsg
    let (domain, inMsg) ← loadBits (bytes * 8) inMsg
    if bytes.val ≠ 0 ∧ natOf (domain.drop (domain.length - 8)) = 0 then .ok (some domain, inMsg)
    else .ok (none, inMsg)
  | some cell =>
    let domain := cell.bits
    if cell.refs.isEmpty = true ∧ domain.length % 8 = 0 ∧ 8 ≤ domain.length ∧ domain.length ≤ 128 ∧
        natOf (domain.drop (domain.length - 8)) = 0 then .ok (some domain, inMsg)
    else .ok (none, inMsg)

/-- The variables that the loop of lines 280-299 carries. -/
structure Walk where
  catTable : Option Cell
  ownerInfo : Option Cell
  key : Uint 224
  exp : Uint 32
  zeros : Nat

def Walk.start : Walk := { catTable := none, ownerInfo := none, key := 0, exp := 0, zeros := 0 }

/-- Lines 283-298, behind a zero byte; `name` is the domain up to it. -/
def visit (now : Uint 32) (domdata : Dict 224 Entry) (w : Walk) (name : List Bool) : Outcome Walk :=
  let key := domainKey stringHash name
  let zeros := w.zeros + 1
  match domdata.get? key with
  | none => .ok { w with key, zeros }
  | some e =>
    if now ≤ e.exp then do
      -- `cell cat_table = val~load_ref()`: a variable of this block
      let innerCatTable := e.catTable
      let cown ← idictGetRef? 16 innerCatTable (-2)
      .ok { w with key, zeros, exp := e.exp, ownerInfo := some cown }
    else .ok { w with key, zeros, exp := e.exp }

/-- The loop of lines 280-299, with the rounds that are left. -/
def walk (now : Uint 32) (domdata : Dict 224 Entry) (domain : List Bool) :
    Nat → List Bool → Walk → Outcome Walk
  | 0, _, w => .ok w
  | rounds + 1, tail, w => do
    let w := { w with catTable := none }
    let byte ← preloadBits 8 ⟨tail, []⟩
    let tail := tail.drop 8
    let w ← if natOf byte = 0 then visit stringHash now domdata w (domain.take (domain.length - tail.length))
      else .ok w
    walk now domdata domain rounds tail w

/-- Lines 322-326. -/
def checkRecord (oinfo : Cell) : Outcome Unit := do
  throwUnless 31 (16 + 3 + 8 + 256 ≤ oinfo.bits.length)
  throwUnless 31 (natOf (oinfo.bits.take 19) = 0x9fd3 * 8 + 4)

/-- Lines 317-330. A loaded cell is never the empty dictionary. -/
def loadData (inMsg : Slice) : Outcome (Cell × Slice) := do
  let (data, inMsg) ← loadRef inMsg
  let oinfo ← idictGetRef? 16 data (-2)
  checkRecord oinfo
  let _ ← dictLookupMinmax 17 data 16 (.ordered false true)
  let _ ← dictLookupMinmax 17 data 16 (.ordered true true)
  .ok (data, inMsg)

/-- Lines 366-379. -/
def register (now : Uint 32) (s : State) (q : Query) (w : Walk) (data : Cell) (price : Int) :
    Outcome (State × List Answer) :=
  if w.catTable.isSome then .ok (s, sendError q 0xe16c7265)
  else do
    let expiresAt ← storeUint 32 (now + s.prices.stdper : Nat)
    let gc ← s.gc.udictSet (expiresAt * 2 ^ 224 + w.key : Nat) ()
    let after ← housekeeping now { s with
      domdata := s.domdata.set w.key w.key.isLt { exp := expiresAt, catTable := data }
      gc := gc
      nhk := if s.nhk ≤ expiresAt then s.nhk else expiresAt } 1
    .ok (after, sendOk q price)

/-- Lines 351-364. -/
def prolong (now : Uint 32) (s : State) (q : Query) (w : Walk) (data : Option Cell) (price : Int) :
    Outcome (State × List Answer) :=
  if (w.exp : Nat) > now + s.prices.stdper then .ok (s, sendError q 0xf365726f)
  else do
    let exp ← storeUint 32 (w.exp + s.prices.stdper : Nat)
    let data ← orNull data
    let gc ← (s.gc.erase (w.exp * 2 ^ 224 + w.key)).udictSet ((w.exp + s.prices.stdper) * 2 ^ 224 + w.key : Nat) ()
    let after ← housekeeping now { s with
      domdata := s.domdata.set w.key w.key.isLt { exp, catTable := data }
      gc := gc } 1
    .ok (after, sendOk q price)

/-- Lines 382-386. -/
def update (now : Uint 32) (s : State) (q : Query) (w : Walk) (data : Cell) (price : Int) :
    Outcome (State × List Answer) := do
  let after ← housekeeping now { s with
    domdata := s.domdata.set w.key w.key.isLt { exp := w.exp, catTable := data } } 1
  .ok (after, sendOk q price)

/-- Lines 314-333: the data of the request; a prolongation keeps `cat_table`. -/
def requestedData (kind : Kind) (catTable : Option Cell) (inMsg : Slice) : Outcome (Option Cell × Slice) :=
  match kind with
  | .prolong => .ok (catTable, inMsg)
  | _ => do
    let (data, inMsg) ← loadData inMsg
    .ok (some data, inMsg)

/-- Line 342. -/
def requestPrice (p : Prices) (kind : Kind) (domain : List Bool) (data : Option Cell) : Outcome Int := do
  let price ← calcpriceInternal domain data p.ppc p.ppb
  .ok (price + if kind = .update then 0 else p.ppr)

/-- Lines 276-386. -/
def perform (now : Uint 32) (s : State) (q : Query) (value : Grams) (kind : Kind) (domain : List Bool)
    (inMsg : Slice) : Outcome (State × List Answer) := do
  let w ← walk stringHash now s.domdata domain (domain.length / 8) domain .start
  if 4 < w.zeros then .ok (s, sendError q 0xef765c30)
  else
    let err := checkOwner w.catTable w.ownerInfo q.srcWc q.srcAddr kind.strict
    if err ≠ 0 then .ok (s, sendError q err)
    else do
      let (data, inMsg) ← requestedData kind w.catTable inMsg
      if s.prices.stdper.val = 0 then .ok (s, sendError q 0xd34f4646)
      else do
        let price ← requestPrice s.prices kind domain data
        if (value : Int) - 2 ^ 30 < price then .ok (s, sendError q 0xe7723c70)
        else do
          let (_reqExpiresAt, _) ← loadUint 32 inMsg
          match kind with
          | .prolong => prolong now s q w data price
          | .register => do
            let data ← orNull data
            register now s q w data price
          | .update => do
            let data ← orNull data
            update now s q w data price

def kindOf (op : Nat) : Option Kind :=
  if op = Kind.op .register then some .register
  else if op = Kind.op .prolong then some .prolong
  else if op = Kind.op .update then some .update
  else none

/-- `gogc`. -/
def collectOp : Nat := 0x676f6763

def recvInternal (now : Uint 32) (s : State) (m : InMsg) : Outcome (State × List Answer) := do
  let query ← loadQuery m
  match query with
  | none => .ok (s, [])
  | some q =>
    if 2 ^ 31 ≤ q.op.val then .ok (s, [])
    else if q.op.val / 2 ^ 24 = 0x43 then performCtlOp now s q
    else if q.op.val = collectOp then do
      let (maxSteps, _) ← loadInt 32 q.rest
      let after ← housekeeping now { s with lhk := 1 } maxSteps
      .ok (after, sendError q okTag)
    else
      match kindOf q.op with
      | none => .ok (s, sendError q 0xffffffff)
      | some kind => do
        let (name, inMsg) ← loadDomain q.rest
        match name with
        | none => .ok (s, sendError q 0xee6f5c30)
        | some domain => perform stringHash now s q m.value kind domain inMsg

/-- `recv_external`, only for initialisation. -/
def recvExternal (now : Uint 32) (s : State) : State :=
  if s.lhk.val = 0 then { s with nhk := 0xffffffff, lhk := now } else s

inductive Message where
  | internal (m : InMsg)
  | external

/-- A message; `gas`: the gas suffices; `acts`: the action phase succeeds. -/
structure Input where
  now : Uint 32
  message : Message
  gas : Bool
  acts : Bool

def handle (s : State) (i : Input) : Outcome (State × List Answer) :=
  match i.message with
  | .internal m => recvInternal stringHash i.now s m
  | .external => .ok (recvExternal i.now s, [])

def receive (s : State) (i : Input) : Outcome (State × List Answer) :=
  if i.gas then do
    let (after, sent) ← handle stringHash s i
    if i.acts then .ok (after, sent) else .ok (s, [])
  else .error .outOfGas

end Handler

end TonStaking.Source.DnsAuto
