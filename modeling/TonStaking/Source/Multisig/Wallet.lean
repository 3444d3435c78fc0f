import Mathlib.Data.Int.Bitwise
import TonStaking.Source.QueryIds
import TonStaking.Tvm.Slice
import TonStaking.Tvm.Transaction

/-!
# The multisig wallet

`crypto/smartcont/multisig-code.fc` 1-196 and 269-293: an external message brings a query,
the signature of one owner over all of it, and a list of signatures of other
owners over the query alone. The wallet counts the owners who have signed a
query and performs it when there are `k` of them.

`commit()` in the middle of the handler keeps the effect of the first signature
when a later one is bad or the gas runs out.
-/
namespace TonStaking.Source.Multisig
open Tvm

structure OwnerInfo where
  publicKey : Uint 256
  flood : Uint 8

/-- A record of `pending_queries`. Its first bit is 0 once the query has been performed. -/
inductive Query where
  | completed
  | waiting (creatorI cnt : Uint 8) (cntBits : Nat) (msg : Slice)

structure State where
  walletId : Uint 32
  n : Uint 8
  k : Uint 8
  lastCleaned : Uint 64
  ownerInfos : Dict 8 OwnerInfo
  pendingQueries : Dict 64 Query

def createInitState (walletId : Uint 32) (n k : Uint 8) (ownersInfo : Dict 8 OwnerInfo) : State where
  walletId := walletId
  n := n
  k := k
  lastCleaned := 0
  ownerInfos := ownersInfo
  pendingQueries := Dict.empty

def packOwnerInfo (publicKey : Uint 256) (flood : Int) : Outcome OwnerInfo := do
  let flood ← storeUint 8 flood
  .ok { publicKey, flood }

structure RawMessage where
  mode : Uint 8
  message : Cell

/-- The messages of a query that the wallet performs. -/
structure Sending where
  queryId : Uint 64
  msg : Slice
  messages : List RawMessage

section Queries

variable (crypto : Crypto)

/-- `1 << i`. -/
def mask (i : Uint 8) : Nat := 1 <<< i.val

/-- The body of the loop of `check_signatures`: the two counters, and whether another cell follows. -/
def countSignature (publicKeys : Dict 8 OwnerInfo) (hash : Uint 256) (cs : Slice) (cnt cntBits : Nat) :
    Outcome (Nat × Nat × Bool) := do
  let (signature, cs) ← loadBits 512 cs
  let (i, cs) ← loadUint 8 cs
  let (signatures, _) ← loadDict cs
  let owner ← orThrow 37 (publicKeys.get? i)
  throwUnless 38 (crypto.checkSignature hash signature owner.publicKey = true)
  let newBits := cntBits ||| mask i
  .ok (if newBits ≠ cntBits then cnt + 1 else cnt, newBits, signatures.isSome)

/-- The cell that follows is the first reference. -/
def checkSignatures (publicKeys : Dict 8 OwnerInfo) (hash : Uint 256) : Cell → Nat → Nat → Outcome (Nat × Nat)
  | .mk bits [], cnt, cntBits => do
    let (cnt, cntBits, _) ← countSignature crypto publicKeys hash ⟨bits, []⟩ cnt cntBits
    .ok (cnt, cntBits)
  | .mk bits (next :: refs), cnt, cntBits => do
    let (cnt, cntBits, more) ← countSignature crypto publicKeys hash ⟨bits, next :: refs⟩ cnt cntBits
    if more then checkSignatures publicKeys hash next cnt cntBits else .ok (cnt, cntBits)

def unpackQueryData (inMsg : Slice) (query : Option Query) (rootI : Uint 8) : Outcome (Uint 8 × Nat × Nat × Slice) :=
  match query with
  | some .completed => .error (.code 35)
  | some (.waiting creatorI cnt cntBits msg) => do
    throwUnless 36 (crypto.sliceHash msg = crypto.sliceHash inMsg)
    .ok (creatorI, cnt.val, cntBits, msg)
  | none => .ok (rootI, 0, 0, inMsg)

/-- The loop that sends the messages of a query. -/
def loadMessages : List Bool → List Cell → Outcome (List RawMessage)
  | _, [] => .ok []
  | bits, message :: refs => do
    let (mode, cs) ← loadUint 8 ⟨bits, message :: refs⟩
    let rest ← loadMessages cs.bits refs
    .ok ({ mode, message } :: rest)

/-- What an update leaves. -/
structure Update where
  pendingQueries : Dict 64 Query
  ownerInfos : Dict 8 OwnerInfo
  sent : List Sending

/-- A record always fits into a cell: the message that brought the query had 617 bits besides it, the
record has at most 272. -/
def updatePendingQueries (pendingQueries : Dict 64 Query) (ownerInfos : Dict 8 OwnerInfo) (msg : Slice)
    (queryId : Uint 64) (creatorI : Uint 8) (cnt cntBits : Nat) (n k : Uint 8) : Outcome Update :=
  if k.val ≤ cnt then do
    let messages ← loadMessages msg.bits msg.refs
    let owner ← orNull (ownerInfos.get? creatorI)
    let info ← packOwnerInfo owner.publicKey (owner.flood - 1)
    .ok { pendingQueries := pendingQueries.set queryId queryId.isLt .completed
          ownerInfos := ownerInfos.set creatorI creatorI.isLt info
          sent := [{ queryId, msg, messages }] }
  else do
    let cnt ← storeUint 8 cnt
    let cntBits ← storeUint n cntBits
    .ok { pendingQueries := pendingQueries.set queryId queryId.isLt (.waiting creatorI cnt cntBits msg)
          ownerInfos, sent := [] }

mutual
def calcBocSize : Nat → Nat → Cell → Nat × Nat
  | cells, bits, .mk data refs => calcRefsSize (cells + 1) (bits + data.length) refs

def calcRefsSize : Nat → Nat → List Cell → Nat × Nat
  | cells, bits, [] => (cells, bits)
  | cells, bits, c :: refs => calcRefsSize (calcBocSize cells bits c).1 (calcBocSize cells bits c).2 refs
end

/-- A message whose root signature is valid. -/
structure Order where
  rootI : Uint 8
  owner : OwnerInfo
  signatures : Option Cell
  hash : Uint 256
  queryId : Uint 64
  msg : Slice

/-- Lines 117-139. The entry of a missing owner is read before `throw_unless(31, found?)`. -/
def loadOrder (s : State) (inMsg : Slice) : Outcome Order := do
  let (rootSignature, inMsg) ← loadBits 512 inMsg
  let rootHash := crypto.sliceHash inMsg
  let (rootI, inMsg) ← loadUint 8 inMsg
  let owner ← orNull (s.ownerInfos.get? rootI)
  throwUnless 32 (crypto.checkSignature rootHash rootSignature owner.publicKey = true)
  let (signatures, inMsg) ← loadDict inMsg
  let hash := crypto.sliceHash inMsg
  let (queryWalletId, inMsg) ← loadUint 32 inMsg
  throwUnless 42 (queryWalletId = s.walletId)
  let (queryId, inMsg) ← loadUint 64 inMsg
  let size := calcBocSize 0 0 (.mk inMsg.bits inMsg.refs)
  throwIf 40 (size.1 > 8 ∨ size.2 > 2048)
  .ok { rootI, owner, signatures, hash, queryId, msg := inMsg }

/-- A query with the root signature counted. -/
structure Opened where
  isNew : Bool
  flood : Int
  creatorI : Uint 8
  cnt : Nat
  cntBits : Nat
  msg : Slice

/-- Lines 141-155. -/
def openQuery (now : Uint 32) (s : State) (o : Order) : Outcome Opened := do
  let query := s.pendingQueries.get? o.queryId
  let isNew := query.isNone
  let flood : Int := if isNew then o.owner.flood + 1 else o.owner.flood
  throwIf 39 (isNew = true ∧ flood > 10)
  throwIf 33 ((o.queryId : Int) < bound now)
  let (creatorI, cnt, cntBits, msg) ← unpackQueryData crypto o.msg query o.rootI
  throwIf 34 (cntBits &&& mask o.rootI ≠ 0)
  .ok { isNew, flood, creatorI, cnt := cnt + 1, cntBits := cntBits ||| mask o.rootI, msg }

/-- Line 160: a new query is counted for the owner who opens it. -/
def countQuery (s : State) (o : Order) (q : Opened) : Outcome (Dict 8 OwnerInfo) :=
  if q.isNew then do
    let info ← packOwnerInfo o.owner.publicKey q.flood
    .ok (s.ownerInfos.set o.rootI o.rootI.isLt info)
  else .ok s.ownerInfos

/-- Lines 159-164. -/
def firstUpdate (now : Uint 32) (s : State) (o : Order) (q : Opened) : Outcome Update := do
  let ownerInfos ← countQuery s o q
  throwIf 41 (q.isNew = true ∧ q.cnt < s.k.val ∧ bound now + (60 * 60) * 2 ^ 32 > o.queryId)
  updatePendingQueries s.pendingQueries ownerInfos q.msg o.queryId q.creatorI q.cnt q.cntBits s.n s.k

/-- Lines 169-175: the other signatures, unless the query has been performed. -/
def secondUpdate (s : State) (o : Order) (q : Opened) (u : Update) : Outcome Update :=
  match o.signatures with
  | none => .ok { u with sent := [] }
  | some signatures =>
    if s.k.val ≤ q.cnt then .ok { u with sent := [] }
    else do
      let (newCnt, cntBits) ← checkSignatures crypto u.ownerInfos o.hash signatures 0 q.cntBits
      updatePendingQueries u.pendingQueries u.ownerInfos q.msg o.queryId q.creatorI (q.cnt + newCnt) cntBits s.n s.k

def State.store (s : State) (u : Update) : State :=
  { s with
    lastCleaned := if s.lastCleaned = 0 then 1 else s.lastCleaned
    pendingQueries := u.pendingQueries, ownerInfos := u.ownerInfos }

/-- Lines 169-195: what follows `commit()`. Without a change the state that is stored again is the
committed one. -/
def afterCommit (now : Uint 32) (s : State) (o : Order) (q : Opened) (u : Update) : Outcome (State × List Sending) := do
  let late ← secondUpdate crypto s o q u
  let stored := s.store late
  let cleaned := cleanUp now late.pendingQueries stored.lastCleaned
  let lastCleaned ← storeUint 64 cleaned.2
  .ok ({ stored with lastCleaned, pendingQueries := cleaned.1 }, late.sent)

def tryInit (s : State) : Outcome (State × List Sending) := do
  throwIf 37 (s.lastCleaned ≠ 0)
  .ok ({ s with lastCleaned := 1 }, [])

/-- Where the gas of a message runs out, if it does. -/
inductive Gas where
  | enough
  | beforeCommit
  | afterCommit
  deriving DecidableEq

/-- An exception after `commit()` leaves what has been committed. -/
def recvExternal (now : Uint 32) (gas : Gas) (s : State) (inMsg : Slice) : Outcome (State × List Sending) :=
  if gas = .beforeCommit then .error .outOfGas
  else if inMsg.isEmpty then tryInit s
  else do
    let o ← loadOrder crypto s inMsg
    let q ← openQuery crypto now s o
    let u ← firstUpdate now s o q
    let rest := if gas = .enough then afterCommit crypto now s o q u else .error .outOfGas
    match rest with
    | .ok (after, sent) => .ok (after, u.sent ++ sent)
    | .error _ => .ok (s.store u, u.sent)

/-- An external message; `acts`: its action phase succeeds. Internal messages do nothing. -/
structure Input where
  now : Uint 32
  body : Slice
  gas : Gas
  acts : Bool

/-- A transaction whose actions fail keeps the old state and sends nothing. -/
def receive (s : State) (i : Input) : Outcome (State × List Sending) := do
  let (after, sent) ← recvExternal crypto i.now i.gas s i.body
  if i.acts then .ok (after, sent) else .ok (s, [])

end Queries

/-- An open query as it is listed: its record without the first bit. -/
structure Listed where
  creatorI : Uint 8
  cnt : Uint 8
  cntBits : Nat
  msg : Slice

/-- The body of the loop of `messages_by_mask`, with `cnt_bits & mask` as the condition. -/
def Query.listed (mask : Int) : Query → Option Listed
  | .completed => none
  | .waiting creatorI cnt cntBits msg =>
    if Int.land cntBits mask ≠ 0 then some { creatorI, cnt, cntBits, msg } else none

def messagesByMask (s : State) (mask : Int) : Outcome (Dict 64 Listed) :=
  s.pendingQueries.forEach (Dict.collect (Query.listed mask)) Dict.empty

def getMessagesUnsignedById (s : State) (id : Uint 8) : Outcome (Dict 64 Listed) := messagesByMask s (mask id)

/-- All bits are set in `~ 0`. -/
def getMessagesUnsigned (s : State) : Outcome (Dict 64 Listed) := messagesByMask s (-1)

end TonStaking.Source.Multisig
