import TonStaking.Tvm.DataSize
import TonStaking.Tvm.Dict
import TonStaking.Tvm.Hashmap
import TonStaking.Tvm.Transaction

/-!
# The configuration contract

`crypto/smartcont/config-code.fc` 10-24 and 96-254: an external message is an
order signed with the master key, or the vote of a validator of the current set,
which the contract looks up in configuration parameter 34. A proposal is
performed when the validators who voted for it have more than two thirds of the
total weight.

`commit()` in the middle of the handler keeps the new sequence number when a
later step fails.
-/
namespace TonStaking.Source.ConfigContract
open Tvm

/-- `pack_proposal`; the entry of a voter is the bits that were stored for it. -/
structure Proposal where
  voters : Dict 16 (List Bool)
  sumWeight : Uint 64
  vsetId : Uint 256
  body : Slice

/-- The keys of `cfg_dict` are the 32 bits of a signed index. -/
structure State where
  cfgDict : Dict 32 Cell
  storedSeqno : Uint 32
  publicKey : Uint 256
  voteDict : Dict 256 Proposal

/-- `validators_ext#12` of `crypto/block/block.tlb` 559-561, with the root of its `HashmapE 16`. -/
structure ValidatorSet where
  utimeSince : Uint 32
  utimeUntil : Uint 32
  total : Uint 16
  main : Uint 16
  totalWeight : Uint 64
  list : Option Cell
  mainLe : main.val ≤ total.val
  mainPos : 1 ≤ main.val

def ValidatorSet.cell (vset : ValidatorSet) : Cell :=
  .mk (Uint.bits (0x12 : Uint 8) ++ (Uint.bits vset.utimeSince ++ (Uint.bits vset.utimeUntil ++ (Uint.bits vset.total ++
    (Uint.bits vset.main ++ (Uint.bits vset.totalWeight ++ [vset.list.isSome])))))) vset.list.toList

/-- An action of the compute phase. -/
inductive OutAction where
  | setCode (code : Cell)
  /-- `change_elector_code`: the elector's address, the query and the payload. -/
  | changeElectorCode (dest : Uint 256) (queryId : Uint 32) (payload : Slice)

inductive Event where
  /-- The action of an accepted proposal has been performed. -/
  | performed (proposal : Slice)
  | action (out : OutAction)

/-- Lines 146-161: the rest of the set is taken for the root of a dictionary. -/
def getValidatorDescr (vset : Option Cell) (idx : Uint 16) : Outcome (Option Slice × Nat) :=
  match vset with
  | none => .ok (none, 0)
  | some vset => do
    let (tag, cs) ← loadUint 8 ⟨vset.bits, vset.refs⟩
    throwUnless 40 (tag.val = 0x12)
    let cs ← skipBits (32 + 32 + 16 + 16) cs
    let (totalWeight, cs) ← loadUint 64 cs
    let dict := Cell.mk cs.bits cs.refs
    let value ← Hashmap.udictGet? 16 (some dict) (idx.val : Int)
    .ok (value, totalWeight.val)

/-- `tag & ~ 0x20` of a byte. -/
def unpackValidatorDescr (cs : Slice) : Outcome (Uint 256 × Uint 64) := do
  let (tag, cs) ← loadUint 8 cs
  throwUnless 41 (tag.val &&& 0xdf = 0x53)
  let (magic, cs) ← loadUint 32 cs
  throwUnless 41 (magic.val = 0x8e81278a)
  let (pubkey, cs) ← loadUint 256 cs
  let (weight, _) ← loadUint 64 cs
  .ok (pubkey, weight)

section Votes

variable (crypto : Crypto)

/-- `begin_cell().store_uint(32, now())`: the number 32 in a field of `now()` bits. A field has at most 256
bits, and 32 needs six of them. -/
def packVoter (now : Uint 32) : Outcome (List Bool) :=
  if 6 ≤ now.val ∧ now.val ≤ 256 then .ok (bitsOf now.val 32) else .error .rangeChk

/-- A reference is needed for the voters. -/
def packProposal (voters : Dict 16 (List Bool)) (sumWeight : Nat) (vsetId : Uint 256) (body : Slice) : Outcome Proposal :=
  if body.refs.length ≤ 3 then do
    let sumWeight ← storeUint 64 sumWeight
    .ok { voters, sumWeight, vsetId, body }
  else .error .cellOv

/-- Lines 185-195: a proposal is given by its body or by its hash. -/
def findProposal (voteDict : Dict 256 Proposal) (action : Uint 32) (cs : Slice) : Outcome (Uint 256 × Option Proposal) :=
  if action.val % 2 = 1 then .ok (crypto.sliceHash cs, voteDict.get? (crypto.sliceHash cs))
  else do
    let (hash, _) ← loadUint 256 cs
    let entry ← orThrow 42 (voteDict.get? hash)
    .ok (hash, some entry)

def registerVote (now : Uint 32) (voteDict : Dict 256 Proposal) (action : Uint 32) (cs : Slice) (idx : Uint 16)
    (weight totalWeight : Nat) (curVsetId : Uint 256) : Outcome (Dict 256 Proposal × Option Slice) := do
  let (hash, entry) ← findProposal crypto voteDict action cs
  let body := (entry.map Proposal.body).getD cs
  -- the votes of another validator set are dropped
  let kept := entry.filter fun p => decide (p.vsetId = curVsetId)
  let voters := (kept.map Proposal.voters).getD Dict.empty
  let sumWeight := (kept.map fun p => p.sumWeight.val).getD 0
  if (voters.get? idx).isSome then .ok (voteDict, none)
  else do
    let voter ← packVoter now
    let voters := voters.set idx idx.isLt voter
    let sumWeight := sumWeight + weight
    if sumWeight * 3 > totalWeight * 2 then .ok (voteDict.erase hash, some body)
    else do
      let proposal ← packProposal voters sumWeight curVsetId body
      .ok (voteDict.set hash hash.lt256 proposal, none)

end Votes

/-- What an action leaves; no configuration if the transaction ends with it, as `throw(0)` does. -/
structure Performed where
  config : Option (Dict 32 Cell × Uint 256)
  actions : List OutAction

/-- The unsigned index is a key of a dictionary with signed keys. -/
def setParam (cfgDict : Dict 32 Cell) (index : Uint 32) (value : Cell) : Outcome (Dict 32 Cell) :=
  if index.val < 2 ^ 31 then .ok (cfgDict.set index index.isLt value) else .error .rangeChk

def changeElectorCode (now : Uint 32) (electorParam : Option Cell) (cs : Slice) : Outcome OutAction := do
  let param ← orNull electorParam
  let (dest, _) ← loadUint 256 ⟨param.bits, param.refs⟩
  .ok (.changeElectorCode dest now cs)

/-- Lines 114-144. The code that runs after an upgrade is the new one's; this one's does nothing. -/
def performAction (now : Uint 32) (electorParam : Option Cell) (cfgDict : Dict 32 Cell) (publicKey : Uint 256)
    (action : Uint 32) (cs : Slice) : Outcome Performed :=
  if action.val = 0x43665021 then do
    let (paramIndex, cs) ← loadUint 32 cs
    let (paramValue, cs) ← loadRef cs
    endParse cs
    let cfgDict ← setParam cfgDict paramIndex paramValue
    .ok { config := some (cfgDict, publicKey), actions := [] }
  else if action.val = 0x4e436f64 then do
    let (newCode, _) ← loadRef cs
    .ok { config := none, actions := [.setCode newCode] }
  else if action.val = 0x50624b21 then do
    let (publicKey, cs) ← loadUint 256 cs
    endParse cs
    .ok { config := some (cfgDict, publicKey), actions := [] }
  else if action.val = 0x4e43ef05 then do
    let sent ← changeElectorCode now electorParam cs
    .ok { config := some (cfgDict, publicKey), actions := [sent] }
  else do
    throwIf 32 (action.val ≠ 0)
    .ok { config := some (cfgDict, publicKey), actions := [] }

def State.perform (s : State) (p : Performed) : State :=
  match p.config with
  | some (cfgDict, publicKey) => { s with cfgDict, publicKey }
  | none => s

section Handler

variable (crypto : Crypto)

/-- An external message that may be handled now. -/
structure External where
  signature : List Bool
  signed : Slice
  action : Uint 32
  cs : Slice

/-- Lines 220-228. -/
def loadExternal (now : Uint 32) (s : State) (inMsg : Slice) : Outcome External := do
  let (signature, inMsg) ← loadBits 512 inMsg
  let (action, cs) ← loadUint 32 inMsg
  let (msgSeqno, cs) ← loadUint 32 cs
  let (validUntil, cs) ← loadUint 32 cs
  throwIf 35 (validUntil.val < now.val)
  throwIf 39 (refsDepth cs.refs > 64)
  throwUnless 33 (msgSeqno = s.storedSeqno)
  .ok { signature, signed := inMsg, action, cs }

/-- `(action - 0x566f7465) & -2` is zero. -/
def isVote (action : Uint 32) : Prop := action.val = 0x566f7465 ∨ action.val = 0x566f7466

instance (action : Uint 32) : Decidable (isVote action) := inferInstanceAs (Decidable (_ ∨ _))

/-- `accept_message`, the next sequence number and `commit()`; what fails afterwards leaves this state. -/
def commitSeqno (s : State) (rest : State → Outcome (State × List Event)) : Outcome (State × List Event) := do
  let storedSeqno ← storeUint 32 (s.storedSeqno + 1)
  let committed := { s with storedSeqno }
  match rest committed with
  | .ok result => .ok result
  | .error _ => .ok (committed, [])

/-- Lines 238-245. -/
def countVote (now : Uint 32) (vset electorParam : Option Cell) (m : External) (cs : Slice) (idx : Uint 16)
    (weight totalWeight : Nat) (s : State) : Outcome (State × List Event) := do
  let _ ← sliceComputeDataSize 1024 cs
  let vset ← orNull vset
  let (voteDict, accepted) ← registerVote crypto now s.voteDict m.action cs idx weight totalWeight (crypto.cellHash vset)
  let s := { s with voteDict }
  match accepted with
  | none => .ok (s, [])
  | some body => do
    let (action, rest) ← loadUint 32 body
    let p ← performAction now electorParam s.cfgDict s.publicKey action rest
    .ok (s.perform p, .performed body :: p.actions.map Event.action)

/-- Lines 230-245. -/
def recvVote (now : Uint 32) (vset electorParam : Option Cell) (s : State) (m : External) : Outcome (State × List Event) := do
  let (idx, cs) ← loadUint 16 m.cs
  let (vdescr, totalWeight) ← getValidatorDescr vset idx
  let vdescr ← orNull vdescr
  let (valPubkey, weight) ← unpackValidatorDescr vdescr
  throwUnless 34 (crypto.checkSignature (crypto.sliceHash m.signed) m.signature valPubkey = true)
  commitSeqno s (countVote crypto now vset electorParam m cs idx weight.val totalWeight)

/-- Lines 247-253. -/
def recvOrder (now : Uint 32) (electorParam : Option Cell) (s : State) (m : External) : Outcome (State × List Event) := do
  throwUnless 34 (crypto.checkSignature (crypto.sliceHash m.signed) m.signature s.publicKey = true)
  commitSeqno s fun s => do
    let p ← performAction now electorParam s.cfgDict s.publicKey m.action m.cs
    .ok (s.perform p, p.actions.map Event.action)

def recvExternal (now : Uint 32) (vset electorParam : Option Cell) (s : State) (inMsg : Slice) :
    Outcome (State × List Event) := do
  let m ← loadExternal now s inMsg
  if isVote m.action then recvVote crypto now vset electorParam s m else recvOrder crypto now electorParam s m

/-- An external message with the parameters 34 and 1 of the configuration it sees. -/
structure Input where
  now : Uint 32
  vset : ValidatorSet
  electorParam : Option Cell
  body : Slice

def receive (s : State) (i : Input) : Outcome (State × List Event) :=
  recvExternal crypto i.now (some i.vset.cell) i.electorParam s i.body

end Handler

end TonStaking.Source.ConfigContract
