import TonStaking.Source.Shard.ProcessedUpto
import TonStaking.Source.Transaction.Actions
import TonStaking.Tvm.HashmapAugmented

/-!
# States of shards: split and merge

`ShardState::split`, `ShardState::merge_with` and `filter_out_msg_queue` of
`crypto/block/block.cpp` 885-970 and 1003-1083, with the augmentations of
`crypto/block/block-parse.cpp` 1121-1154 and 1967-1982. What is read from the cells
of an account or of a message is a parameter of the model; the cells of the state
itself, its seqno and its hashes are left out.
-/
namespace TonStaking.Source.Shard

open Tvm Tvm.Hashmap TonStaking.Source.Currency TonStaking.Source.Transaction

structure DepthBalance where
  splitDepth : Nat
  balance : Value

/-- `add_values` of `DepthBalanceInfo`; a sum that takes more than 15 bytes is not stored. -/
def DepthBalance.addValues (a b : DepthBalance) : Option DepthBalance :=
  if 30 < a.splitDepth ∨ 30 < b.splitDepth then none
  else if fits : a.balance.grams.val + b.balance.grams.val < 2 ^ 120 then
    (Extra.add a.balance.extra b.balance.extra).map fun extra =>
      ⟨max a.splitDepth b.splitDepth, ⟨a.balance.grams.val + b.balance.grams.val, fits⟩, extra⟩
  else none

/-- What `filter_out_msg_queue` takes from an envelope and its message. -/
structure Envelope where
  srcPrefix : AccountIdPrefixFull
  destPrefix : AccountIdPrefixFull
  curAddr : Int

/-- The readings of serialized values, and the hash of cells. -/
structure Formats where
  /-- The extra value in front of an account. -/
  depthBalance : Slice → Option DepthBalance
  /-- `unpack_cell` of the envelope and of the message header in it. -/
  envelope : Cell → Option Envelope
  crypto : Crypto

/-- `aug_ShardAccounts`. -/
def Formats.augShardAccounts (fmt : Formats) : Augmentation DepthBalance where
  evalEmpty := ⟨0, 0, none⟩
  leafExtra := fmt.depthBalance
  evalFork := DepthBalance.addValues

/-- `aug_OutMsgQueue`: the smallest logical time. -/
def augOutMsgQueue : Augmentation (BitVec 64) where
  evalEmpty := 0
  leafExtra value := if value.bits.length < 64 then none else some (BitVec.ofNat 64 (natOf (value.bits.take 64)))
  evalFork x y := some (if y < x then y else x)

structure ShardState where
  id : ShardIdFull
  accountDict : Option (AugTrie DepthBalance)
  outMsgQueue : Option (AugTrie (BitVec 64))
  ihrPending : Option (AugTrie Unit)
  processedUpto : MsgProcessedUptoCollection
  totalBalance : Funds
  /-- An invalid collection is none. -/
  totalValidatorFees : Option Funds
  shardLibraries : Option Cell
  utime : BitVec 32
  lt : LogicalTime
  vertSeqno : BitVec 32
  overloadHistory : BitVec 64
  underloadHistory : BitVec 64

inductive StateError where
  /-- A failed `CHECK`. -/
  | check
  /-- Subshard of another shard. -/
  | notParent
  | splittingOutMsgQueue
  | splittingProcessedUpto
  | splittingTotalBalance
  | invalidStates
  | notSiblings
  | addingTotalBalance
  | mergingAccounts
  | accountsPrefix
  | extractingTotalBalance
  | totalBalanceDiffers
  | mergingOutMsgQueues
  | mergingProcessedUpto
  | mergingIhrPending
  | ihrPendingPrefix
  deriving DecidableEq

/-- The first bits of the accounts of a shard, as `pfx.bits()` with the length of the prefix. -/
def shardPrefixBits (shard : ShardId) : List Bool :=
  (List.range (shardPrefixLength shard)).map shard.getMsbD

/-- The cells of the extra currencies that `validate_upto` visits. -/
def validateUpto (maxCells : Nat) (value : Value) : Bool :=
  match value.extra with
  | none => true
  | some extra => extra.trie.nodes ≤ maxCells

/-- `CurrencyCollection::operator==`, which compares extra currencies by the hashes of their cells. -/
def Formats.sameFunds (fmt : Formats) (a b : Funds) : Bool :=
  a.grams = b.grams ∧ (Extra.cells a.extra).map fmt.crypto.cellHash = (Extra.cells b.extra).map fmt.crypto.cellHash

namespace ShardState

variable (fmt : Formats)

def isValid (s : ShardState) : Bool := s.id.workchain ≠ workchainInvalid

/-- The address at which an entry of the queue waits; none if it cannot be unpacked. -/
def currentPrefix (cs : Slice) : Option AccountIdPrefixFull :=
  if cs.bits.length = 128 then
    match cs.refs with
    | [ref] =>
      match fmt.envelope ref with
      | none => none
      | some env =>
        let cur := interpolateAddr env.srcPrefix env.destPrefix env.curAddr
        if env.srcPrefix.workchain ≠ workchainInvalid ∧ env.destPrefix.workchain ≠ workchainInvalid ∧
            cur.workchain ≠ workchainInvalid then some cur
        else none
    | _ => none
  else none

/-- The callback of `filter_out_msg_queue`. -/
def staysInQueue (oldShard subshard : ShardIdFull) (cs : Slice) (key : List Bool) : Option Bool :=
  if key.length ≠ 352 then none
  else
    match currentPrefix fmt cs with
    | none => none
    | some cur => if !oldShard.contains cur then none else some (subshard.contains cur)

def filterOutMsgQueue (outQueue : Option (AugTrie (BitVec 64))) (oldShard subshard : ShardIdFull) :
    Option (Option (AugTrie (BitVec 64))) :=
  AugTrie.filter augOutMsgQueue (staysInQueue fmt oldShard subshard) outQueue

def orError {α : Type} (e : StateError) : Option α → Except StateError α
  | none => .error e
  | some x => .ok x

def require (condition : Bool) (e : StateError) : Except StateError Unit := if condition then .ok () else .error e

def split (s : ShardState) (subshard : ShardIdFull) : Except StateError ShardState := do
  require (s.id.isParent subshard) .notParent
  let pfx := shardPrefixBits subshard.shard
  let accountDict := AugTrie.cutPrefixSubdict 256 s.accountDict pfx
  require (AugTrie.hasCommonPrefix 256 accountDict pfx) .check
  let outMsgQueue ← orError .splittingOutMsgQueue (filterOutMsgQueue fmt s.outMsgQueue s.id subshard)
  let processedUpto ← orError .splittingProcessedUpto (s.processedUpto.split subshard)
  let ihrPending := AugTrie.cutPrefixSubdict 320 s.ihrPending pfx
  require (AugTrie.hasCommonPrefix 320 ihrPending pfx) .check
  let extra ← orError .splittingTotalBalance (AugTrie.rootExtra fmt.augShardAccounts accountDict)
  require (validateUpto 1024 extra.balance) .splittingTotalBalance
  .ok { s with
    id := ⟨s.id.workchain, subshard.shard⟩
    accountDict := accountDict
    outMsgQueue := outMsgQueue
    ihrPending := ihrPending
    processedUpto := processedUpto
    totalBalance := extra.balance.funds
    totalValidatorFees := s.totalValidatorFees.map fun fees =>
      { fees with grams := (fees.grams + (isRightChild subshard.shard).toNat) / 2 }
    overloadHistory := 0
    underloadHistory := 0 }

def mergeWith (s sib : ShardState) : Except StateError ShardState := do
  require (s.isValid && sib.isValid) .invalidStates
  require (s.id.isSibling sib.id) .notSiblings
  let shard ← orError .check s.id.parent
  let totalBalance ← orError .addingTotalBalance (s.totalBalance.add sib.totalBalance)
  -- a failed addition makes the fees invalid and is not noticed
  let totalValidatorFees := do (← s.totalValidatorFees).add (← sib.totalValidatorFees)
  let accountDict ← orError .mergingAccounts
    (AugTrie.combineWith fmt.augShardAccounts 256 s.accountDict sib.accountDict)
  let pfx := shardPrefixBits shard.shard
  require (AugTrie.hasCommonPrefix 256 accountDict pfx) .accountsPrefix
  let extra ← orError .extractingTotalBalance (AugTrie.rootExtra fmt.augShardAccounts accountDict)
  require (fmt.sameFunds extra.balance.funds totalBalance) .totalBalanceDiffers
  require (s.shardLibraries.isNone && sib.shardLibraries.isNone) .check
  let outMsgQueue ← orError .mergingOutMsgQueues
    (AugTrie.combineWith augOutMsgQueue 352 s.outMsgQueue sib.outMsgQueue)
  let processedUpto ← orError .mergingProcessedUpto (s.processedUpto.combineWith sib.processedUpto)
  let ihrPending ← orError .mergingIhrPending (AugTrie.combineWith .plain 320 s.ihrPending sib.ihrPending)
  require (AugTrie.hasCommonPrefix 320 ihrPending pfx) .ihrPendingPrefix
  .ok { s with
    id := ⟨s.id.workchain, shard.shard⟩
    accountDict := accountDict
    outMsgQueue := outMsgQueue
    ihrPending := ihrPending
    processedUpto := processedUpto
    totalBalance := totalBalance
    totalValidatorFees := totalValidatorFees
    utime := if s.utime < sib.utime then sib.utime else s.utime
    lt := if s.lt < sib.lt then sib.lt else s.lt
    overloadHistory := 0
    underloadHistory := 0
    vertSeqno := if s.vertSeqno < sib.vertSeqno then sib.vertSeqno else s.vertSeqno }

end ShardState

end TonStaking.Source.Shard
