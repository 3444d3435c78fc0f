import Mathlib.Data.Set.Basic
import TonStaking.Word.LowestBit

/-!
# Shard identifiers

`ton/ton-shard.h` 61-204, with the word functions of `tdutils/td/utils/bits.h`
46-60. A shard is named by the bits of its prefix, followed by a one and zeroes up
to 64 bits; an account is named by the first 64 bits of its address. A failed
`CHECK` gives no result.
-/
namespace TonStaking.Source.Shard

open BitVec

abbrev ShardId := BitVec 64

abbrev AccountIdPrefix := BitVec 64

abbrev WorkchainId := BitVec 32

structure ShardIdFull where
  workchain : WorkchainId
  shard : ShardId
  deriving DecidableEq

structure AccountIdPrefixFull where
  workchain : WorkchainId
  accountIdPrefix : AccountIdPrefix
  deriving DecidableEq

def masterchainId : WorkchainId := -1

def workchainInvalid : WorkchainId := 0x80000000

/-- `shardIdAll`: the shard with the empty prefix. -/
def shardIdAll : ShardId := twoPow 64 63

def bitsNegate64 (x : BitVec 64) : BitVec 64 := ~~~ x + 1

def lowerBit64 (x : BitVec 64) : BitVec 64 := x &&& bitsNegate64 x

def countLeadingZeroes64 (x : BitVec 64) : Nat := x.clz.toNat

def countTrailingZeroesNonZero64 (x : BitVec 64) : Nat := x.ctz.toNat

def shardPrefixLength (shard : ShardId) : Nat :=
  if shard = 0 then 0 else 63 - countTrailingZeroesNonZero64 shard

def shardIsAncestor (parent child : ShardId) : Bool :=
  let x := lowerBit64 parent
  let y := lowerBit64 child
  y ≤ x ∧ (parent ^^^ child) &&& (bitsNegate64 x <<< 1) = 0

def shardIsProperAncestor (parent child : ShardId) : Bool :=
  let x := lowerBit64 parent
  let y := lowerBit64 child
  y < x ∧ (parent ^^^ child) &&& (bitsNegate64 x <<< 1) = 0

/-- `shard_contains` of an account; the same function is called with a shard for the second argument. -/
def shardContains (parent : ShardId) (child : AccountIdPrefix) : Bool :=
  let x := lowerBit64 parent
  (parent ^^^ child) &&& (bitsNegate64 x <<< 1) = 0

/-- `std::max`. -/
def max64 (x y : BitVec 64) : BitVec 64 := if x < y then y else x

def shardIntersects (x y : ShardId) : Bool :=
  let z := max64 (lowerBit64 x) (lowerBit64 y)
  (x ^^^ y) &&& (bitsNegate64 z <<< 1) = 0

def shardIntersection (x y : ShardId) : ShardId := if lowerBit64 x < lowerBit64 y then x else y

def isRightChild (x : ShardId) : Bool := x &&& (lowerBit64 x <<< 1) ≠ 0

def isLeftChild (x : ShardId) : Bool := !isRightChild x

/-- `shard_prefix` of a shard. -/
def shardPrefix (id : ShardId) (len : Nat) : Option ShardId :=
  if 63 < len then none
  else
    let x := lowerBit64 id
    let y := twoPow 64 (63 - len)
    if y < x then none else some ((id &&& bitsNegate64 y) ||| y)

/-- `shard_prefix` of an account. -/
def accountShardPrefix (id : AccountIdPrefix) (len : Nat) : ShardId :=
  let y := twoPow 64 (63 - len)
  (id &&& bitsNegate64 y) ||| y

def shardParent (shard : ShardId) : Option ShardId :=
  let x := lowerBit64 shard
  if x = 0 then none else some ((shard - x) ||| (x <<< 1))

def shardIsParent (parent child : ShardId) : Bool :=
  let y := lowerBit64 child
  y ≠ 0 ∧ shardParent child = some parent

def shardChild (shard : ShardId) (left : Bool) : Option ShardId :=
  let x := lowerBit64 shard >>> 1
  if x = 0 then none else some (if left then shard - x else shard + x)

def shardIsSibling (x y : ShardId) : Bool :=
  x ^^^ y ≠ 0 ∧ x ^^^ y = (x &&& bitsNegate64 x) <<< 1

def shardSibling (x : ShardId) : ShardId := x ^^^ ((x &&& bitsNegate64 x) <<< 1)

namespace ShardIdFull

def isAncestor (parent child : ShardIdFull) : Bool :=
  parent.workchain = child.workchain ∧ shardIsAncestor parent.shard child.shard

def isProperAncestor (parent child : ShardIdFull) : Bool :=
  parent.workchain = child.workchain ∧ shardIsProperAncestor parent.shard child.shard

/-- `shard_contains(ShardIdFull, ShardIdFull)`. -/
def containsShard (parent child : ShardIdFull) : Bool :=
  parent.workchain = child.workchain ∧ shardContains parent.shard child.shard

/-- `shard_contains(ShardIdFull, AccountIdPrefixFull)`. -/
def contains (parent : ShardIdFull) (child : AccountIdPrefixFull) : Bool :=
  parent.workchain = child.workchain ∧ shardContains parent.shard child.accountIdPrefix

def intersects (x y : ShardIdFull) : Bool := x.workchain = y.workchain ∧ shardIntersects x.shard y.shard

def intersection (x y : ShardIdFull) : ShardIdFull := ⟨x.workchain, shardIntersection x.shard y.shard⟩

def isParent (parent child : ShardIdFull) : Bool :=
  parent.workchain = child.workchain ∧ shardIsParent parent.shard child.shard

def isSibling (x y : ShardIdFull) : Bool := x.workchain = y.workchain ∧ shardIsSibling x.shard y.shard

def parent (x : ShardIdFull) : Option ShardIdFull := (shardParent x.shard).map (⟨x.workchain, ·⟩)

def child (x : ShardIdFull) (left : Bool) : Option ShardIdFull := (shardChild x.shard left).map (⟨x.workchain, ·⟩)

def isMasterchain (x : ShardIdFull) : Bool := x.workchain = masterchainId

end ShardIdFull

end TonStaking.Source.Shard
