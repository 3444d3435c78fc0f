import TonStaking.Source.Shard.Prefixes
import TonStaking.Tvm.Slice

/-!
# Hypercube routing and neighbour shards

`interpolate_addr` and `perform_hypercube_routing` of `crypto/block/block.cpp`
1672-1721, `ShardConfig::is_neighbor` and `get_shard_hash_ids` of
`crypto/block/mc-config.cpp` 1157-1252. An address on the way takes a number of
its bits, counted over workchain and prefix, from the destination and the rest
from the source.
-/
namespace TonStaking.Source.Shard

open BitVec TonStaking.Word Tvm

def interpolateAddr (src dest : AccountIdPrefixFull) (d : Int) : AccountIdPrefixFull :=
  if d ≤ 0 then src
  else if 96 ≤ d then dest
  else if 32 ≤ d then
    let mask := allOnes 64 >>> (d - 32).toNat
    ⟨dest.workchain, (dest.accountIdPrefix &&& ~~~ mask) ||| (src.accountIdPrefix &&& mask)⟩
  else
    -- the mask is an `int`, so that the shift keeps all of its ones
    let mask := (-1 : BitVec 32).sshiftRight d.toNat
    ⟨(dest.workchain &&& ~~~ mask) ||| (src.workchain &&& mask), src.accountIdPrefix⟩

/-- The `do` loop of `perform_hypercube_routing`; out of fuel there is no result. -/
def takeNibbles (x y t q : BitVec 64) : Nat → BitVec 64 → Int → Option Int
  | 0, _, _ => none
  | fuel + 1, m, i =>
    let m := m >>> 4
    let h := t ^^^ (q &&& ~~~ m)
    let i := i + 4
    if x ≤ h ∧ h ≤ y then takeNibbles x y t q fuel m i else some i

/-- The destination bits of the transit address and of the next hop. -/
def performHypercubeRouting (src dest : AccountIdPrefixFull) (cur : ShardIdFull) (usedDestBits : Int) :
    Option (Int × Int) :=
  let transit := interpolateAddr src dest usedDestBits
  if !cur.contains transit then some (-1, -1)
  else if cur.contains dest then some (96, 96)
  else if transit.workchain = masterchainId ∨ dest.workchain = masterchainId then some (usedDestBits, 96)
  else if transit.workchain ≠ dest.workchain then some (usedDestBits, 32)
  else
    let x := cur.shard &&& (cur.shard - 1)
    let y := cur.shard ||| (cur.shard - 1)
    let t := transit.accountIdPrefix
    let q := dest.accountIdPrefix ^^^ t
    -- `& -4` on a number between 0 and 64
    let i := countLeadingZeroes64 q / 4 * 4
    let m := allOnes 64 >>> i
    (takeNibbles x y t q 16 m i).map fun i => (28 + i, 32 + i)

def isNeighbor (x y : ShardIdFull) : Bool :=
  if x.isMasterchain || y.isMasterchain then true
  else
    let z := (x.shard ^^^ y.shard) &&&
      bitsNegate64 (max64 (lowerBit64 x.shard) (lowerBit64 y.shard) <<< 1)
    if z = 0 then true
    else if x.workchain ≠ y.workchain then false
    else
      let c1 := countLeadingZeroes64 z / 4
      let c2 := countTrailingZeroesNonZero64 z / 4
      c1 + c2 = 15

structure BlockId where
  workchain : WorkchainId
  shard : ShardId
  seqno : BitVec 32
  deriving DecidableEq

/-- The shard dictionary, its entries in the order of the signed key, and the masterchain's own entry. -/
structure ShardConfig where
  shardHashesDict : Option (List (WorkchainId × Slice))
  mcShardHash : Option BlockId

/-- The walk over the binary tree of one workchain, with the stack of the source; `none` is a failed parse. -/
def walkShards (filter : ShardIdFull → Bool → Bool) (workchain : WorkchainId) :
    List (Cell × ShardId) → List BlockId → Option (List BlockId)
  | [], res => some res
  | (.mk [] _, _) :: _, _ => none
  | (.mk (t :: bits) refs, shard) :: stack, res =>
    if !filter ⟨workchain, shard⟩ (!t) then walkShards filter workchain stack res
    else if !t then
      if bits.length < 4 + 32 then none
      else walkShards filter workchain stack
        (res ++ [⟨workchain, shard, BitVec.ofNat 32 (natOf ((bits.drop 4).take 32))⟩])
    else
      let delta := lowerBit64 shard >>> 1
      if delta = 0 ∨ bits ≠ [] then none
      else
        match refs with
        | [left, right] => walkShards filter workchain ((left, shard - delta) :: (right, shard + delta) :: stack) res
        | _ => none
  termination_by stack => (stack.map fun node => sizeOf node.1).sum
  decreasing_by
    all_goals simp only [List.map_cons, List.sum_cons, Cell.mk.sizeOf_spec, List.cons.sizeOf_spec, List.nil.sizeOf_spec]
    all_goals omega

/-- The dictionary callback: what is listed so far, and whether the masterchain has been put in its place. -/
def listWorkchain (filter : ShardIdFull → Bool → Bool) (mcShardHash : Option BlockId) (workchain : WorkchainId)
    (value : Slice) (res : List BlockId) (mcout : Bool) : Option (List BlockId × Bool) :=
  let due := !workchain.msb && !mcout
  let res := if due && filter ⟨masterchainId, shardIdAll⟩ true then res ++ mcShardHash.toList else res
  match value.refs with
  | [] => none
  | root :: _ => (walkShards filter workchain [(root, shardIdAll)] res).map (·, mcout || due)

def listWorkchains (filter : ShardIdFull → Bool → Bool) (mcShardHash : Option BlockId) :
    List (WorkchainId × Slice) → List BlockId → Bool → Option (List BlockId × Bool)
  | [], res, mcout => some (res, mcout)
  | (workchain, value) :: rest, res, mcout => do
    let (res, mcout) ← listWorkchain filter mcShardHash workchain value res mcout
    listWorkchains filter mcShardHash rest res mcout

/-- `get_shard_hash_ids` with a filter. -/
def ShardConfig.getShardHashIdsBy (config : ShardConfig) (filter : ShardIdFull → Bool → Bool) : List BlockId :=
  match config.shardHashesDict with
  | none => []
  | some dict =>
    -- the masterchain is included as a shard if its seqno is positive
    let mcout := config.mcShardHash.all (·.seqno = 0)
    match listWorkchains filter config.mcShardHash dict [] mcout with
    | none => []
    | some (res, mcout) =>
      if !mcout && filter ⟨masterchainId, shardIdAll⟩ true then res ++ config.mcShardHash.toList else res

def ShardConfig.getShardHashIds (config : ShardConfig) (skipMc : Bool) : List BlockId :=
  config.getShardHashIdsBy fun shard _ => !(skipMc && shard.isMasterchain)

def ShardConfig.getNeighborShardHashIds (config : ShardConfig) (myself : ShardIdFull) : List BlockId :=
  config.getShardHashIdsBy fun shard _ => isNeighbor myself shard

end TonStaking.Source.Shard
