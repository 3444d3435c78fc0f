import TonStaking.Source.Cells.LevelMask

/-!
# Data cells

`DataCell` of `crypto/vm/cells/DataCell.cpp` and the functions of `CellBuilder.cpp` that make
special cells. The data of a special cell is kept as its fields, and the digest is a parameter:
what SHA-256 is fed is the record `Preimage`.
-/
namespace TonStaking.Source.Cells

open LevelMask

def maxLevel : Nat := 3
def maxDepth : Nat := 1024
def maxBits : Nat := 1023
def maxRefs : Nat := 4

/-- The data of a cell by its type. A pruned branch keeps a hash and a depth for each
significant level below its own. -/
inductive Content (Hash : Type) where
  | ordinary (bits : List Bool)
  | prunnedBranch (mask : LevelMask) (hashes : List Hash) (depths : List (BitVec 16))
  | library (hash : Hash)
  | merkleProof (hash : Hash) (depth : BitVec 16)
  | merkleUpdate (fromHash toHash : Hash) (fromDepth toDepth : BitVec 16)
  deriving DecidableEq

namespace Content

variable {Hash : Type}

def isSpecial : Content Hash → Bool
  | .ordinary _ => false
  | _ => true

def isPrunnedBranch : Content Hash → Bool
  | .prunnedBranch .. => true
  | _ => false

def isMerkle : Content Hash → Bool
  | .merkleProof .. | .merkleUpdate .. => true
  | _ => false

def size : Content Hash → Nat
  | .ordinary bits => bits.length
  | .prunnedBranch _ hashes depths => 16 + 256 * hashes.length + 16 * depths.length
  | .library _ => 8 + 256
  | .merkleProof .. => 8 + (256 + 16)
  | .merkleUpdate .. => 8 + (256 + 16) * 2

/-- `child_merkle_depth`; also the level at which a Merkle cell asks its references. -/
def childMerkleDepth (content : Content Hash) (depth : Nat) : Nat :=
  if content.isMerkle then depth + 1 else depth

end Content

/-- What the hasher is fed for one level of a cell: the two descriptor bytes, the data or the
hash of the level before, and the depths and hashes of the references. -/
inductive Body (Hash : Type) where
  | data (content : Content Hash)
  | previous (hash : Hash)

structure Preimage (Hash : Type) where
  d1 : Nat
  d2 : Nat
  body : Body Hash
  depths : List Nat
  hashes : List Hash

/-- What a cell tells the cells that refer to it: `get_level_mask`, `get_hash`, `get_depth`. -/
structure Info (Hash : Type) where
  mask : LevelMask
  hash : Nat → Hash
  depth : Nat → Nat

/-- `load_depth` keeps the low byte of the stored two. -/
def loadDepth (stored : BitVec 16) : Nat := (stored &&& 0xff#16).toNat

section

variable {Hash : Type} (sha : Preimage Hash → Hash)

namespace Content

variable (content : Content Hash) (refs : List (Info Hash))

def unionMask : LevelMask := refs.foldr (fun ref mask => ref.mask ||| mask) 0

def levelMask : LevelMask :=
  match content with
  | .ordinary _ => unionMask refs
  | .prunnedBranch mask _ _ => mask
  | .library _ => 0
  | .merkleProof .. | .merkleUpdate .. => unionMask refs >>> 1

/-- The depths and the hashes of the references for the hash of a level. -/
def childDepths (level : Nat) : List Nat :=
  refs.map fun ref => ref.depth (content.childMerkleDepth level)

def childHashes (level : Nat) : List Hash :=
  refs.map fun ref => ref.hash (content.childMerkleDepth level)

def calcDepth (level : Nat) : Nat :=
  if refs.isEmpty then 0 else (content.childDepths refs level).foldr max 0 + 1

def preimage (level : Nat) (body : Body Hash) : Preimage Hash where
  d1 := refs.length + 8 * content.isSpecial.toNat + 32 * apply (content.levelMask refs) level
  d2 := content.size / 8 * 2 + (if content.size % 8 = 0 then 0 else 1)
  body := body
  depths := content.childDepths refs level
  hashes := content.childHashes refs level

/-- The hashes of `create` by level: an insignificant level repeats the one below. -/
def hashAt : Nat → Hash
  | 0 => sha (content.preimage refs 0 (.data content))
  | level + 1 =>
    if (content.levelMask refs).testBit level then
      sha (content.preimage refs (level + 1) (.previous (hashAt level)))
    else hashAt level

def depthAt : Nat → Nat
  | 0 => content.calcDepth refs 0
  | level + 1 =>
    if (content.levelMask refs).testBit level then content.calcDepth refs (level + 1)
    else depthAt level

/-- The one hash that `create` computes for a pruned branch. -/
def prunnedHash (mask : LevelMask) : Hash :=
  sha (content.preimage refs (getLevel mask) (.data content))

/-- `get_level_mask`, `do_get_hash` and `do_get_depth` of a cell with these references. -/
def info : Info Hash :=
  match content with
  | .prunnedBranch mask hashes depths =>
    { mask := mask
      hash := fun level =>
        if getHashI (apply mask level) = getHashI mask then content.prunnedHash sha refs mask
        else (hashes[getHashI (apply mask level)]?).getD (content.prunnedHash sha refs mask)
      depth := fun level =>
        if getHashI (apply mask level) = getHashI mask then content.calcDepth refs (getLevel mask)
        else (depths[getHashI (apply mask level)]?).elim 0 loadDepth }
  | _ =>
    { mask := content.levelMask refs
      hash := content.hashAt sha refs
      depth := content.depthAt refs }

end Content

/-- A tree of data cells. -/
inductive Cell (Hash : Type) where
  | mk (content : Content Hash) (refs : List (Cell Hash))

namespace Cell

def content : Cell Hash → Content Hash
  | .mk content _ => content

def refs : Cell Hash → List (Cell Hash)
  | .mk _ refs => refs

@[simp] theorem content_mk (content : Content Hash) (refs : List (Cell Hash)) :
    (Cell.mk content refs).content = content := rfl

@[simp] theorem refs_mk (content : Content Hash) (refs : List (Cell Hash)) : (Cell.mk content refs).refs = refs := rfl

theorem induction {P : Cell Hash → Prop}
    (step : ∀ content refs, (∀ ref ∈ refs, P ref) → P (.mk content refs)) (cell : Cell Hash) : P cell :=
  @Cell.rec Hash P (fun refs => ∀ ref ∈ refs, P ref)
    (fun content refs below => step content refs below)
    (fun _ impossible => absurd impossible List.not_mem_nil)
    (fun _ _ first rest ref member => by
      cases member with
      | head => exact first
      | tail _ later => exact rest ref later)
    cell

mutual

/-- The mask, hashes and depths that `create` stores in a cell. -/
def info : Cell Hash → Info Hash
  | .mk content refs => content.info sha (infos refs)

def infos : List (Cell Hash) → List (Info Hash)
  | [] => []
  | ref :: refs => info ref :: infos refs

end

@[simp] theorem infos_eq_map (refs : List (Cell Hash)) : infos sha refs = refs.map (info sha) := by
  induction refs with
  | nil => rfl
  | cons ref refs ih => rw [infos, ih, List.map_cons]

theorem info_mk (content : Content Hash) (refs : List (Cell Hash)) :
    info sha (.mk content refs) = content.info sha (refs.map (info sha)) := by
  rw [info, infos_eq_map]

/-- `get_level_mask`. -/
def mask (cell : Cell Hash) : LevelMask := (cell.info sha).mask

def level (cell : Cell Hash) : Nat := getLevel (cell.mask sha)

/-- `get_hash(level)`. -/
def hash (cell : Cell Hash) (level : Nat) : Hash := (cell.info sha).hash level

/-- `get_hash()`. -/
def reprHash (cell : Cell Hash) : Hash := cell.hash sha maxLevel

def depth (cell : Cell Hash) (level : Nat) : Nat := (cell.info sha).depth level

end Cell

/-- An error of `create` with its text. -/
def check (condition : Prop) [Decidable condition] (message : String) : Except String Unit :=
  if condition then .ok () else .error message

section

variable [DecidableEq Hash]

namespace Content

variable (content : Content Hash) (refs : List (Info Hash))

def checkType : Except String Unit :=
  match content with
  | .ordinary _ | .library _ => .ok ()
  | .prunnedBranch mask hashes depths => do
    check (refs.isEmpty = true) "PrunnedBranch special cell has a cell reference"
    check (getLevel mask ≤ maxLevel ∧ getLevel mask ≠ 0) "Prunned Branch has an invalid level"
    check (hashes.length = getHashesCount (apply mask (getLevel mask - 1)) ∧
        depths.length = getHashesCount (apply mask (getLevel mask - 1)))
      "Not enouch data for a PrunnedBranch special cell"
  | .merkleProof hash depth =>
    match refs with
    | [ref] => do
      check (hash = ref.hash 0) "Hash mismatch in a MerkleProof special cell"
      check (depth.toNat = ref.depth 0) "Depth mismatch in a MerkleProof special cell"
    | _ => .error "Wrong references count for a MerkleProof special cell"
  | .merkleUpdate fromHash toHash fromDepth toDepth =>
    match refs with
    | [first, second] => do
      check (fromHash = first.hash 0) "First hash mismatch in a MerkleProof special cell"
      check (toHash = second.hash 0) "Second hash mismatch in a MerkleProof special cell"
      check (fromDepth.toNat = first.depth 0) "First depth mismatch in a MerkleProof special cell"
      check (toDepth.toNat = second.depth 0) "Second depth mismatch in a MerkleProof special cell"
    | _ => .error "Wrong references count for a MerkleUpdate special cell"

/-- The limit on depths, at each level whose depth is computed. -/
def depthsFit : Prop :=
  ∀ level ∈ significantLevels (content.levelMask refs), ∀ depth ∈ content.childDepths refs level, depth < maxDepth

instance : Decidable (content.depthsFit refs) :=
  List.decidableBAll ..

def checkCell : Except String Unit := do
  content.checkType refs
  check (content.size ≤ maxBits) "Too many bits"
  check (refs.length ≤ maxRefs) "Too many cell references"
  check (content.depthsFit refs) "Depth is too big"

end Content

def create (content : Content Hash) (refs : List (Cell Hash)) : Except String (Cell Hash) := do
  content.checkCell (refs.map (Cell.info sha))
  pure (.mk content refs)

end

end

end TonStaking.Source.Cells
