import TonStaking.Source.Cells.DataCell

/-!
# Merkle proofs

`MerkleProof` of `crypto/vm/cells/MerkleProof.cpp`, the pruned branches and Merkle cells of
`CellBuilder.cpp`, and the reading of virtualized cells (`VirtualCell.h`, `CellSlice.h`).
`child_merkle_depth` stops counting at 255; levels end at 3, and the cap is left out.
-/
namespace TonStaking.Source.Cells

open LevelMask

/-- How a call ends without a cell. -/
inductive Failure where
  /-- An empty `Ref` is returned. -/
  | null
  /-- `CellWriteError` is thrown. -/
  | cellWrite
  /-- A `CHECK` fails. -/
  | abort
  /-- The recursion of the model is used up. -/
  | exhausted
  deriving DecidableEq

section

variable {Hash : Type} [DecidableEq Hash] (sha : Preimage Hash → Hash)

/-- `CellBuilder::finalize`. -/
def finalize (content : Content Hash) (refs : List (Cell Hash)) : Except Failure (Cell Hash) :=
  match create sha content refs with
  | .ok cell => .ok cell
  | .error _ => .error .cellWrite

/-- `do_create_pruned_branch`: the hashes and depths of the significant levels up to `virtLevel`. -/
def doCreatePrunedBranch (cell : Cell Hash) (newLevel virtLevel : Nat) : Except Failure (Cell Hash) :=
  let mask := apply (cell.mask sha) virtLevel
  if newLevel < getLevel mask + 1 then .error .cellWrite
  else
    finalize sha
      (.prunnedBranch (mask ||| oneLevel newLevel) ((significantLevels mask).map (cell.hash sha))
        ((significantLevels mask).map fun level => BitVec.ofNat 16 (cell.depth sha level)))
      []

/-- `create_pruned_branch`: a cell without references is smaller than its pruned branch. -/
def createPrunedBranch (cell : Cell Hash) (newLevel virtLevel : Nat) : Except Failure (Cell Hash) :=
  if cell.level sha ≤ virtLevel ∧ cell.refs.isEmpty = true then .ok cell
  else doCreatePrunedBranch sha cell newLevel virtLevel

def createMerkleProof (proof : Cell Hash) : Except Failure (Cell Hash) :=
  finalize sha (.merkleProof (proof.hash sha 0) (BitVec.ofNat 16 (proof.depth sha 0))) [proof]

/-- Results kept under a hash and a Merkle depth. -/
abbrev Memo (Hash : Type) := Hash × Nat → Option (Cell Hash)

def Memo.emplace (cells : Memo Hash) (key : Hash × Nat) (cell : Cell Hash) : Memo Hash :=
  Function.update cells key (some cell)

/-! ### Generation -/

mutual

/-- `MerkleProofImpl::dfs`. -/
def dfs (isPrunned : Cell Hash → Bool) : Cell Hash → Nat → Memo Hash → Except Failure (Cell Hash × Memo Hash)
  | .mk content refs, merkleDepth, cells =>
    match cells ((Cell.mk content refs).reprHash sha, merkleDepth) with
    | some known => .ok (known, cells)
    | none =>
      if isPrunned (.mk content refs) then do
        let res ← createPrunedBranch sha (.mk content refs) (merkleDepth + 1) maxLevel
        pure (res, cells.emplace ((Cell.mk content refs).reprHash sha, merkleDepth) res)
      else do
        let (children, cells) ← dfsRefs isPrunned refs (content.childMerkleDepth merkleDepth) cells
        let res ← finalize sha content children
        pure (res, cells.emplace ((Cell.mk content refs).reprHash sha, merkleDepth) res)

def dfsRefs (isPrunned : Cell Hash → Bool) :
    List (Cell Hash) → Nat → Memo Hash → Except Failure (List (Cell Hash) × Memo Hash)
  | [], _, cells => .ok ([], cells)
  | ref :: refs, merkleDepth, cells => do
    let (child, cells) ← dfs isPrunned ref merkleDepth cells
    let (children, cells) ← dfsRefs isPrunned refs merkleDepth cells
    pure (child :: children, cells)

end

def generateRaw (cell : Cell Hash) (isPrunned : Cell Hash → Bool) : Except Failure (Cell Hash) := do
  let (res, _) ← dfs sha isPrunned cell (cell.level sha) fun _ => none
  pure res

def generate (cell : Cell Hash) (isPrunned : Cell Hash → Bool) : Except Failure (Cell Hash) := do
  if cell.level sha ≠ 0 then .error .null
  let raw ← generateRaw sha cell isPrunned
  createMerkleProof sha raw

/-! ### Virtualized cells -/

/-- A cell, or a `VirtualCell` that hides the levels above one. -/
structure VirtualCell (Hash : Type) where
  cell : Cell Hash
  level : Option Nat

/-- `Cell::virtualize`. -/
def virtualize (level : Nat) (cell : Cell Hash) : VirtualCell Hash :=
  if cell.level sha ≤ level then ⟨cell, none⟩ else ⟨cell, some level⟩

namespace VirtualCell

def getLevelMask (virt : VirtualCell Hash) : LevelMask :=
  match virt.level with
  | none => virt.cell.mask sha
  | some level => apply (virt.cell.mask sha) level

def fixLevel (virt : VirtualCell Hash) (level : Nat) : Nat :=
  match virt.level with
  | none => level
  | some _ => getLevel (apply (virt.getLevelMask sha) level)

def getHash (virt : VirtualCell Hash) (level : Nat) : Hash := virt.cell.hash sha (virt.fixLevel sha level)

def getDepth (virt : VirtualCell Hash) (level : Nat) : Nat := virt.cell.depth sha (virt.fixLevel sha level)

/-- The data and the references of a cell slice. A virtualized pruned branch is not loaded. -/
def load (virt : VirtualCell Hash) : Option (Content Hash × List (VirtualCell Hash)) :=
  match virt.level with
  | none => some (virt.cell.content, virt.cell.refs.map fun ref => ⟨ref, none⟩)
  | some level =>
    if virt.cell.content.isPrunnedBranch then none
    else
      some (virt.cell.content, virt.cell.refs.map (virtualize sha (virt.cell.content.childMerkleDepth level)))

/-- The cell that a path of reference numbers leads to. -/
def follow : List Nat → VirtualCell Hash → Option (VirtualCell Hash)
  | [], virt => some virt
  | i :: path, virt => do
    let (_, refs) ← virt.load sha
    let ref ← refs[i]?
    follow path ref

end VirtualCell

def unpackProof (cell : Cell Hash) : Except Failure (Cell Hash) :=
  if cell.level sha ≠ 0 then .error .null
  else
    match cell.content, cell.refs with
    | .merkleProof .., ref :: _ => .ok ref
    | _, _ => .error .null

/-- `MerkleProof::virtualize`. -/
def virtualizeProof (cell : Cell Hash) : Except Failure (VirtualCell Hash) := do
  let raw ← unpackProof sha cell
  pure (virtualize sha 0 raw)

/-! ### `combine_fast` -/

mutual

/-- `MerkleProofCombineFast::merge`. -/
def merge : Cell Hash → Cell Hash → Nat → Except Failure (Cell Hash)
  | .mk content refs, b, merkleDepth =>
    if (Cell.mk content refs).reprHash sha = b.reprHash sha then .ok (.mk content refs)
    else if (Cell.mk content refs).level sha = merkleDepth then .ok (.mk content refs)
    else if b.level sha = merkleDepth then .ok b
    else if content.isPrunnedBranch then .ok b
    else if b.content.isPrunnedBranch then .ok (.mk content refs)
    else if refs.isEmpty then .error .abort
    else do
      let children ← mergeRefs refs b.refs (content.childMerkleDepth merkleDepth)
      finalize sha content children

/-- The loop over the references of the first cell; a missing one of the second is a null pointer. -/
def mergeRefs : List (Cell Hash) → List (Cell Hash) → Nat → Except Failure (List (Cell Hash))
  | [], _, _ => .ok []
  | _ :: _, [], _ => .error .abort
  | a :: refs, b :: others, merkleDepth => do
    let child ← merge a b merkleDepth
    let children ← mergeRefs refs others merkleDepth
    pure (child :: children)

end

def combineFast (a b : Cell Hash) : Except Failure (Cell Hash) := do
  let a ← unpackProof sha a
  let b ← unpackProof sha b
  if a.hash sha 0 ≠ b.hash sha 0 then .error .null
  let res ← merge sha a b 0
  createMerkleProof sha res

/-! ### `combine` -/

/-- `MerkleProofCombine::Info`, with the array of pruned cells as a function of the index. -/
structure KnownCell (Hash : Type) where
  cell : Option (Cell Hash)
  prunnedCells : Nat → Option (Cell Hash)

namespace KnownCell

def getPrunnedCell (info : KnownCell Hash) (depth : Nat) : Option (Cell Hash) :=
  if depth < maxLevel then info.prunnedCells depth else none

/-- `get_any_cell`; nothing is found only where the source is `UNREACHABLE`. -/
def getAnyCell (info : KnownCell Hash) : Option (Cell Hash) :=
  info.cell <|> info.getPrunnedCell 0 <|> info.getPrunnedCell 1 <|> info.getPrunnedCell 2

end KnownCell

/-- `cells_` and `visited_`. -/
structure Collected (Hash : Type) where
  cells : Hash → KnownCell Hash
  visited : Hash × Nat → Bool

namespace Collected

def empty : Collected Hash where
  cells _ := ⟨none, fun _ => none⟩
  visited _ := false

def visit (known : Collected Hash) (key : Hash × Nat) : Collected Hash :=
  { known with visited := Function.update known.visited key true }

def storeCell (known : Collected Hash) (hash : Hash) (cell : Cell Hash) : Collected Hash :=
  { known with cells := Function.update known.cells hash { known.cells hash with cell := some cell } }

def storePrunned (known : Collected Hash) (hash : Hash) (index : Nat) (cell : Cell Hash) : Collected Hash :=
  { known with
    cells := Function.update known.cells hash
      { known.cells hash with prunnedCells := Function.update (known.cells hash).prunnedCells index (some cell) } }

end Collected

/-- A pruned branch that is bounded at this Merkle depth. -/
def isBounded (cell : Cell Hash) (merkleDepth : Nat) : Bool :=
  cell.content.isPrunnedBranch && decide (merkleDepth < cell.level sha)

mutual

/-- `MerkleProofCombine::dfs`. -/
def collect : Cell Hash → Nat → Collected Hash → Collected Hash
  | .mk content refs, merkleDepth, known =>
    if known.visited ((Cell.mk content refs).reprHash sha, merkleDepth) then known
    else if isBounded sha (.mk content refs) merkleDepth then
      (known.visit ((Cell.mk content refs).reprHash sha, merkleDepth)).storePrunned
        ((Cell.mk content refs).hash sha merkleDepth)
        ((Cell.mk content refs).level sha - 1) (.mk content refs)
    else
      collectRefs refs (content.childMerkleDepth merkleDepth)
        ((known.visit ((Cell.mk content refs).reprHash sha, merkleDepth)).storeCell
          ((Cell.mk content refs).hash sha merkleDepth) (.mk content refs))

def collectRefs : List (Cell Hash) → Nat → Collected Hash → Collected Hash
  | [], _, known => known
  | ref :: refs, merkleDepth, known => collectRefs refs merkleDepth (collect ref merkleDepth known)

end

/-- One call after another with the results kept. -/
def createRefs (call : Cell Hash → Memo Hash → Except Failure (Cell Hash × Memo Hash)) :
    List (Cell Hash) → Memo Hash → Except Failure (List (Cell Hash) × Memo Hash)
  | [], results => .ok ([], results)
  | ref :: refs, results => do
    let (child, results) ← call ref results
    let (children, results) ← createRefs call refs results
    pure (child :: children, results)

/-- The pruned branch that `do_create_A` uses for a cell nobody has. -/
def createPrunned (info : KnownCell Hash) (merkleDepth aMerkleDepth : Nat) : Except Failure (Cell Hash) :=
  match info.getPrunnedCell aMerkleDepth with
  | some cell => .ok cell
  | none =>
    match info.getAnyCell with
    | none => .error .abort
    | some any => createPrunedBranch sha any (aMerkleDepth + 1) merkleDepth

/-- `create_A` and `do_create_A`. The recursion follows the collected cells; it is bounded here
by the number of levels that cells can have. -/
def createA (cells : Hash → KnownCell Hash) :
    Nat → Nat → Nat → Cell Hash → Memo Hash → Except Failure (Cell Hash × Memo Hash)
  | 0, _, _, _, _ => .error .exhausted
  | fuel + 1, merkleDepth, aMerkleDepth, cell, results =>
    let merkleDepth := getLevel (apply (cell.mask sha) merkleDepth)
    match results (cell.hash sha merkleDepth, aMerkleDepth) with
    | some known => .ok (known, results)
    | none =>
      match (cells (cell.hash sha merkleDepth)).cell with
      | none => do
        let res ← createPrunned sha (cells (cell.hash sha merkleDepth)) merkleDepth aMerkleDepth
        pure (res, results.emplace (cell.hash sha merkleDepth, aMerkleDepth) res)
      | some known =>
        if known.refs.isEmpty then
          .ok (known, results.emplace (cell.hash sha merkleDepth, aMerkleDepth) known)
        else do
          let (children, results) ←
            createRefs
              (createA cells fuel (known.content.childMerkleDepth merkleDepth)
                (known.content.childMerkleDepth aMerkleDepth))
              known.refs results
          let res ← finalize sha known.content children
          pure (res, results.emplace (cell.hash sha merkleDepth, aMerkleDepth) res)

def combine (a b : Cell Hash) : Except Failure (Cell Hash) := do
  let a ← unpackProof sha a
  let b ← unpackProof sha b
  if a.hash sha 0 ≠ b.hash sha 0 then .error .null
  let known := collect sha b 0 (collect sha a 0 .empty)
  let (res, _) ← createA sha known.cells (maxDepth + 1) 0 0 a fun _ => none
  createMerkleProof sha res

end

end TonStaking.Source.Cells
