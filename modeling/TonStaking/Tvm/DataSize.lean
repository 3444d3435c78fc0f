import TonStaking.Tvm.Slice

/-!
# Data sizes

`CDATASIZE` and `SDATASIZE` of `crypto/vm/tonops.cpp` (400-467): the bits and references of the different
cells of a tree, up to a limit on their number. `VmStorageStat` knows the cells that it has visited by
their hashes; here the cells themselves are compared.
-/
namespace Tvm

mutual
def sameCell : Cell → Cell → Bool
  | .mk bits refs, .mk bits' refs' => bits == bits' && sameCells refs refs'

def sameCells : List Cell → List Cell → Bool
  | [], [] => true
  | c :: refs, c' :: refs' => sameCell c c' && sameCells refs refs'
  | _, _ => false
end

structure VmStorageStat where
  seen : List Cell
  bits : Nat
  refs : Nat

namespace VmStorageStat

mutual
/-- `add_storage` with a cell; `none`: more than `limit` different cells. -/
def addStorage (limit : Nat) : Cell → VmStorageStat → Option VmStorageStat
  | .mk bits refs, stat =>
    if stat.seen.any (sameCell (.mk bits refs)) then some stat
    else if limit ≤ stat.seen.length then none
    else addRefs limit refs
      { seen := .mk bits refs :: stat.seen, bits := stat.bits + bits.length, refs := stat.refs + refs.length }

def addRefs (limit : Nat) : List Cell → VmStorageStat → Option VmStorageStat
  | [], stat => some stat
  | c :: refs, stat =>
    match addStorage limit c stat with
    | none => none
    | some stat => addRefs limit refs stat
end

/-- The bits and references, or the exception of `exec_compute_data_size`. -/
def answer : Option VmStorageStat → Outcome (Nat × Nat)
  | none => .error .cellOv
  | some stat => .ok (stat.bits, stat.refs)

end VmStorageStat

/-- `CDATASIZE`, of a cell or of a null. -/
def computeDataSize (limit : Nat) : Option Cell → Outcome (Nat × Nat)
  | none => .ok (0, 0)
  | some c => VmStorageStat.answer (VmStorageStat.addStorage limit c ⟨[], 0, 0⟩)

/-- `SDATASIZE`. -/
def sliceComputeDataSize (limit : Nat) (cs : Slice) : Outcome (Nat × Nat) :=
  VmStorageStat.answer (VmStorageStat.addRefs limit cs.refs ⟨[], cs.bits.length, cs.refs.length⟩)

end Tvm
