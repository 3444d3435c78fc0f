import Mathlib.Algebra.BigOperators.Group.Finset.Basic
import Mathlib.Logic.Relation
import TonStaking.Source.Cells.PrunedTrees

/-!
# Storage statistics

`CellStorageStat` and `NewCellStorageStat` of `crypto/vm/boc.cpp` (988-1132), over cells with levels: the
cells and data bits below a root, found by a depth-first search that stops at hashes it has seen. The
collector of the machine, `VmStorageStat`, is in `Tvm.DataSize`. No reference is null, so
that no call fails, and the counters of the cells of a memory do not overflow. A root that is given as a
slice and the statistics of proofs are left out.
-/
namespace TonStaking.Source.Cells

variable {Hash : Type} [DecidableEq Hash] (sha : Preimage Hash → Hash)

structure CellStorageStat (Hash : Type) where
  cells : Nat := 0
  bits : Nat := 0
  seen : Finset Hash := ∅

namespace CellStorageStat

mutual

/-- `add_used_storage` with a cell. -/
def addUsedStorage (killDup : Bool) (skipCountRoot : Nat) : Cell Hash → CellStorageStat Hash → CellStorageStat Hash
  | .mk content refs, stat =>
    if killDup ∧ (Cell.mk content refs).reprHash sha ∈ stat.seen then stat
    else addRefs killDup refs
      { cells := if skipCountRoot.testBit 0 then stat.cells else stat.cells + 1
        bits := if skipCountRoot.testBit 1 then stat.bits else stat.bits + content.size
        seen := if killDup then insert ((Cell.mk content refs).reprHash sha) stat.seen else stat.seen }

/-- `add_used_storage` with one cell after the other. -/
def addRefs (killDup : Bool) : List (Cell Hash) → CellStorageStat Hash → CellStorageStat Hash
  | [], stat => stat
  | ref :: refs, stat => addRefs killDup refs (addUsedStorage killDup 0 ref stat)

end

def computeUsedStorage (killDup : Bool) (skipCountRoot : Nat) (cell : Cell Hash) : CellStorageStat Hash :=
  { addUsedStorage sha killDup skipCountRoot cell {} with seen := ∅ }

end CellStorageStat

structure Stat where
  cells : Nat := 0
  bits : Nat := 0
  internalRefs : Nat := 0

/-- `operator+`. -/
instance : Add Stat where
  add a b := ⟨a.cells + b.cells, a.bits + b.bits, a.internalRefs + b.internalRefs⟩

structure NewCellStorageStat (Hash : Type) where
  seen : Finset Hash := ∅
  stat : Stat := {}

namespace NewCellStorageStat

mutual

/-- `dfs` with `need_stat` only; `parent` are the hashes that the parent object has seen. -/
def dfs (parent : Finset Hash) : Cell Hash → NewCellStorageStat Hash → NewCellStorageStat Hash
  | .mk content refs, s =>
    let hash := (Cell.mk content refs).reprHash sha
    let stat := { s.stat with internalRefs := s.stat.internalRefs + 1 }
    if hash ∈ parent ∨ hash ∈ s.seen then { s with stat }
    else dfsRefs parent refs
      { seen := insert hash s.seen
        stat := { stat with cells := stat.cells + 1, bits := stat.bits + content.size } }

def dfsRefs (parent : Finset Hash) : List (Cell Hash) → NewCellStorageStat Hash → NewCellStorageStat Hash
  | [], s => s
  | ref :: refs, s => dfsRefs parent refs (dfs parent ref s)

end

/-- `add_cell`; only a tentative object has a parent. -/
def addCell (s : NewCellStorageStat Hash) (cell : Cell Hash) : NewCellStorageStat Hash := dfs sha ∅ cell s

def tentativeAddCell (s : NewCellStorageStat Hash) (cell : Cell Hash) : Stat := (dfs sha s.seen cell {}).stat

variable {sha} {parent : Finset Hash} {base : Stat} {t : NewCellStorageStat Hash} {cell : Cell Hash}

/-- What a tentative object has collected, over what its parent has. -/
def onTop (parent : Finset Hash) (base : Stat) (t : NewCellStorageStat Hash) : NewCellStorageStat Hash :=
  ⟨parent ∪ t.seen, base + t.stat⟩

theorem dfsRefs_onTop {refs : List (Cell Hash)}
    (each : ∀ ref ∈ refs, ∀ t, dfs sha ∅ ref (onTop parent base t) = onTop parent base (dfs sha parent ref t)) :
    dfsRefs sha ∅ refs (onTop parent base t) = onTop parent base (dfsRefs sha parent refs t) := by
  induction refs generalizing t with
  | nil => rfl
  | cons ref refs ih =>
    rw [dfsRefs, each ref (by simp), ih fun next member => each next (by simp [member])]
    rfl

/-- The search of a tentative object is the search with the hashes of both. -/
theorem dfs_onTop : dfs sha ∅ cell (onTop parent base t) = onTop parent base (dfs sha parent cell t) := by
  induction cell using Cell.induction generalizing t with
  | step content refs below =>
    simp only [dfs]
    by_cases known : (Cell.mk content refs).reprHash sha ∈ parent ∨ (Cell.mk content refs).reprHash sha ∈ t.seen
    · rw [if_pos known, if_pos (by simpa [onTop] using known)]
      rfl
    · rw [if_neg known, if_neg (by simpa [onTop] using known), ← dfsRefs_onTop fun ref member t => below ref member]
      congr 1
      simp only [onTop, Finset.union_insert, NewCellStorageStat.mk.injEq, true_and]
      exact congrArg (Stat.mk _ · _) (Nat.add_assoc ..)

theorem addCell_stat (s : NewCellStorageStat Hash) (cell : Cell Hash) :
    (addCell sha s cell).stat = s.stat + tentativeAddCell sha s cell := by
  have start : onTop s.seen s.stat {} = s := by
    simp [onTop]
    rfl
  have whole : dfs sha ∅ cell (onTop s.seen s.stat {}) = _ := dfs_onTop
  rw [start] at whole
  rw [addCell, whole]
  rfl

/-- What both collectors keep; the new one also counts references. -/
def counters (s : NewCellStorageStat Hash) : CellStorageStat Hash := ⟨s.stat.cells, s.stat.bits, s.seen⟩

theorem counters_dfsRefs {refs : List (Cell Hash)} {s : NewCellStorageStat Hash} (each : ∀ ref ∈ refs, ∀ s,
      counters (dfs sha ∅ ref s) = CellStorageStat.addUsedStorage sha true 0 ref (counters s)) :
    counters (dfsRefs sha ∅ refs s) = CellStorageStat.addRefs sha true refs (counters s) := by
  induction refs generalizing s with
  | nil => rfl
  | cons ref refs ih =>
    rw [dfsRefs, CellStorageStat.addRefs, ih fun next member => each next (by simp [member]), each ref (by simp)]

theorem counters_addCell (cell : Cell Hash) (s : NewCellStorageStat Hash) :
    counters (addCell sha s cell) = CellStorageStat.addUsedStorage sha true 0 cell (counters s) := by
  induction cell using Cell.induction generalizing s with
  | step content refs below =>
    by_cases known : (Cell.mk content refs).reprHash sha ∈ s.seen
    · simp [addCell, dfs, CellStorageStat.addUsedStorage, counters, known]
    · simp only [addCell, dfs, CellStorageStat.addUsedStorage, counters, known]
      simpa [counters] using counters_dfsRefs (s := ⟨_, ⟨_, _, s.stat.internalRefs + 1⟩⟩) below

end NewCellStorageStat

namespace CellStorageStat

variable {sha} {V : Cell Hash → Prop} {stat : CellStorageStat Hash} {cell x : Cell Hash} {refs : List (Cell Hash)}

/-- The cells below a root, and the root. -/
def Reaches : Cell Hash → Cell Hash → Prop := Relation.ReflTransGen fun cell ref => ref ∈ cell.refs

/-- The totals are those of the cells in `V`, each counted once. -/
def Counts (V : Cell Hash → Prop) (stat : CellStorageStat Hash) : Prop :=
  ∃ T : Finset (Cell Hash), (∀ x, x ∈ T ↔ V x) ∧ stat.cells = T.card ∧ stat.bits = ∑ x ∈ T, x.content.size

/-- The search has visited the cells in `V`. -/
structure Visited (sha : Preimage Hash → Hash) (V : Cell Hash → Prop) (stat : CellStorageStat Hash) : Prop where
  counts : Counts V stat
  seen : ∀ key, key ∈ stat.seen ↔ ∃ x, V x ∧ x.reprHash sha = key

/-- No two of the cells have the same hash. -/
def Apart (sha : Preimage Hash → Hash) (V : Cell Hash → Prop) : Prop :=
  ∀ x y, V x → V y → x.reprHash sha = y.reprHash sha → x = y

/-- Nothing below the cell is visited without all that lies below it. -/
def Closed (V : Cell Hash → Prop) (cell : Cell Hash) : Prop := ∀ x y, Reaches cell x → V x → Reaches x y → V y

omit [DecidableEq Hash] in
theorem Apart.mono {W : Cell Hash → Prop} (apart : Apart sha W) (sub : ∀ x, V x → W x) : Apart sha V :=
  fun x y left right => apart x y (sub x left) (sub y right)

omit [DecidableEq Hash] in
theorem reaches_iff {content : Content Hash} :
    Reaches (.mk content refs) x ↔ x = .mk content refs ∨ ∃ ref ∈ refs, Reaches ref x :=
  Relation.ReflTransGen.cases_head_iff.trans (or_congr_left eq_comm)

omit [DecidableEq Hash] in
theorem Reaches.height_le (reached : Reaches cell x) : x.height ≤ cell.height := by
  induction cell using Cell.induction with
  | step content refs below =>
    rcases reaches_iff.mp reached with rfl | ⟨ref, member, deeper⟩
    · exact le_rfl
    · have less := Cell.heightRefs_le_iff.mp (le_refl (Cell.heightRefs refs)) ref member
      exact (below ref member deeper).trans (Nat.le_of_succ_le less)

theorem addRefs_visits (each : ∀ ref ∈ refs, ∀ {V stat}, Visited sha V stat → Apart sha (fun x => V x ∨ Reaches ref x) →
      Closed V ref → Visited sha (fun x => V x ∨ Reaches ref x) (addUsedStorage sha true 0 ref stat))
    (visited : Visited sha V stat) (apart : Apart sha fun x => V x ∨ ∃ ref ∈ refs, Reaches ref x)
    (closed : ∀ ref ∈ refs, Closed V ref) :
    Visited sha (fun x => V x ∨ ∃ ref ∈ refs, Reaches ref x) (addRefs sha true refs stat) := by
  induction refs generalizing V stat with
  | nil => simpa [addRefs] using visited
  | cons ref refs ih =>
    have first := each ref (by simp) visited (apart.mono fun x known => by simp; tauto) (closed ref (by simp))
    have rest := ih (fun next member => each next (by simp [member])) first (apart.mono fun x known => by simp; tauto)
      fun next member x y inside known deeper =>
        known.imp (closed next (by simp [member]) x y inside · deeper) (·.trans deeper)
    simpa [addRefs, or_assoc] using rest

/-- The search adds what lies below the cell to what it has visited. -/
theorem addUsedStorage_visits (visited : Visited sha V stat) (apart : Apart sha fun x => V x ∨ Reaches cell x)
    (closed : Closed V cell) :
    Visited sha (fun x => V x ∨ Reaches cell x) (addUsedStorage sha true 0 cell stat) := by
  induction cell using Cell.induction generalizing V stat with
  | step content refs below =>
    by_cases old : V (.mk content refs)
    · have found : (Cell.mk content refs).reprHash sha ∈ stat.seen := (visited.seen _).mpr ⟨_, old, rfl⟩
      have same : (fun x => V x ∨ Reaches (.mk content refs) x) = V :=
        funext fun x => propext (or_iff_left_of_imp fun reached => closed _ x .refl old reached)
      rw [addUsedStorage, if_pos ⟨rfl, found⟩, same]
      exact visited
    · have absent : (Cell.mk content refs).reprHash sha ∉ stat.seen := by
        intro found
        obtain ⟨x, known, same⟩ := (visited.seen _).mp found
        exact old (apart x _ (.inl known) (.inr .refl) same ▸ known)
      obtain ⟨⟨T, members, cells, bits⟩, seen⟩ := visited
      have counted : Visited sha (fun x => x = .mk content refs ∨ V x)
          ⟨stat.cells + 1, stat.bits + content.size, insert ((Cell.mk content refs).reprHash sha) stat.seen⟩ := by
        refine ⟨⟨T.cons _ (mt (members _).mp old), fun x => by simp [members], ?_, ?_⟩, fun key => by simp [seen, eq_comm]⟩
        · rw [Finset.card_cons, cells]
        · rw [Finset.sum_cons, ← bits]
          exact Nat.add_comm _ _
      have rest := addRefs_visits (fun ref member _ _ => below ref member) counted
        (apart.mono fun x known => by rw [reaches_iff]; tauto) fun ref member x y inside known deeper => by
          rcases known with rfl | known
          · have less := Cell.heightRefs_le_iff.mp inside.height_le ref member
            omega
          · exact .inr (closed x y (reaches_iff.mpr (.inr ⟨ref, member, inside⟩)) known deeper)
      rw [addUsedStorage, if_neg fun known => absent known.2]
      simpa [reaches_iff, or_assoc, or_left_comm] using rest

end CellStorageStat

end TonStaking.Source.Cells
