import TonStaking.Source.Cells.CutTrees

/-!
# Reading pruned trees

What can be loaded from a virtualized tree: every cell but the pruned branches that are bounded
at their Merkle depth, each under the hash of the cell it stands for.
-/
namespace TonStaking.Source.Cells

open LevelMask VirtualCell

section

variable {Hash : Type} (sha : Preimage Hash → Hash)

/-- The cell that a path of reference numbers leads to in a tree. -/
def Cell.follow : List Nat → Cell Hash → Option (Cell Hash)
  | [], cell => some cell
  | i :: path, cell => do
    let ref ← cell.refs[i]?
    ref.follow path

/-- Every cell on a path is kept, up to the last one. -/
def Cell.visible (keep : Cell Hash → Bool) : List Nat → Cell Hash → Bool
  | [], cell => keep cell
  | i :: path, cell => keep cell && (cell.refs[i]?).any fun ref => ref.visible keep path

/-- A cell with this hash can be loaded on some path. -/
def VirtualCell.Reads (virt : VirtualCell Hash) (hash : Hash) : Prop :=
  ∃ path last, virt.follow sha path = some last ∧ (last.load sha).isSome = true ∧ last.getHash sha maxLevel = hash

mutual

/-- The hashes of the cells that a tree shows at a Merkle depth. -/
def readables : Nat → Cell Hash → List Hash
  | depth, .mk content refs =>
    if isBounded sha (.mk content refs) depth then []
    else (Cell.mk content refs).hash sha depth :: readablesRefs (content.childMerkleDepth depth) refs

def readablesRefs : Nat → List (Cell Hash) → List Hash
  | _, [] => []
  | depth, ref :: refs => readables depth ref ++ readablesRefs depth refs

end

/-- The tree shows a cell with this hash at a place, given by the reference numbers on the way. -/
def ShownAt : List Nat → Cell Hash → Nat → Hash → Prop
  | [], cell, depth, hash => isBounded sha cell depth = false ∧ hash = cell.hash sha depth
  | i :: path, cell, depth, hash => isBounded sha cell depth = false ∧
      ∃ ref, cell.refs[i]? = some ref ∧ ShownAt path ref (cell.content.childMerkleDepth depth) hash

section

variable {sha}
variable {depth : Nat} {refs : List (Cell Hash)} {hash : Hash} {cell : Cell Hash}

theorem mem_readablesRefs : hash ∈ readablesRefs sha depth refs ↔ ∃ ref ∈ refs, hash ∈ readables sha depth ref := by
  induction refs with
  | nil => simp [readablesRefs]
  | cons ref refs ih => simp [readablesRefs, ih]

theorem readables_bounded (bounded : isBounded sha cell depth = true) : readables sha depth cell = [] := by
  cases cell with
  | mk content refs => rw [readables, if_pos bounded]

theorem mem_readables {content : Content Hash} (open' : isBounded sha (.mk content refs) depth = false) :
    hash ∈ readables sha depth (.mk content refs) ↔ hash = (Cell.mk content refs).hash sha depth ∨
      ∃ ref ∈ refs, hash ∈ readables sha (content.childMerkleDepth depth) ref := by
  rw [readables, if_neg (by simp [open']), List.mem_cons, mem_readablesRefs]

theorem mem_readables_iff_shownAt : hash ∈ readables sha depth cell ↔ ∃ path, ShownAt sha path cell depth hash := by
  induction cell using Cell.induction generalizing depth with
  | step content refs ih =>
    cases bounded : isBounded sha (.mk content refs) depth with
    | true =>
      rw [readables_bounded bounded]
      refine ⟨nofun, fun ⟨path, shown⟩ => ?_⟩
      cases path <;> simp [ShownAt, bounded] at shown
    | false =>
      rw [mem_readables bounded]
      constructor
      · rintro (same | ⟨ref, member, deeper⟩)
        · exact ⟨[], bounded, same⟩
        · obtain ⟨path, shown⟩ := (ih ref member).mp deeper
          obtain ⟨i, found⟩ := List.mem_iff_getElem?.mp member
          exact ⟨i :: path, bounded, ref, found, shown⟩
      · rintro ⟨_ | ⟨i, path⟩, shown⟩
        · exact .inl shown.2
        · obtain ⟨-, ref, found, shown⟩ := shown
          have member := List.mem_of_getElem? found
          exact .inr ⟨ref, member, (ih ref member).mpr ⟨path, shown⟩⟩

theorem not_shownAt_of_bounded (bounded : isBounded sha cell depth = true) (path : List Nat) :
    ¬ ShownAt sha path cell depth hash := by
  cases path <;> simp [ShownAt, bounded]

theorem virtualize_of_le (low : cell.level sha ≤ depth) : virtualize sha depth cell = ⟨cell, none⟩ :=
  if_pos low

theorem getHash_virtualize_zero (cell : Cell Hash) :
    (virtualize sha 0 cell).getHash sha 0 = cell.hash sha 0 ∧
      (virtualize sha 0 cell).getDepth sha 0 = cell.depth sha 0 := by
  unfold virtualize
  split
  · exact ⟨rfl, rfl⟩
  simp only [getHash, getDepth, fixLevel, getLevelMask]
  have none : apply (apply (cell.mask sha) 0) 0 = 0 := by simp [apply, Nat.mod_one]
  rw [none]
  exact ⟨rfl, rfl⟩

variable [DecidableEq Hash]

/-- Loading follows the Merkle depth, whether or not the cell had to be virtualized. -/
theorem load_of_created {content : Content Hash} (created : Cell.Created sha (.mk content refs))
    (flat : ∀ hash, content = .library hash → ∀ ref ∈ refs, ref.mask sha = 0) (depth : Nat) :
    (virtualize sha depth (.mk content refs)).load sha =
      if isBounded sha (.mk content refs) depth then none
      else some (content, refs.map (virtualize sha (content.childMerkleDepth depth))) := by
  by_cases low : (Cell.mk content refs).level sha ≤ depth
  · rw [virtualize_of_le low, isBounded, if_neg (by simp [low])]
    refine congrArg (fun below => some (content, below)) (List.map_congr_left ?_)
    intro ref member
    exact (virtualize_of_le (created.level_ref_le flat low member)).symm
  · rw [virtualize, if_neg low, isBounded, decide_eq_true (not_le.mp low), Bool.and_true]
    rfl

variable (valid : Cell.Valid sha cell)
include valid

theorem load_virtualize (depth : Nat) :
    (virtualize sha depth cell).load sha =
      if isBounded sha cell depth then none
      else some (cell.content, cell.refs.map (virtualize sha (cell.content.childMerkleDepth depth))) := by
  cases cell with
  | mk content refs => exact load_of_created valid.created valid.library depth

theorem getHash_virtualize (depth : Nat) :
    (virtualize sha depth cell).getHash sha maxLevel = cell.hash sha depth ∧
      (virtualize sha depth cell).getDepth sha maxLevel = cell.depth sha depth := by
  have top := Cell.hash_of_level_le (le_refl (cell.level sha)) valid.level_le
  unfold virtualize
  by_cases low : cell.level sha ≤ depth
  · have same := Cell.hash_of_level_le (le_refl (cell.level sha)) low
    rw [if_pos low]
    exact ⟨top.1.trans same.1.symm, top.2.trans same.2.symm⟩
  · have deep : depth ≤ maxLevel := le_trans (le_of_lt (not_le.mp low)) valid.level_le
    rw [if_neg low]
    simp only [getHash, getDepth, fixLevel, getLevelMask]
    rw [apply_of_getLevel_le (le_trans (getLevel_apply_le (cell.mask sha) depth) deep)]
    exact Cell.hash_getLevel_apply sha cell depth

theorem follow_virtualize (depth i : Nat) (path : List Nat) :
    (virtualize sha depth cell).follow sha (i :: path) =
      if isBounded sha cell depth then none
      else (cell.refs[i]?).bind fun ref =>
        (virtualize sha (cell.content.childMerkleDepth depth) ref).follow sha path := by
  rw [follow, load_virtualize valid]
  split
  · rfl
  · simp only [Option.bind_eq_bind, Option.bind_some, List.getElem?_map, Option.bind_map]
    rfl

/-- The cells that can be read from a virtualized tree are those that the tree shows. -/
theorem reads_virtualize : (virtualize sha depth cell).Reads sha hash ↔ hash ∈ readables sha depth cell := by
  induction cell using Cell.induction generalizing depth with
  | step content refs ih =>
    cases bounded : isBounded sha (.mk content refs) depth with
    | true =>
      rw [readables_bounded bounded]
      constructor
      · rintro ⟨path, last, followed, loaded, -⟩
        cases path with
        | nil =>
          cases followed
          simp [load_virtualize valid, bounded] at loaded
        | cons i path => simp [follow_virtualize valid, bounded] at followed
      · nofun
    | false =>
      rw [mem_readables bounded]
      constructor
      · rintro ⟨path, last, followed, loaded, rfl⟩
        cases path with
        | nil =>
          cases followed
          exact .inl (getHash_virtualize valid depth).1
        | cons i path =>
          rw [follow_virtualize valid, bounded, if_neg (by simp), Option.bind_eq_some_iff] at followed
          obtain ⟨ref, found, rest⟩ := followed
          have member := List.mem_of_getElem? found
          exact .inr ⟨ref, member, (ih ref member (valid.valid_ref ref member)).mp ⟨path, last, rest, loaded, rfl⟩⟩
      · rintro (rfl | ⟨ref, member, inside⟩)
        · refine ⟨[], _, rfl, ?_, (getHash_virtualize valid depth).1⟩
          simp [load_virtualize valid, bounded]
        · obtain ⟨path, last, rest, loaded, same⟩ := (ih ref member (valid.valid_ref ref member)).mpr inside
          obtain ⟨i, bound, found⟩ := List.mem_iff_getElem.mp member
          refine ⟨i :: path, last, ?_, loaded, same⟩
          rw [follow_virtualize valid, bounded, if_neg (by simp), Option.bind_eq_some_iff]
          exact ⟨ref, List.getElem?_eq_some_iff.mpr ⟨bound, found⟩, rest⟩

end

end

end TonStaking.Source.Cells
