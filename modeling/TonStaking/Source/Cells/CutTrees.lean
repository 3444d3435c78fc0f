import TonStaking.Source.Cells.PrunedTrees
import TonStaking.Source.Cells.Rebuilding

/-!
# Trees cut by a choice of cells

The tree in which every cell that is not kept is replaced by its pruned branch. `generate` builds
this tree with its results kept by hash; it succeeds exactly if every cell of it can be made.
-/
namespace TonStaking.Source.Cells

open LevelMask

section

variable {Hash : Type} [DecidableEq Hash] (sha : Preimage Hash → Hash)

section

variable (keep : Cell Hash → Bool)

mutual

def cutTree : Nat → Cell Hash → Cell Hash
  | depth, .mk content refs =>
    if keep (.mk content refs) then .mk content (cutRefs (content.childMerkleDepth depth) refs)
    else prunedBranch sha (.mk content refs) depth

def cutRefs : Nat → List (Cell Hash) → List (Cell Hash)
  | _, [] => []
  | depth, ref :: refs => cutTree depth ref :: cutRefs depth refs

end

mutual

/-- A property of each cell that is cut, at its Merkle depth. -/
def EveryCut (property : Nat → Cell Hash → Prop) : Nat → Cell Hash → Prop
  | depth, .mk content refs =>
    if keep (.mk content refs) then EveryCutRefs property (content.childMerkleDepth depth) refs
    else property depth (.mk content refs)

def EveryCutRefs (property : Nat → Cell Hash → Prop) : Nat → List (Cell Hash) → Prop
  | _, [] => True
  | depth, ref :: refs => EveryCut property depth ref ∧ EveryCutRefs property depth refs

end

/-- Nothing of a tree is cut. -/
inductive Whole : Cell Hash → Prop
  | mk {content : Content Hash} {refs : List (Cell Hash)} (kept : keep (.mk content refs) = true)
      (below : ∀ ref ∈ refs, Whole ref) : Whole (.mk content refs)

/-- Nothing is cut below the library cells that are kept. -/
inductive LibrariesWhole : Cell Hash → Prop
  | cut {cell : Cell Hash} (cut : keep cell = false) : LibrariesWhole cell
  | kept {content : Content Hash} {refs : List (Cell Hash)} (kept : keep (.mk content refs) = true)
      (library : ∀ hash, content = .library hash → ∀ ref ∈ refs, Whole keep ref)
      (below : ∀ ref ∈ refs, LibrariesWhole ref) : LibrariesWhole (.mk content refs)

end

section

variable {keep : Cell Hash → Bool}
variable {property : Nat → Cell Hash → Prop} {depth : Nat} {refs : List (Cell Hash)} {content : Content Hash}
  {cell : Cell Hash}

omit [DecidableEq Hash]

theorem cutRefs_eq_map (depth : Nat) (refs : List (Cell Hash)) :
    cutRefs sha keep depth refs = refs.map (cutTree sha keep depth) := by
  induction refs with
  | nil => rfl
  | cons ref refs ih => rw [cutRefs, ih, List.map_cons]

theorem everyCutRefs_iff :
    EveryCutRefs keep property depth refs ↔ ∀ ref ∈ refs, EveryCut keep property depth ref := by
  induction refs with
  | nil => simp [EveryCutRefs]
  | cons ref refs ih => simp [EveryCutRefs, ih]

theorem cutTree_kept (kept : keep (.mk content refs) = true) (depth : Nat) :
    cutTree sha keep depth (.mk content refs) =
      .mk content (refs.map (cutTree sha keep (content.childMerkleDepth depth))) := by
  rw [cutTree, if_pos kept, cutRefs_eq_map]

theorem cutTree_cut (cut : keep cell = false) (depth : Nat) :
    cutTree sha keep depth cell = prunedBranch sha cell depth := by
  cases cell with
  | mk content refs => rw [cutTree, if_neg (by simp [cut])]

theorem everyCut_kept (kept : keep (.mk content refs) = true) (depth : Nat) :
    EveryCut keep property depth (.mk content refs) ↔
      ∀ ref ∈ refs, EveryCut keep property (content.childMerkleDepth depth) ref := by
  rw [EveryCut, if_pos kept, everyCutRefs_iff]

theorem everyCut_cut (cut : keep cell = false) (depth : Nat) :
    EveryCut keep property depth cell ↔ property depth cell := by
  cases cell with
  | mk content refs => rw [EveryCut, if_neg (by simp [cut])]

variable {sha} {cell : Cell Hash} {depth : Nat}

theorem Whole.cutTree_eq (whole : Whole keep cell) (depth : Nat) : cutTree sha keep depth cell = cell := by
  induction whole generalizing depth with
  | @mk content refs kept _ ih =>
    rw [cutTree_kept sha kept]
    exact congrArg (Cell.mk content) ((List.map_congr_left fun ref member => ih ref member _).trans (List.map_id refs))

theorem Whole.librariesWhole (whole : Whole keep cell) : LibrariesWhole keep cell := by
  induction whole with
  | mk kept below ih => exact .kept kept (fun _ _ => below) ih

theorem cutTree_prunes (sha : Preimage Hash → Hash) (fits : EveryCut keep (fun depth _ => depth < maxLevel) depth cell)
    (whole : LibrariesWhole keep cell) (every : EveryCut keep property depth cell) :
    Prunes sha property depth (cutTree sha keep depth cell) cell := by
  induction whole generalizing depth with
  | cut cut =>
    rw [everyCut_cut cut] at fits every
    rw [cutTree_cut sha cut]
    exact .pruned every fits
  | @kept content refs kept library _ ih =>
    rw [everyCut_kept kept] at fits every
    rw [cutTree_kept sha kept]
    refine .node (List.length_map _) (fun hash same => ?_) ?_
    · exact (List.map_congr_left fun ref member => (library hash same ref member).cutTree_eq _).trans (List.map_id refs)
    · intro pair member
      rw [List.zip_map_left] at member
      obtain ⟨⟨cell, same⟩, inside, rfl⟩ := List.mem_map.mp member
      obtain ⟨rfl, present⟩ := mem_zip_self inside
      exact ih cell present (fits cell present) (every cell present)

theorem prunedBranch_content_ne (low : cell.level sha ≤ depth) :
    (prunedBranch sha cell depth).content ≠ cell.content := by
  intro same
  cases cell with
  | mk content refs =>
    cases content with
    | prunnedBranch mask hashes depths =>
      have masks : (Cell.mk (.prunnedBranch mask hashes depths) refs).mask sha ||| oneLevel (depth + 1) = mask :=
        (Content.prunnedBranch.inj same).1
      have own : (Cell.mk (.prunnedBranch mask hashes depths) refs).mask sha = mask := by
        rfl
      have unset := getLevel_le_iff.mp low depth (le_refl depth)
      rw [own, ← masks, Nat.testBit_or, testBit_oneLevel] at unset
      simp at unset
    | _ => cases same

/-- A pruned tree is the pruned branch of the cell, or a cell with the same data. -/
theorem Prunes.shape {cut : Nat → Cell Hash → Prop} {tree : Cell Hash} (shown : Prunes sha cut depth tree cell) :
    (tree = prunedBranch sha cell depth ∧ cut depth cell ∧ depth < maxLevel) ∨
      (tree.content = cell.content ∧
        List.Forall₂ (Prunes sha cut (cell.content.childMerkleDepth depth)) tree.refs cell.refs) := by
  cases shown with
  | pruned chosen fits => exact .inl ⟨rfl, chosen, fits⟩
  | node count _ below => exact .inr ⟨rfl, Prunes.refs count below⟩

theorem Prunes.of_cut (low : cell.level sha ≤ depth) (cut : keep cell = false)
    (shown : Prunes sha property depth (cutTree sha keep depth cell) cell) : property depth cell ∧ depth < maxLevel := by
  rw [cutTree_cut sha cut] at shown
  cases shown.shape with
  | inl pruned => exact pruned.2
  | inr node => exact absurd node.1 (prunedBranch_content_ne low)

theorem Prunes.of_kept (low : (Cell.mk content refs).level sha ≤ depth) (kept : keep (.mk content refs) = true)
    (shown : Prunes sha property depth (cutTree sha keep depth (.mk content refs)) (.mk content refs)) :
    ∀ ref ∈ refs, Prunes sha property (content.childMerkleDepth depth)
      (cutTree sha keep (content.childMerkleDepth depth) ref) ref := by
  rw [cutTree_kept sha kept] at shown
  cases shown.shape with
  | inl pruned =>
    have same := congrArg Cell.content pruned.1
    exact absurd same.symm (prunedBranch_content_ne low)
  | inr node =>
    have below := node.2
    simpa only [Cell.content_mk, Cell.refs_mk, List.forall₂_map_left_iff, List.forall₂_same] using below

/-- The cells that a cut tree leaves out are those its pruned branches replace. -/
theorem everyCut_of_prunes [DecidableEq Hash] (placed : cell.Placed sha depth)
    (shown : Prunes sha property depth (cutTree sha keep depth cell) cell) : EveryCut keep property depth cell := by
  induction cell using Cell.induction generalizing depth with
  | step content refs ih =>
    cases kept : keep (.mk content refs) with
    | false =>
      rw [everyCut_cut kept]
      exact (shown.of_cut placed.low kept).1
    | true =>
      rw [everyCut_kept kept]
      intro ref member
      exact ih ref member (placed.ref member) (shown.of_kept placed.low kept ref member)

end

/-! ### Generation -/

section

variable {sha}

theorem createPrunedBranch_ok {result : Cell Hash} (placed : cell.Placed sha depth)
    (inner : cell.refs.isEmpty = false) :
    createPrunedBranch sha cell (depth + 1) maxLevel = .ok result ↔
      Cell.Created sha (prunedBranch sha cell depth) ∧ result = prunedBranch sha cell depth := by
  have whole : apply (cell.mask sha) maxLevel = cell.mask sha := apply_of_getLevel_le placed.valid.level_le
  have high : ¬ depth + 1 < getLevel (cell.mask sha) + 1 := by
    have bound : getLevel (cell.mask sha) ≤ depth := placed.low
    omega
  rw [createPrunedBranch, if_neg (by simp [inner]), doCreatePrunedBranch]
  simp only [whole, high, if_false]
  exact finalize_leaf

variable (isPrunned : Cell Hash → Bool)

/-- What `generate` does not replace: a cell without references is left as it is. -/
def keeps (cell : Cell Hash) : Bool := !isPrunned cell || cell.refs.isEmpty

/-- The cut tree of a cell, if it can be made. -/
def Cuts (sha : Preimage Hash → Hash) (keep : Cell Hash → Bool) (depth : Nat) (tree cell : Cell Hash) : Prop :=
  tree = cutTree sha keep depth cell ∧ Cell.Created sha tree

theorem Cuts.refs_eq {keep : Cell Hash → Bool} {trees originals : List (Cell Hash)}
    (cuts : List.Forall₂ (Cuts sha keep depth) trees originals) :
    trees = originals.map (cutTree sha keep depth) ∧ ∀ tree ∈ trees, Cell.Created sha tree := by
  induction cuts with
  | nil => exact ⟨rfl, fun tree impossible => absurd impossible List.not_mem_nil⟩
  | cons head _ ih =>
    refine ⟨by rw [head.1, ih.1, List.map_cons], ?_⟩
    intro tree member
    cases member with
    | head => exact head.2
    | tail _ later => exact ih.2 tree later

namespace Rebuilds

variable {keep : Cell Hash → Bool} {content : Content Hash} {depth : Nat} {key : Hash × Nat} {cells : Memo Hash}

/-- The step of a kept cell. -/
theorem keptNode {refs originals : List (Cell Hash)}
    {call : Cell Hash → Memo Hash → Except Failure (Cell Hash × Memo Hash)}
    (valid : Cell.Valid sha (.mk content originals)) (kept : keep (.mk content originals) = true)
    (hash : key = ((Cell.mk content originals).reprHash sha, depth)) (sound : cells.Sound sha (Cuts sha keep))
    (each : List.Forall₂ (fun ref original => ∀ cells : Memo Hash, cells.Sound sha (Cuts sha keep) →
      Rebuilds sha (Cuts sha keep) (Cell.Created sha (cutTree sha keep (content.childMerkleDepth depth) original)) original
        (content.childMerkleDepth depth) (call ref cells)) refs originals) :
    Rebuilds sha (Cuts sha keep) (Cell.Created sha (cutTree sha keep depth (.mk content originals))) (.mk content originals)
      depth (do
        let (children, cells) ← createRefs call refs cells
        let res ← finalize sha content children
        pure (res, cells.emplace key res)) := by
  have cut := cutTree_kept sha kept depth
  refine .node valid hash sound each ?_ ?_ ?_
  · intro trees cuts accepted
    obtain ⟨same, made⟩ := Cuts.refs_eq cuts
    exact ⟨by rw [cut, same], .mk _ _ accepted made⟩
  · intro made original member
    rw [cut] at made
    exact made.created_ref _ (List.mem_map.mpr ⟨original, member, rfl⟩)
  · intro made trees cuts
    rw [cut] at made
    rw [(Cuts.refs_eq cuts).1]
    exact made.accepted

/-- The step of a cell that is cut: `make` returns its pruned branch if that can be made. -/
theorem cutCell {make : Except Failure (Cell Hash)} (valid : Cell.Valid sha cell)
    (cut : keep cell = false) (hash : key = (cell.reprHash sha, depth)) (sound : cells.Sound sha (Cuts sha keep))
    (makes : ∀ tree, make = .ok tree ↔ Cell.Created sha (prunedBranch sha cell depth) ∧ tree = prunedBranch sha cell depth) :
    Rebuilds sha (Cuts sha keep) (Cell.Created sha (cutTree sha keep depth cell)) cell depth (do
      let res ← make
      pure (res, cells.emplace key res)) := by
  have branch := cutTree_cut sha cut depth
  refine .made valid hash sound ?_ ?_
  · intro tree create
    obtain ⟨made, same⟩ := (makes tree).mp create
    exact ⟨same.trans branch.symm, same ▸ made⟩
  · intro made
    rw [branch] at made
    exact ⟨_, (makes _).mpr ⟨made, rfl⟩⟩

/-- The step of a kept cell without references: it is taken as it is. -/
theorem leaf (valid : Cell.Valid sha (.mk content [])) (kept : keep (.mk content []) = true)
    (hash : key = ((Cell.mk content []).reprHash sha, depth)) (sound : cells.Sound sha (Cuts sha keep)) :
    Rebuilds sha (Cuts sha keep) (Cell.Created sha (cutTree sha keep depth (.mk content []))) (.mk content []) depth
      (.ok (.mk content [], cells.emplace key (.mk content []))) := by
  have itself : cutTree sha keep depth (.mk content []) = .mk content [] := by
    rw [cutTree_kept sha kept, List.map_nil]
  have taken : Rebuilds sha (Cuts sha keep) (Cell.Created sha (cutTree sha keep depth (.mk content []))) (.mk content [])
      depth (do
        let res ← .ok (.mk content [])
        pure (res, cells.emplace key res)) := by
    refine .made valid hash sound ?_ fun _ => ⟨_, rfl⟩
    intro tree same
    cases same
    exact ⟨itself.symm, valid.created⟩
  exact taken

end Rebuilds

variable {isPrunned}

theorem dfsRefs_eq_createRefs (refs : List (Cell Hash)) (depth : Nat) (cells : Memo Hash) :
    dfsRefs sha isPrunned refs depth cells =
      createRefs (fun ref cells => dfs sha isPrunned ref depth cells) refs cells := by
  induction refs generalizing cells with
  | nil => rfl
  | cons ref refs ih => simp [dfsRefs, createRefs, ih]

/-- `MerkleProofImpl::dfs` makes the cut tree. -/
theorem dfs_rebuilds (isPrunned : Cell Hash → Bool) (injective : Function.Injective sha) (placed : cell.Placed sha depth)
    {cells : Memo Hash} (sound : cells.Sound sha (Cuts sha (keeps isPrunned))) :
    Rebuilds sha (Cuts sha (keeps isPrunned)) (Cell.Created sha (cutTree sha (keeps isPrunned) depth cell)) cell depth
      (dfs sha isPrunned cell depth cells) := by
  induction cell using Cell.induction generalizing depth cells with
  | step content refs ih =>
    have valid := placed.valid
    rw [dfs]
    cases known : cells ((Cell.mk content refs).reprHash sha, depth) with
    | some tree => exact .known injective valid sound known
    | none =>
      cases prunned : isPrunned (.mk content refs) with
      | true =>
        cases inner : refs.isEmpty with
        | true =>
          have empty : refs = [] := List.isEmpty_iff.mp inner
          subst empty
          have taken : createPrunedBranch sha (.mk content []) (depth + 1) maxLevel = .ok (.mk content []) := by
            rw [createPrunedBranch, if_pos ⟨valid.level_le, rfl⟩]
          rw [taken]
          exact .leaf valid (by simp [keeps]) rfl sound
        | false =>
          exact .cutCell valid (by simp [keeps, prunned, inner]) rfl sound
            fun tree => createPrunedBranch_ok placed inner
      | false =>
        simp only [dfsRefs_eq_createRefs]
        refine .keptNode valid (by simp [keeps, prunned]) rfl sound ?_
        rw [List.forall₂_same]
        intro ref member cells sound
        exact ih ref member (placed.ref member) sound

end

end

end TonStaking.Source.Cells
