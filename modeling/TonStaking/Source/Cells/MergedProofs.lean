import TonStaking.Source.Cells.Reading

/-!
# Merging two pruned trees of one cell

`combine_fast` walks two trees side by side. The result shows what either shows, with one
exception: a pruned branch of the original, of a level below the Merkle depth, is taken for one
made by the prover and given up for a pruned branch of it.
-/
namespace TonStaking.Source.Cells

open LevelMask Cell

section

variable {Hash : Type} [DecidableEq Hash] (sha : Preimage Hash → Hash)

/-- `merge` gives up a place. The first tree has a pruned branch of the original there, of a level
below the Merkle depth, and the second a pruned branch of it; on the way the first tree never has
the level at which `merge` would take it whole. -/
def GivenUp : List Nat → Cell Hash → Cell Hash → Nat → Prop
  | [], a, b, depth => a.content.isPrunnedBranch = true ∧ a.level sha < depth ∧ isBounded sha b depth = true
  | i :: path, a, b, depth => a.level sha ≠ depth ∧
      ∃ ref other, a.refs[i]? = some ref ∧ b.refs[i]? = some other ∧
        GivenUp path ref other (a.content.childMerkleDepth depth)

/-- One of the trees shows a cell with this hash at a place that is not given up. -/
def StillShown (a b : Cell Hash) (depth : Nat) (hash : Hash) : Prop :=
  ∃ path, ¬ GivenUp sha path a b depth ∧ (ShownAt sha path a depth hash ∨ ShownAt sha path b depth hash)

/-- The result of merging two pruned trees of one cell. -/
structure Merged (depth : Nat) (a b cell merged : Cell Hash) : Prop where
  shown : Prunes sha (Shallow sha) depth merged cell
  height : merged.height ≤ max a.height b.height
  readables : ∀ hash, hash ∈ readables sha depth merged ↔ StillShown sha a b depth hash

/-- References merged one by one. -/
structure MergedRefs (depth : Nat) (as bs cells merged : List (Cell Hash)) : Prop where
  first : as.length = merged.length
  second : bs.length = merged.length
  original : merged.length = cells.length
  each : ∀ (i : Nat) child, merged[i]? = some child → ∃ a b cell, as[i]? = some a ∧ bs[i]? = some b ∧
    cells[i]? = some cell ∧ Merged sha depth a b cell child

section

variable {sha}
variable {cut : Nat → Cell Hash → Prop} {depth : Nat} {tree cell : Cell Hash}

section

variable (shown : Prunes sha cut depth tree cell)
include shown

theorem Prunes.eq_or_testBit (valid : Cell.Valid sha cell) : tree = cell ∨ (tree.mask sha).testBit depth = true := by
  induction shown with
  | pruned =>
    rw [testBit_prunedBranch]
    simp
  | @node depth content trees cells count library _ ih =>
    by_cases same : trees = cells
    · rw [same]
      exact .inl rfl
    right
    have different : ∃ pair ∈ trees.zip cells, pair.1 ≠ pair.2 := by
      by_contra none
      apply same
      have all : List.Forall₂ Eq trees cells :=
        forall₂_of_pairs count fun pair member _ _ => by
          by_contra other
          exact none ⟨pair, member, other⟩
      rwa [List.forall₂_eq_eq_eq] at all
    obtain ⟨pair, member, other⟩ := different
    obtain ⟨inTrees, inCells⟩ := List.of_mem_zip member
    have bit := (ih pair member (valid.valid_ref _ inCells)).resolve_left other
    rw [Cell.testBit_mask (fun hash equal => absurd (library hash equal) same) (valid.created.plain_of_ref inCells)]
    exact ⟨pair.1, inTrees, bit⟩

theorem Prunes.eq_of_level_le (valid : Cell.Valid sha cell)
    (low : tree.level sha ≤ depth) :
    tree = cell := by
  refine (shown.eq_or_testBit valid).resolve_right ?_
  rw [getLevel_le_iff.mp low depth (le_refl depth)]
  simp

omit shown in
omit [DecidableEq Hash] in
theorem isBounded_prunedBranch (low : cell.level sha ≤ depth) (fits : depth < maxLevel) :
    isBounded sha (prunedBranch sha cell depth) depth = true := by
  rw [isBounded, level_prunedBranch low fits]
  simp [prunedBranch, Content.isPrunnedBranch]

omit [DecidableEq Hash] in
theorem Prunes.bounded_or_node (low : cell.level sha ≤ depth) :
    (tree.content.isPrunnedBranch = true ∧ tree.refs = [] ∧ isBounded sha tree depth = true) ∨
      (tree.content = cell.content ∧
        List.Forall₂ (Prunes sha cut (cell.content.childMerkleDepth depth)) tree.refs cell.refs) := by
  refine shown.shape.imp_left fun ⟨replaced, _, fits⟩ => ?_
  rw [replaced]
  exact ⟨rfl, rfl, isBounded_prunedBranch low fits⟩

omit [DecidableEq Hash] shown in
theorem Prunes.library {content : Content Hash} {trees cells : List (Cell Hash)} {hash : Hash}
    (shown : Prunes sha cut depth (.mk content trees) (.mk content cells)) (same : content = .library hash) :
    trees = cells := by
  subst same
  cases shown with
  | node _ library _ => exact library hash rfl

end

/-- A tree with the data of the cell and as many references is not bounded. -/
theorem Cell.Placed.not_bounded {content : Content Hash} {trees cells : List (Cell Hash)}
    (placed : (Cell.mk content cells).Placed sha depth) (count : trees.length = cells.length) :
    isBounded sha (.mk content trees) depth = false := by
  obtain plain | ⟨rfl, rfl⟩ := placed.valid.plain_or_nil count
  · simp [isBounded, plain]
  · simp [isBounded, placed.low]

/-- What a pruned tree shows is part of what the cell shows. -/
theorem Prunes.readables_subset (shown : Prunes sha (Shallow sha) depth tree cell) (placed : cell.Placed sha depth)
    {hash : Hash} (inside : hash ∈ readables sha depth tree) :
    hash ∈ readables sha depth cell := by
  induction cell using induction generalizing depth tree with
  | step content cells ih =>
    have stands := shown.stands placed
    cases shown with
    | pruned _ fits =>
      rw [readables_bounded (isBounded_prunedBranch placed.low fits)] at inside
      cases inside
    | @node _ _ trees _ count _ below =>
      have refs := Prunes.refs count below
      rw [mem_readables (placed.not_bounded count)] at inside
      rw [mem_readables (placed.not_bounded rfl)]
      rcases inside with same | ⟨tree, member, deeper⟩
      · exact .inl (same.trans (stands.agree.hash depth (le_refl depth)))
      obtain ⟨cell, present, pruned⟩ := forall₂_mem_left refs member
      exact .inr ⟨cell, present, ih cell present pruned (placed.ref present) deeper⟩

/-! ### Places that are given up -/

section

variable {a b : Cell Hash} {hash : Hash}

omit [DecidableEq Hash]

theorem not_givenUp_self (path : List Nat) : ¬ GivenUp sha path a a depth := by
  induction path generalizing a depth with
  | nil =>
    rintro ⟨-, below, bounded⟩
    simp only [isBounded, Bool.and_eq_true, decide_eq_true_eq] at bounded
    omega
  | cons i path ih =>
    rintro ⟨-, ref, other, here, there, deeper⟩
    rw [here, Option.some.injEq] at there
    exact ih (there ▸ deeper)

theorem not_givenUp_of_level (whole : a.level sha = depth) (path : List Nat) : ¬ GivenUp sha path a b depth := by
  cases path with
  | nil => exact fun given => Nat.ne_of_lt given.2.1 whole
  | cons i path => exact fun given => given.1 whole

theorem not_givenUp_of_nil (none : a.refs = [] ∨ b.refs = []) (top : ¬ GivenUp sha [] a b depth) (path : List Nat) :
    ¬ GivenUp sha path a b depth := by
  cases path with
  | nil => exact top
  | cons i path =>
    rintro ⟨-, ref, other, here, there, -⟩
    rcases none with empty | empty
    · simp [empty] at here
    · simp [empty] at there

theorem forall₂_getElem? {α β : Type} {R : α → β → Prop} {l : List α} {l' : List β} (below : List.Forall₂ R l l')
    {i : Nat} {x : α} {y : β} (here : l[i]? = some x) (there : l'[i]? = some y) : R x y := by
  obtain ⟨bound, rfl⟩ := List.getElem?_eq_some_iff.mp here
  obtain ⟨bound', rfl⟩ := List.getElem?_eq_some_iff.mp there
  exact below.get bound bound'

/-- Nothing is given up if the second tree is the whole cell. -/
theorem Prunes.not_givenUp [DecidableEq Hash] (shown : Prunes sha cut depth a cell)
    (placed : cell.Placed sha depth) (path : List Nat) : ¬ GivenUp sha path a cell depth := by
  induction path generalizing a cell depth with
  | nil =>
    rintro ⟨-, -, bounded⟩
    have low := placed.low
    simp only [isBounded, Bool.and_eq_true, decide_eq_true_eq] at bounded
    omega
  | cons i path ih =>
    rintro ⟨-, ref, other, here, there, deeper⟩
    cases shown with
    | pruned => simp [prunedBranch] at here
    | node count _ below =>
      exact ih (forall₂_getElem? (Prunes.refs count below) here there) (placed.ref (List.mem_of_getElem? there)) deeper

theorem StillShown.shown (still : StillShown sha a b depth hash) :
    hash ∈ readables sha depth a ∨ hash ∈ readables sha depth b := by
  obtain ⟨path, -, shown⟩ := still
  exact shown.imp (fun shown => mem_readables_iff_shownAt.mpr ⟨path, shown⟩) fun shown =>
    mem_readables_iff_shownAt.mpr ⟨path, shown⟩

theorem stillShown_iff (kept : ∀ path, ¬ GivenUp sha path a b depth) :
    StillShown sha a b depth hash ↔ hash ∈ readables sha depth a ∨ hash ∈ readables sha depth b := by
  simp only [StillShown, kept, not_false_eq_true, true_and, exists_or, mem_readables_iff_shownAt]

end

/-! ### Merging -/

theorem mergeRefs_merged {as bs cells : List (Cell Hash)}
    (each : ∀ cell ∈ cells, ∀ a b, Prunes sha (Shallow sha) depth a cell → Prunes sha (Shallow sha) depth b cell →
      ∃ merged, merge sha a b depth = .ok merged ∧ Merged sha depth a b cell merged)
    (shownA : List.Forall₂ (Prunes sha (Shallow sha) depth) as cells)
    (shownB : List.Forall₂ (Prunes sha (Shallow sha) depth) bs cells) :
    ∃ merged, mergeRefs sha as bs depth = .ok merged ∧ MergedRefs sha depth as bs cells merged := by
  induction shownA generalizing bs with
  | nil =>
    cases shownB
    exact ⟨[], rfl, rfl, rfl, rfl, nofun⟩
  | @cons a cell as cells headA _ ih =>
    cases shownB with
    | @cons b _ bs _ headB tailB =>
      obtain ⟨child, first, merged⟩ := each cell (List.mem_cons_self ..) a b headA headB
      obtain ⟨children, rest, below⟩ :=
        ih (fun other member => each other (List.mem_cons_of_mem cell member)) tailB
      refine ⟨child :: children, ?_, congrArg (· + 1) below.first, congrArg (· + 1) below.second,
        congrArg (· + 1) below.original, ?_⟩
      · exact bind_ok.mpr ⟨child, first, bind_ok.mpr ⟨children, rest, rfl⟩⟩
      · intro i other found
        cases i with
        | zero =>
          cases found
          exact ⟨a, b, cell, rfl, rfl, rfl, merged⟩
        | succ i => exact below.each i other found

section

variable {content : Content Hash} {as bs cells merged : List (Cell Hash)}
omit [DecidableEq Hash]

theorem isBounded_of_plain (plain : content.isPrunnedBranch = false) (trees : List (Cell Hash)) :
    isBounded sha (.mk content trees) depth = false := by
  simp [isBounded, plain]

variable (below : MergedRefs sha (content.childMerkleDepth depth) as bs cells merged)
include below

theorem MergedRefs.prunes (library : ∀ hash, content ≠ .library hash) :
    Prunes sha (Shallow sha) depth (.mk content merged) (.mk content cells) := by
  refine .node below.original (fun hash same => absurd same (library hash)) fun pair member => ?_
  obtain ⟨i, found⟩ := List.mem_iff_getElem?.mp member
  obtain ⟨here, there⟩ := List.getElem?_zip_eq_some.mp found
  obtain ⟨a, b, cell, -, -, original, merged⟩ := below.each i pair.1 here
  rw [there, Option.some.injEq] at original
  exact original ▸ merged.shown

theorem MergedRefs.height_le :
    (Cell.mk content merged).height ≤ max (Cell.mk content as).height (Cell.mk content bs).height := by
  refine Cell.heightRefs_le_iff.mpr fun child member => ?_
  obtain ⟨i, found⟩ := List.mem_iff_getElem?.mp member
  obtain ⟨a, b, cell, inA, inB, -, merged⟩ := below.each i child found
  have first := Cell.heightRefs_le_iff.mp (le_refl (heightRefs as)) a (List.mem_of_getElem? inA)
  have second := Cell.heightRefs_le_iff.mp (le_refl (heightRefs bs)) b (List.mem_of_getElem? inB)
  have bound := merged.height
  simp only [Cell.height]
  omega

variable (plain : content.isPrunnedBranch = false) (partly : (Cell.mk content as).level sha ≠ depth)
include plain partly

/-- The references show what is still shown below the node. -/
theorem MergedRefs.readables_iff (hash : Hash) :
    (∃ child ∈ merged, hash ∈ readables sha (content.childMerkleDepth depth) child) ↔
      ∃ i path, ¬ GivenUp sha (i :: path) (.mk content as) (.mk content bs) depth ∧
        (ShownAt sha (i :: path) (.mk content as) depth hash ∨ ShownAt sha (i :: path) (.mk content bs) depth hash) := by
  constructor
  · rintro ⟨child, member, deeper⟩
    obtain ⟨i, found⟩ := List.mem_iff_getElem?.mp member
    obtain ⟨a, b, cell, inA, inB, -, merged⟩ := below.each i child found
    obtain ⟨path, kept, shown⟩ := (merged.readables hash).mp deeper
    refine ⟨i, path, ?_, shown.imp (fun shown => ⟨isBounded_of_plain plain _, a, inA, shown⟩)
      fun shown => ⟨isBounded_of_plain plain _, b, inB, shown⟩⟩
    rintro ⟨-, ref, other, here, there, given⟩
    simp only [refs_mk, inA, inB, Option.some.injEq] at here there
    exact kept (here ▸ there ▸ given)
  · rintro ⟨i, path, kept, shown⟩
    have index : i < merged.length := by
      rcases shown with ⟨-, ref, found, -⟩ | ⟨-, ref, found, -⟩
      · exact lt_of_lt_of_eq (List.getElem?_eq_some_iff.mp found).1 below.first
      · exact lt_of_lt_of_eq (List.getElem?_eq_some_iff.mp found).1 below.second
    obtain ⟨a, b, cell, inA, inB, -, child⟩ := below.each i _ (List.getElem?_eq_getElem index)
    refine ⟨_, List.getElem_mem index, (child.readables hash).mpr ⟨path, ?_, ?_⟩⟩
    · exact fun given => kept ⟨partly, a, b, inA, inB, given⟩
    · refine shown.imp ?_ ?_
      · rintro ⟨-, ref, found, shown⟩
        simp only [refs_mk, inA, Option.some.injEq] at found
        exact found ▸ shown
      · rintro ⟨-, ref, found, shown⟩
        simp only [refs_mk, inB, Option.some.injEq] at found
        exact found ▸ shown

/-- The node over references that are merged one by one. -/
theorem Merged.node [DecidableEq Hash] (standsA : Stands sha depth (.mk content as) (.mk content cells))
    (standsB : Stands sha depth (.mk content bs) (.mk content cells))
    (placed : (Cell.mk content cells).Placed sha depth) (library : ∀ hash, content ≠ .library hash) :
    Merged sha depth (.mk content as) (.mk content bs) (.mk content cells) (.mk content merged) := by
  have whole := below.prunes library
  refine ⟨whole, below.height_le, fun hash => ?_⟩
  have sameHash {tree : Cell Hash} (stands : Stands sha depth tree (.mk content cells)) :
      tree.hash sha depth = (Cell.mk content cells).hash sha depth := stands.agree.hash depth (le_refl depth)
  rw [mem_readables (isBounded_of_plain plain _), below.readables_iff plain partly]
  constructor
  · rintro (same | ⟨i, path, still⟩)
    · refine ⟨[], fun given => by simp [GivenUp, plain] at given, .inl ⟨isBounded_of_plain plain _, ?_⟩⟩
      rw [same, sameHash (whole.stands placed), sameHash standsA]
    · exact ⟨i :: path, still⟩
  · rintro ⟨_ | ⟨i, path⟩, kept, shown⟩
    · refine .inl ?_
      rw [sameHash (whole.stands placed)]
      exact shown.elim (fun shown => shown.2.trans (sameHash standsA)) fun shown => shown.2.trans (sameHash standsB)
    · exact .inr ⟨i, path, kept, shown⟩

end

section

variable {a b : Cell Hash} (shownA : Prunes sha (Shallow sha) depth a cell) (shownB : Prunes sha (Shallow sha) depth b cell)
include shownA shownB

/-- The first tree is taken, which has the level of a tree with nothing pruned. -/
theorem Merged.wholeFirst (placed : cell.Placed sha depth) (whole : a.level sha = depth) :
    Merged sha depth a b cell a := by
  refine ⟨shownA, le_max_left _ _, fun hash => ?_⟩
  rw [stillShown_iff (not_givenUp_of_level whole), shownA.eq_of_level_le placed.valid (le_of_eq whole)]
  exact ⟨.inl, fun either => either.elim id (shownB.readables_subset placed)⟩

theorem Merged.wholeSecond (placed : cell.Placed sha depth) (whole : b.level sha = depth) :
    Merged sha depth a b cell b := by
  have same := shownB.eq_of_level_le placed.valid (le_of_eq whole)
  subst same
  refine ⟨shownB, le_max_right _ _, fun hash => ?_⟩
  rw [stillShown_iff (shownA.not_givenUp placed)]
  exact ⟨.inr, fun either => either.elim (shownA.readables_subset placed) id⟩

omit [DecidableEq Hash] shownA in
/-- The second tree is taken where the first has a pruned branch of its prover. -/
theorem Merged.second (bounded : isBounded sha a depth = true) (empty : a.refs = []) : Merged sha depth a b cell b := by
  refine ⟨shownB, le_max_right _ _, fun hash => ?_⟩
  have above : depth < a.level sha := by
    simp only [isBounded, Bool.and_eq_true, decide_eq_true_eq] at bounded
    exact bounded.2
  rw [stillShown_iff (not_givenUp_of_nil (.inl empty) fun given => lt_asymm above given.2.1), readables_bounded bounded]
  simp

omit [DecidableEq Hash] shownB in
theorem Merged.first (bounded : isBounded sha b depth = true) (empty : b.refs = [])
    (plain : a.content.isPrunnedBranch ≠ true) : Merged sha depth a b cell a := by
  refine ⟨shownA, le_max_left _ _, fun hash => ?_⟩
  rw [stillShown_iff (not_givenUp_of_nil (.inr empty) fun given => plain given.1), readables_bounded bounded]
  simp

omit [DecidableEq Hash] shownA in
/-- A pruned branch of the original is taken for one of the prover. -/
theorem Merged.lost (bounded : isBounded sha b depth = true) (prunned : a.content.isPrunnedBranch = true)
    (empty : a.refs = []) (below : a.level sha < depth) : Merged sha depth a b cell b := by
  refine ⟨shownB, le_max_right _ _, fun hash => ?_⟩
  rw [readables_bounded bounded]
  refine ⟨nofun, ?_⟩
  rintro ⟨_ | ⟨i, path⟩, kept, shown⟩
  · exact absurd ⟨prunned, below, bounded⟩ kept
  · rcases shown with ⟨-, ref, found, -⟩ | shown
    · simp [empty] at found
    · exact absurd shown (not_shownAt_of_bounded bounded _)

end

/-- `merge` of two pruned trees of a cell is a pruned tree of it. -/
theorem merge_merged (injective : Function.Injective sha) (placed : cell.Placed sha depth)
    {a b : Cell Hash} (shownA : Prunes sha (Shallow sha) depth a cell) (shownB : Prunes sha (Shallow sha) depth b cell) :
    ∃ merged, merge sha a b depth = .ok merged ∧ Merged sha depth a b cell merged := by
  induction cell using induction generalizing depth a b with
  | step content cells ih =>
    have standsA := shownA.stands placed
    have standsB := shownB.stands placed
    cases a with
    | mk contentA refsA =>
    rw [merge]
    by_cases same : (Cell.mk contentA refsA).reprHash sha = b.reprHash sha
    · have equal := standsA.placed.valid.eq_of_reprHash sha injective standsB.placed.valid same
      subst equal
      refine ⟨_, if_pos rfl, shownA, le_max_left _ _, fun hash => ?_⟩
      rw [stillShown_iff not_givenUp_self, or_self]
    by_cases wholeA : (Cell.mk contentA refsA).level sha = depth
    · rw [if_neg same, if_pos wholeA]
      exact ⟨_, rfl, .wholeFirst shownA shownB placed wholeA⟩
    by_cases wholeB : b.level sha = depth
    · rw [if_neg same, if_neg wholeA, if_pos wholeB]
      exact ⟨_, rfl, .wholeSecond shownA shownB placed wholeB⟩
    rw [if_neg same, if_neg wholeA, if_neg wholeB]
    rcases shownA.bounded_or_node placed.low with ⟨prunnedA, emptyA, boundedA⟩ | ⟨sameA, refsShownA⟩
    · rw [content_mk] at prunnedA
      rw [if_pos prunnedA]
      exact ⟨_, rfl, .second shownB boundedA emptyA⟩
    obtain rfl : contentA = content := sameA
    rcases shownB.bounded_or_node placed.low with ⟨prunnedB, emptyB, boundedB⟩ | ⟨sameB, refsShownB⟩
    · by_cases prunnedA : contentA.isPrunnedBranch = true
      · rw [if_pos prunnedA]
        obtain plain | ⟨rfl, rfl⟩ := placed.valid.plain_or_nil refsShownA.length_eq
        · simp [plain] at prunnedA
        · exact ⟨_, rfl, .lost shownB boundedB prunnedA rfl (lt_of_le_of_ne placed.low wholeA)⟩
      · rw [if_neg prunnedA, if_pos prunnedB]
        exact ⟨_, rfl, .first shownA boundedB emptyB prunnedA⟩
    cases b with
    | mk contentB refsB =>
    obtain rfl : contentB = contentA := sameB
    simp only [content_mk, refs_mk] at refsShownA refsShownB
    -- without references both trees were the cell itself
    cases cells with
    | nil =>
      cases refsShownA
      cases refsShownB
      exact absurd rfl same
    | cons first rest =>
    have plain : contentB.isPrunnedBranch = false := placed.valid.created.plain_of_ref (List.mem_cons_self ..)
    have inner : ¬ refsA.isEmpty = true := by
      cases refsShownA
      simp
    rw [if_neg (by simp [plain]), if_neg (by simp [plain]), if_neg inner]
    obtain ⟨children, run, below⟩ := mergeRefs_merged
      (fun cell member a b => ih cell member (placed.ref member)) refsShownA refsShownB
    -- nothing is pruned below a library cell
    have library : ∀ hash, contentB ≠ .library hash := by
      intro hash equal
      apply same
      rw [shownA.library equal, shownB.library equal]
    have merged := Merged.node below plain wholeA standsA standsB placed library
    exact ⟨_, bind_ok.mpr ⟨children, run, finalize_ok.mpr ⟨(merged.shown.stands placed).placed.valid.accepted, rfl⟩⟩, merged⟩

end

end

end TonStaking.Source.Cells
