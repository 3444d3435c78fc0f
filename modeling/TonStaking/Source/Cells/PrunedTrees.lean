import TonStaking.Source.Cells.Levels
import TonStaking.Source.Cells.MerkleProof

/-!
# Pruned trees

A tree of cells with some of its cells replaced by their pruned branches, as a relation that is
independent of the functions that make such trees. A pruned branch answers for the cell it
replaces on every level up to its Merkle depth, unless the depth of that cell takes more than the
byte which `load_depth` reads.
-/
namespace TonStaking.Source.Cells

open LevelMask Cell Content

section

variable {Hash α β : Type} [DecidableEq Hash] (sha : Preimage Hash → Hash) {l : List α}

/-- The pruned branch of a cell at a Merkle depth. -/
def prunedBranch (cell : Cell Hash) (depth : Nat) : Cell Hash :=
  .mk (.prunnedBranch (cell.mask sha ||| oneLevel (depth + 1))
      ((significantLevels (cell.mask sha)).map (cell.hash sha))
      ((significantLevels (cell.mask sha)).map fun level => BitVec.ofNat 16 (cell.depth sha level)))
    []

/-- The first tree is the second with some cells replaced by their pruned branches, but none below a
library cell; `cut` holds of each of these at its Merkle depth. -/
inductive Prunes (cut : Nat → Cell Hash → Prop) : Nat → Cell Hash → Cell Hash → Prop
  | pruned {depth : Nat} {cell : Cell Hash} (chosen : cut depth cell) (fits : depth < maxLevel) :
      Prunes cut depth (prunedBranch sha cell depth) cell
  | node {depth : Nat} {content : Content Hash} {trees cells : List (Cell Hash)} (count : trees.length = cells.length)
      (library : ∀ hash, content = .library hash → trees = cells)
      (below : ∀ pair ∈ trees.zip cells, Prunes cut (content.childMerkleDepth depth) pair.1 pair.2) :
      Prunes cut depth (.mk content trees) (.mk content cells)

/-- A depth that one byte holds, on every level that counts at a Merkle depth. -/
def Shallow (depth : Nat) (cell : Cell Hash) : Prop := ∀ level ≤ depth, cell.depth sha level < 256

/-- Two cells that answer alike on the levels up to one. -/
structure Agree (top : Nat) (a b : Info Hash) : Prop where
  mask : ∀ i < top, a.mask.testBit i = b.mask.testBit i
  hash : ∀ i ≤ top, a.hash i = b.hash i
  depth : ∀ i ≤ top, a.depth i = b.depth i

omit [DecidableEq Hash] in
theorem Agree.refl (top : Nat) (a : Info Hash) : Agree top a a :=
  ⟨fun _ _ => rfl, fun _ _ => rfl, fun _ _ => rfl⟩

/-! ### The height of a tree -/

mutual

/-- The number of references on the longest path. -/
def Cell.height : Cell Hash → Nat
  | .mk _ refs => heightRefs refs

/-- The height of a cell with these references. -/
def Cell.heightRefs : List (Cell Hash) → Nat
  | [] => 0
  | ref :: refs => max (ref.height + 1) (heightRefs refs)

end

section

omit [DecidableEq Hash]

theorem Cell.heightRefs_le_iff {refs : List (Cell Hash)} {n : Nat} :
    heightRefs refs ≤ n ↔ ∀ ref ∈ refs, ref.height + 1 ≤ n := by
  induction refs with
  | nil => simp [heightRefs]
  | cons ref refs ih => simp only [heightRefs, Nat.max_le, ih, List.forall_mem_cons]

theorem Cell.heightRefs_eq {refs : List (Cell Hash)} {depths : Cell Hash → Nat}
    (same : ∀ ref ∈ refs, depths ref = ref.height) :
    (if refs.isEmpty then 0 else (refs.map depths).foldr max 0 + 1) = heightRefs refs := by
  induction refs with
  | nil => rfl
  | cons ref refs ih =>
    have before := ih fun other member => same other (List.mem_cons_of_mem ref member)
    have first := same ref (List.mem_cons_self ..)
    rw [heightRefs, ← before]
    cases refs with
    | nil => simp [first]
    | cons next refs =>
      simp only [List.isEmpty_cons, Bool.false_eq_true, if_false, List.map_cons, List.foldr_cons]
      omega

end

/-- From its level on the depth of a cell is the height of its tree. -/
theorem Cell.Placed.depth_eq_height {sha : Preimage Hash → Hash} {cell : Cell Hash} {depth : Nat}
    (placed : cell.Placed sha depth) : cell.depth sha depth = cell.height := by
  induction cell using induction generalizing depth with
  | step content refs ih =>
    have valid := placed.valid
    rw [(Cell.hash_of_level_le (le_refl _) placed.low).2]
    cases content using Content.casesPrunned with
    | prunned mask hashes depths =>
      have level : (Cell.mk (.prunnedBranch mask hashes depths) refs).level sha = getLevel mask := by
        rfl
      have empty := valid.created.prunned.1
      subst empty
      rw [level, Cell.depth, info_mk]
      simp [Content.info, apply_of_getLevel_le, calcDepth, height, heightRefs]
    | plain content plain =>
      have computed : (Cell.mk content refs).depth sha ((Cell.mk content refs).level sha) =
          content.calcDepth (refs.map (info sha)) ((Cell.mk content refs).level sha) := by
        rw [Cell.depth, info_mk, info_of_not_prunned plain]
        cases position : (Cell.mk content refs).level sha with
        | zero => rfl
        | succ level =>
          have set := testBit_of_level position
          rw [mask_mk] at set
          simp [Content.depthAt, set]
      rw [computed, calcDepth, childDepths, height]
      simp only [List.isEmpty_map, List.map_map]
      apply Cell.heightRefs_eq
      intro ref member
      exact ih ref member (Placed.ref ⟨valid, le_refl _⟩ member)

/-! ### Agreement -/

namespace Content

omit [DecidableEq Hash]

variable {sha}
variable {content : Content Hash} {top : Nat} {as bs : List (Info Hash)}

theorem levelMask_agree (own : content.isPrunnedBranch = false)
    (below : List.Forall₂ (fun a b => ∀ i < content.childMerkleDepth top, a.mask.testBit i = b.mask.testBit i) as bs) :
    ∀ i < top, (content.levelMask as).testBit i = (content.levelMask bs).testBit i := by
  intro i low
  by_cases library : ∃ hash, content = .library hash
  · obtain ⟨hash, rfl⟩ := library
    rfl
  have other : ∀ hash, content ≠ .library hash := not_exists.mp library
  rw [Bool.eq_iff_iff, testBit_levelMask own fun hash same => absurd same (other hash),
    testBit_levelMask own fun hash same => absurd same (other hash)]
  have inside : content.childMerkleDepth i < content.childMerkleDepth top := by
    unfold childMerkleDepth
    split <;> omega
  induction below with
  | nil => simp
  | cons head _ ih => simp [ih, head _ inside]

/-- Cells of the same data agree up to a level if their references agree up to it, one level
further at a Merkle cell. -/
theorem info_agree (own : content.isPrunnedBranch = false)
    (below : List.Forall₂ (Agree (content.childMerkleDepth top)) as bs) :
    Agree top (content.info sha as) (content.info sha bs) := by
  have bits := levelMask_agree own (below.imp fun _ _ agree => agree.mask)
  have masks : ∀ i ≤ top, apply (content.levelMask as) i = apply (content.levelMask bs) i := by
    intro i low
    apply Nat.eq_of_testBit_eq
    intro j
    simp only [testBit_apply]
    by_cases inside : j < i
    · rw [bits j (lt_of_lt_of_le inside low)]
    · simp [inside]
  have depths : ∀ i ≤ top, content.childDepths as i = content.childDepths bs i := by
    intro i low
    have inside := childMerkleDepth_le content low
    unfold childDepths
    clear bits masks
    induction below with
    | nil => rfl
    | cons head tail ih => rw [List.map_cons, List.map_cons, ih, head.depth _ inside]
  have hashes : ∀ i ≤ top, content.childHashes as i = content.childHashes bs i := by
    intro i low
    have inside := childMerkleDepth_le content low
    unfold childHashes
    clear bits masks depths
    induction below with
    | nil => rfl
    | cons head tail ih => rw [List.map_cons, List.map_cons, ih, head.hash _ inside]
  have fed : ∀ i ≤ top, ∀ body, content.preimage as i body = content.preimage bs i body := by
    intro i low body
    rw [preimage, preimage, masks i low, depths i low, hashes i low, below.length_eq]
  have calculated : ∀ i ≤ top, content.calcDepth as i = content.calcDepth bs i := by
    intro i low
    have empty : as.isEmpty = bs.isEmpty := by
      cases below <;> rfl
    rw [calcDepth, calcDepth, empty, depths i low]
  rw [info_of_not_prunned own, info_of_not_prunned own]
  refine ⟨bits, ?_, ?_⟩
  · intro i
    induction i with
    | zero =>
      intro low
      simp [hashAt, fed 0 low]
    | succ i ih =>
      intro low
      have before := ih (by omega)
      simp only at before
      simp [hashAt, bits i (by omega), before, fed (i + 1) low]
  · intro i
    induction i with
    | zero => exact calculated 0
    | succ i ih =>
      intro low
      have before := ih (by omega)
      simp only at before
      simp [depthAt, bits i (by omega), before, calculated (i + 1) low]

end Content

/-! ### Pruned branches -/

theorem loadDepth_ofNat (depth : Nat) : loadDepth (BitVec.ofNat 16 depth) = depth % 256 := by
  simp only [loadDepth, BitVec.toNat_and, BitVec.toNat_ofNat]
  rw [show 255 % 2 ^ 16 = 2 ^ 8 - 1 by decide, Nat.and_two_pow_sub_one_eq_mod]
  exact Nat.mod_mod_of_dvd depth (by decide)

section

variable {sha}
variable {cell : Cell Hash} {depth : Nat}

omit [DecidableEq Hash] in
theorem testBit_prunedBranch (sha : Preimage Hash → Hash) (cell : Cell Hash) (depth i : Nat) :
    ((prunedBranch sha cell depth).mask sha).testBit i = ((cell.mask sha).testBit i || decide (depth = i)) := by
  rw [prunedBranch, mask_mk]
  simp only [Content.levelMask]
  rw [Nat.testBit_or, testBit_oneLevel]

omit [DecidableEq Hash] in
theorem level_prunedBranch (low : cell.level sha ≤ depth) (fits : depth < maxLevel) :
    (prunedBranch sha cell depth).level sha = depth + 1 := by
  exact (getHashesCount_apply_or_oneLevel low fits).1

variable (placed : cell.Placed sha depth) (fits : depth < maxLevel)
include placed fits

/-- Up to its Merkle depth a pruned branch has the hashes of the cell, and the low byte of its depths. -/
theorem hash_prunedBranch {i : Nat} (within : i ≤ depth) :
    (prunedBranch sha cell depth).hash sha i = cell.hash sha i ∧
      (prunedBranch sha cell depth).depth sha i = cell.depth sha i % 256 := by
  have index := getHashI_or_oneLevel placed.low fits within
  have stored := significantLevels_getHashI placed.valid.created.mask_lt i (by
    unfold maxLevel at fits
    omega)
  have other : getHashI (apply (cell.mask sha) i) ≠ getHashI (cell.mask sha ||| oneLevel (depth + 1)) :=
    Nat.ne_of_lt index.2
  have same := Cell.hash_getLevel_apply sha cell i
  constructor
  · rw [Cell.hash, prunedBranch, info_mk]
    simp only [Content.info, index.1, other, List.getElem?_map, stored]
    exact same.1
  · rw [Cell.depth, prunedBranch, info_mk]
    simp [Content.info, index.1, other, stored, loadDepth_ofNat, same.2]

theorem prunedBranch_agree (shallow : Shallow sha depth cell) :
    Agree depth ((prunedBranch sha cell depth).info sha) (cell.info sha) := by
  refine ⟨?_, ?_, ?_⟩
  · intro i inside
    have other : ¬ depth = i := by omega
    exact (testBit_prunedBranch sha cell depth i).trans (by simp [other, mask])
  · intro i within
    exact (hash_prunedBranch placed fits within).1
  · intro i within
    exact (hash_prunedBranch placed fits within).2.trans (Nat.mod_eq_of_lt (shallow i within))

theorem prunedBranch_valid : Cell.Valid sha (prunedBranch sha cell depth) := by
  have counted := getHashesCount_apply_or_oneLevel placed.low fits
  have few : getHashesCount (cell.mask sha) ≤ 3 := by
    have all : ∀ mask < 2 ^ 2, getHashesCount mask ≤ 3 := by decide
    apply all
    exact lt_of_lt_of_le (getLevel_le_iff_lt.mp placed.low)
      (Nat.pow_le_pow_right (by decide) (by unfold maxLevel at fits; omega))
  refine .mk _ _ ?_ (by intro _ library; cases library) (by simp)
  rw [checkCell_ok]
  refine ⟨?_, ?_, Nat.zero_le _, ?_⟩
  · simp only [Content.checkType, check_bind, check_ok, List.map_nil, List.isEmpty_nil, List.length_map,
      length_significantLevels placed.valid.created.mask_lt]
    rw [counted.1]
    exact ⟨trivial, ⟨fits, Nat.succ_ne_zero depth⟩, counted.2.symm, counted.2.symm⟩
  · simp only [Content.size, List.length_map, length_significantLevels placed.valid.created.mask_lt, maxBits]
    omega
  · intro level _ depth member
    cases member

end

/-! ### Pruned trees -/

theorem Content.checkType_congr {content : Content Hash} {top : Nat} {as bs : List (Info Hash)}
    (below : List.Forall₂ (Agree top) as bs) : content.checkType as = content.checkType bs := by
  cases content with
  | ordinary bits | library hash => rfl
  | prunnedBranch mask hashes depths => cases below <;> rfl
  | merkleProof hash depth =>
    cases below with
    | nil => rfl
    | cons first rest =>
      cases rest with
      | nil => simp [checkType, first.hash 0 (Nat.zero_le top), first.depth 0 (Nat.zero_le top)]
      | cons second rest => rfl
  | merkleUpdate fromHash toHash fromDepth toDepth =>
    cases below with
    | nil => rfl
    | cons first rest =>
      cases rest with
      | nil => rfl
      | cons second rest =>
        cases rest with
        | nil =>
          simp [checkType, first.hash 0 (Nat.zero_le top), first.depth 0 (Nat.zero_le top),
            second.hash 0 (Nat.zero_le top), second.depth 0 (Nat.zero_le top)]
        | cons third rest => rfl

theorem forall₂_mem_left {R : α → β → Prop} {l' : List β} (below : List.Forall₂ R l l')
    {x : α} (member : x ∈ l) : ∃ y ∈ l', R x y := by
  induction below with
  | nil => cases member
  | cons head _ ih =>
    cases member with
    | head => exact ⟨_, List.mem_cons_self .., head⟩
    | tail _ later =>
      obtain ⟨y, inside, related⟩ := ih later
      exact ⟨y, List.mem_cons_of_mem _ inside, related⟩

/-- What a tree says about the one it was pruned from. -/
structure Stands (depth : Nat) (tree cell : Cell Hash) : Prop where
  placed : tree.Placed sha (depth + 1)
  agree : Agree depth (tree.info sha) (cell.info sha)
  height : tree.height ≤ cell.height

section

variable {sha}
variable {content : Content Hash} {trees cells : List (Cell Hash)} {depth top : Nat} {cell tree : Cell Hash}
  {cut : Nat → Cell Hash → Prop}

theorem Cell.Valid.height_ref_lt {refs : List (Cell Hash)} (valid : Cell.Valid sha (.mk content refs)) {ref : Cell Hash}
    (member : ref ∈ refs) : ref.height < maxDepth := by
  have fits := (checkCell_ok.mp valid.accepted).2.2.2
  have top : (Cell.mk content refs).level sha ∈ significantLevels (content.levelMask (refs.map (info sha))) := by
    rw [← mask_mk, mem_significantLevels]
    cases position : (Cell.mk content refs).level sha with
    | zero => rfl
    | succ level => simp [isSignificant, testBit_of_level position]
  have bounded := fits _ top (ref.depth sha (content.childMerkleDepth ((Cell.mk content refs).level sha)))
    (List.mem_map.mpr ⟨ref.info sha, List.mem_map.mpr ⟨ref, member, rfl⟩, rfl⟩)
  rwa [(Placed.ref ⟨valid, le_refl _⟩ member).depth_eq_height] at bounded

omit [DecidableEq Hash] in
theorem heightRefs_le_of_forall₂ (below : List.Forall₂ (fun tree cell => tree.height ≤ cell.height) trees cells) :
    heightRefs trees ≤ heightRefs cells := by
  induction below with
  | nil => exact le_refl _
  | cons first _ ih =>
    simp only [heightRefs]
    omega

omit [DecidableEq Hash] in
theorem level_le_of_refs (own : content.isPrunnedBranch = false)
    (below : List.Forall₂ (fun tree _ => tree.level sha ≤ content.childMerkleDepth depth + 1) trees cells) :
    (Cell.mk content trees).level sha ≤ depth + 1 := by
  rw [Cell.level, getLevel_le_iff, mask_mk]
  intro i above
  by_cases library : ∃ hash, content = .library hash
  · obtain ⟨hash, rfl⟩ := library
    exact Nat.zero_testBit i
  rw [← Bool.not_eq_true, Content.testBit_levelMask own fun hash same => absurd ⟨hash, same⟩ library]
  intro set
  obtain ⟨info, member, bit⟩ := set
  obtain ⟨tree, inside, rfl⟩ := List.mem_map.mp member
  obtain ⟨cell, -, level⟩ := forall₂_mem_left below inside
  have beyond := content.childMerkleDepth_le above
  rw [content.childMerkleDepth_succ] at beyond
  have unset := getLevel_le_iff.mp level _ beyond
  rw [mask] at unset
  rw [unset] at bit
  cases bit

theorem Stands.refl (placed : cell.Placed sha depth) : Stands sha depth cell cell :=
  ⟨⟨placed.valid, Nat.le_succ_of_le placed.low⟩, Agree.refl depth (cell.info sha), le_refl _⟩

theorem Stands.node (valid : Cell.Valid sha (.mk content cells)) (own : content.isPrunnedBranch = false)
    (library : ∀ hash, content = .library hash → trees = cells)
    (below : List.Forall₂ (Stands sha (content.childMerkleDepth depth)) trees cells) :
    Stands sha depth (.mk content trees) (.mk content cells) := by
  have agreeRefs : List.Forall₂ (Agree (content.childMerkleDepth depth)) (trees.map (info sha))
      (cells.map (info sha)) := by
    rw [List.forall₂_map_left_iff, List.forall₂_map_right_iff]
    exact below.imp fun _ _ stands => stands.agree
  have agree : Agree depth ((Cell.mk content trees).info sha) ((Cell.mk content cells).info sha) := by
    rw [info_mk, info_mk]
    exact Content.info_agree own agreeRefs
  have heights : heightRefs trees ≤ heightRefs cells :=
    heightRefs_le_of_forall₂ (below.imp fun _ _ stands => stands.height)
  have level := level_le_of_refs own (below.imp fun _ _ stands => stands.placed.low)
  refine ⟨⟨.mk content trees ?_ (fun hash same => library hash same ▸ valid.library hash same) ?_, level⟩, agree, heights⟩
  · obtain ⟨type, size, count, fits⟩ := checkCell_ok.mp valid.accepted
    rw [checkCell_ok, Content.checkType_congr agreeRefs]
    refine ⟨type, size, by rw [agreeRefs.length_eq]; exact count, ?_⟩
    intro position significant childDepth child
    simp only [childDepths, List.map_map, List.mem_map] at child
    obtain ⟨tree, inside, rfl⟩ := child
    obtain ⟨cell, member, stands⟩ := forall₂_mem_left below inside
    rw [← mask_mk, mem_significantLevels] at significant
    by_cases old : position ≤ depth
    · -- a level the original has too, with the same depths below it
      have before : position ∈ significantLevels (content.levelMask (cells.map (info sha))) := by
        rw [← mask_mk, mem_significantLevels]
        cases position with
        | zero => rfl
        | succ position =>
          simp only [isSignificant] at significant ⊢
          have bits := agree.mask position (by omega)
          simp only [mask] at significant ⊢
          simpa [← bits] using significant
      have bounded := fits position before (cell.depth sha (content.childMerkleDepth position))
        (List.mem_map.mpr ⟨cell.info sha, List.mem_map.mpr ⟨cell, member, rfl⟩, rfl⟩)
      have same := stands.agree.depth _ (content.childMerkleDepth_le old)
      exact lt_of_eq_of_lt same bounded
    · -- the level of the pruned branches, where the depth is the height of what is left
      have beyond : content.childMerkleDepth depth + 1 ≤ content.childMerkleDepth position := by
        rw [← content.childMerkleDepth_succ]
        exact content.childMerkleDepth_le (by omega)
      have own := Placed.depth_eq_height ⟨stands.placed.valid, le_trans stands.placed.low beyond⟩
      exact lt_of_eq_of_lt own (lt_of_le_of_lt stands.height (valid.height_ref_lt member))
  · intro tree inside
    obtain ⟨cell, -, stands⟩ := forall₂_mem_left below inside
    exact stands.placed.valid

section

omit [DecidableEq Hash]

theorem Prunes.mono {cut' : Nat → Cell Hash → Prop} (shown : Prunes sha cut depth tree cell)
    (weaker : ∀ depth cell, cut depth cell → cut' depth cell) :
    Prunes sha cut' depth tree cell := by
  induction shown with
  | pruned chosen fits => exact .pruned (weaker _ _ chosen) fits
  | node count library _ ih => exact .node count library ih

theorem Prunes.refs (count : trees.length = cells.length)
    (below : ∀ pair ∈ trees.zip cells, Prunes sha cut depth pair.1 pair.2) :
    List.Forall₂ (Prunes sha cut depth) trees cells :=
  List.forall₂_iff_zip.mpr ⟨count, fun member => below _ member⟩

/-- A fact about all references of a pruned tree and of its original, from one about the pairs. -/
theorem forall₂_of_pairs {R : Cell Hash → Cell Hash → Prop} (count : trees.length = cells.length)
    (pairs : ∀ pair ∈ trees.zip cells, pair.1 ∈ trees → pair.2 ∈ cells → R pair.1 pair.2) :
    List.Forall₂ R trees cells :=
  List.forall₂_iff_zip.mpr ⟨count, fun member =>
    pairs _ member (List.of_mem_zip member).1 (List.of_mem_zip member).2⟩

theorem mem_zip_self {x y : α} (member : (x, y) ∈ l.zip l) : x = y ∧ x ∈ l := by
  obtain ⟨i, bound, here⟩ := List.mem_iff_getElem.mp member
  simp only [List.getElem_zip, Prod.mk.injEq] at here
  exact ⟨here.1.symm.trans here.2, (List.of_mem_zip member).1⟩

theorem Prunes.refl (cut : Nat → Cell Hash → Prop) (depth : Nat) (cell : Cell Hash) : Prunes sha cut depth cell cell := by
  induction cell using induction generalizing depth with
  | step content refs ih =>
    refine .node rfl (fun _ _ => rfl) fun pair member => ?_
    obtain ⟨same, inside⟩ := mem_zip_self (x := pair.1) (y := pair.2) member
    rw [← same]
    exact ih pair.1 inside _

end

/-- A tree pruned from a valid one is valid if its cells can be made. -/
theorem Prunes.valid (shown : Prunes sha cut depth tree cell) (valid : Cell.Valid sha cell)
    (created : Cell.Created sha tree) : Cell.Valid sha tree := by
  induction shown with
  | pruned => exact .mk _ _ created.accepted nofun nofun
  | @node _ content trees cells count library _ ih =>
    have below : List.Forall₂ (fun tree _ => Cell.Valid sha tree) trees cells :=
      forall₂_of_pairs count fun pair member inTrees inCells =>
        ih pair member (valid.valid_ref _ inCells) (created.created_ref _ inTrees)
    refine .mk _ _ created.accepted (fun hash same => library hash same ▸ valid.library hash same) fun tree member => ?_
    obtain ⟨_, -, validTree⟩ := forall₂_mem_left below member
    exact validTree

theorem Cell.Valid.plain_or_nil (valid : Cell.Valid sha (.mk content cells)) (count : trees.length = cells.length) :
    content.isPrunnedBranch = false ∨ trees = [] ∧ cells = [] := by
  cases cells with
  | nil => exact .inr ⟨List.length_eq_zero_iff.mp count, rfl⟩
  | cons ref refs => exact .inl (valid.created.plain_of_ref (List.mem_cons_self ..))

/-- A tree pruned at shallow cells only stands for the original. -/
theorem Prunes.stands (shown : Prunes sha (Shallow sha) depth tree cell) (placed : cell.Placed sha depth) :
    Stands sha depth tree cell := by
  induction shown with
  | pruned shallow fits =>
    refine ⟨⟨prunedBranch_valid placed fits, ?_⟩, prunedBranch_agree placed fits shallow, Nat.zero_le _⟩
    exact le_of_eq (level_prunedBranch placed.low fits)
  | @node depth content trees cells count library _ ih =>
    obtain plain | ⟨rfl, rfl⟩ := placed.valid.plain_or_nil count
    · refine .node placed.valid plain library (forall₂_of_pairs count ?_)
      intro pair member _ inside
      exact ih pair member (placed.ref inside)
    · exact .refl placed

/-- The masks of a pruned tree and of the original agree whatever the depths are. -/
theorem Prunes.mask (shown : Prunes sha cut depth tree cell) (valid : Cell.Valid sha cell) :
    ∀ i < depth, (tree.mask sha).testBit i = (cell.mask sha).testBit i := by
  induction shown with
  | pruned =>
    intro i inside
    rw [testBit_prunedBranch]
    have other : ¬ _ = i := Nat.ne_of_gt inside
    simp [other]
  | @node depth content trees cells count _ _ ih =>
    obtain plain | ⟨rfl, rfl⟩ := valid.plain_or_nil count
    · rw [mask_mk, mask_mk]
      apply Content.levelMask_agree plain
      rw [List.forall₂_map_left_iff, List.forall₂_map_right_iff]
      refine forall₂_of_pairs count ?_
      intro pair member _ inside
      exact ih pair member (valid.valid_ref _ inside)
    · exact fun _ _ => rfl

theorem Prunes.level_le (shown : Prunes sha cut depth tree cell) (placed : cell.Placed sha depth) :
    tree.level sha ≤ depth + 1 := by
  induction shown with
  | pruned _ fits => exact le_of_eq (level_prunedBranch placed.low fits)
  | @node depth content trees cells count _ _ ih =>
    obtain plain | ⟨rfl, rfl⟩ := placed.valid.plain_or_nil count
    · have below : List.Forall₂ (fun tree _ => tree.level sha ≤ content.childMerkleDepth depth + 1) trees cells := by
        refine forall₂_of_pairs count ?_
        intro pair member _ inside
        exact ih pair member (placed.ref inside)
      exact level_le_of_refs plain below
    · exact Nat.le_succ_of_le placed.low

/-! ### Equal hashes leave shallow cells only -/

theorem Cell.Valid.child_succ_of_unset {refs : List (Cell Hash)} (valid : Cell.Valid sha (.mk content refs))
    (own : content.isPrunnedBranch = false) {i : Nat} (unset : ((Cell.mk content refs).mask sha).testBit i = false) :
    content.childHashes (refs.map (info sha)) (i + 1) = content.childHashes (refs.map (info sha)) i ∧
      content.childDepths (refs.map (info sha)) (i + 1) = content.childDepths (refs.map (info sha)) i := by
  have below : ∀ ref ∈ refs, ref.hash sha (content.childMerkleDepth i + 1) = ref.hash sha (content.childMerkleDepth i) ∧
      ref.depth sha (content.childMerkleDepth i + 1) = ref.depth sha (content.childMerkleDepth i) := by
    intro ref member
    apply Cell.hash_eq_of_unset (Nat.le_succ _)
    intro k above inside
    have only : k = content.childMerkleDepth i := by omega
    subst only
    rw [← Bool.not_eq_true]
    intro set
    rw [(valid.testBit_mask own i).mpr ⟨ref, member, set⟩] at unset
    cases unset
  simp only [childHashes, childDepths, List.map_map, content.childMerkleDepth_succ]
  exact ⟨List.map_congr_left fun ref member => (below ref member).1,
    List.map_congr_left fun ref member => (below ref member).2⟩

omit [DecidableEq Hash] in
theorem forall₂_of_map_eq {f : α → β} {l' : List α} (same : l.map f = l'.map f) :
    List.Forall₂ (fun x y => f x = f y) l l' := by
  rw [← List.forall₂_map_right_iff (f := f) (R := fun x y => f x = y), ← List.forall₂_map_left_iff (f := f) (R := Eq),
    same, List.forall₂_eq_eq_eq]

/-- A Merkle cell keeps the hash and depth of its references at level 0. -/
theorem Content.merkle_zero (merkle : content.isMerkle = true) : ∃ kept, ∀ refs, Cell.Valid sha (.mk content refs) →
    refs.map (fun ref => (ref.hash sha 0, ref.depth sha 0)) = kept := by
  cases content with
  | merkleProof hash depth =>
    refine ⟨[(hash, depth.toNat)], fun refs valid => ?_⟩
    have checked := valid.created.checkType
    rcases refs with _ | ⟨ref, _ | _⟩ <;> [cases checked; skip; cases checked]
    simp only [List.map_cons, List.map_nil, Content.checkType, check_bind, check_ok] at checked
    simp [Cell.hash, Cell.depth, checked]
  | merkleUpdate fromHash toHash fromDepth toDepth =>
    refine ⟨[(fromHash, fromDepth.toNat), (toHash, toDepth.toNat)], fun refs valid => ?_⟩
    have checked := valid.created.checkType
    rcases refs with _ | ⟨first, _ | ⟨second, _ | _⟩⟩ <;> [cases checked; cases checked; skip; cases checked]
    simp only [List.map_cons, List.map_nil, Content.checkType, check_bind, check_ok] at checked
    simp [Cell.hash, Cell.depth, checked]
  | _ => cases merkle

section

variable (injective : Function.Injective sha) (validT : Cell.Valid sha (.mk content trees))
  (validC : Cell.Valid sha (.mk content cells)) (own : content.isPrunnedBranch = false)
  (bits : ∀ i < top, ((Cell.mk content trees).mask sha).testBit i = ((Cell.mk content cells).mask sha).testBit i)
  (hashes : ∀ i ≤ top, (Cell.mk content trees).hash sha i = (Cell.mk content cells).hash sha i)
include injective validT validC own bits hashes

/-- Cells of the same data and the same hashes up to a level have references that agree. -/
theorem Cell.Valid.child_eq_of_hash : ∀ i ≤ top,
    content.childHashes (trees.map (info sha)) i = content.childHashes (cells.map (info sha)) i ∧
      content.childDepths (trees.map (info sha)) i = content.childDepths (cells.map (info sha)) i := by
  intro i
  induction i with
  | zero =>
    intro low
    have same := hashes 0 low
    simp only [Cell.hash, info_mk, info_of_not_prunned own] at same
    obtain ⟨-, -, depths, children⟩ := preimage_eq (injective same)
    exact ⟨children, depths⟩
  | succ i ih =>
    intro low
    cases set : ((Cell.mk content cells).mask sha).testBit i with
    | false =>
      have unset := (bits i (by omega)).trans set
      rw [(validT.child_succ_of_unset own unset).1, (validT.child_succ_of_unset own unset).2,
        (validC.child_succ_of_unset own set).1, (validC.child_succ_of_unset own set).2]
      exact ih (by omega)
    | true =>
      have setT := (bits i (by omega)).trans set
      have same := hashes (i + 1) low
      rw [mask_mk] at set setT
      simp only [Cell.hash, info_mk, info_of_not_prunned own, Content.hashAt, set, setT] at same
      obtain ⟨-, -, depths, children⟩ := preimage_eq (injective same)
      exact ⟨children, depths⟩

/-- Two cells of the same data that have the same hashes up to a level: all references agree, one
level further at a Merkle cell. -/
theorem Cell.Valid.refs_of_hash :
    ∀ i ≤ content.childMerkleDepth top, List.Forall₂ (fun tree cell => tree.hash sha i = cell.hash sha i ∧
      tree.depth sha i = cell.depth sha i) trees cells := by
  have same : ∀ i ≤ content.childMerkleDepth top,
      trees.map (fun ref => (ref.hash sha i, ref.depth sha i)) =
        cells.map fun ref => (ref.hash sha i, ref.depth sha i) := by
    intro i low
    by_cases inner : content.isMerkle = true ∧ i = 0
    · obtain ⟨kept, all⟩ := Content.merkle_zero inner.1
      rw [inner.2, all trees validT, all cells validC]
    have asked : ∃ j ≤ top, content.childMerkleDepth j = i := by
      unfold Content.childMerkleDepth at low ⊢
      by_cases merkle : content.isMerkle = true
      · have positive : i ≠ 0 := fun zero => inner ⟨merkle, zero⟩
        simp only [merkle, if_true] at low ⊢
        exact ⟨i - 1, by omega, by omega⟩
      · simp only [merkle] at low ⊢
        exact ⟨i, low, rfl⟩
    obtain ⟨j, within, rfl⟩ := asked
    have equal := validT.child_eq_of_hash injective validC own bits hashes j within
    simp only [childHashes, childDepths, List.map_map] at equal
    rw [← List.zip_map', ← List.zip_map']
    exact congrArg₂ List.zip equal.1 equal.2
  intro i low
  exact (forall₂_of_map_eq (same i low)).imp fun _ _ pair => Prod.mk.inj pair

end

/-- If a valid pruned tree agrees with the original, every cell that was replaced is shallow. -/
theorem Prunes.shallow_of_agree (injective : Function.Injective sha) (shown : Prunes sha cut depth tree cell)
    (valid : Cell.Valid sha tree) (placed : cell.Placed sha depth)
    (agree : ∀ i ≤ depth, tree.hash sha i = cell.hash sha i ∧ tree.depth sha i = cell.depth sha i) :
    Prunes sha (fun depth cell => cut depth cell ∧ Shallow sha depth cell) depth tree cell := by
  induction shown with
  | pruned chosen fits =>
    refine .pruned ⟨chosen, ?_⟩ fits
    intro level within
    have stored := (hash_prunedBranch placed fits within).2
    rw [(agree level within).2] at stored
    rw [stored]
    exact Nat.mod_lt _ (by decide)
  | @node depth content trees cells count library below ih =>
    refine .node count library fun pair member => ?_
    obtain ⟨inTrees, inCells⟩ := List.of_mem_zip member
    apply ih pair member (valid.valid_ref _ inTrees) (placed.ref inCells)
    intro i within
    have refs := valid.refs_of_hash injective placed.valid (placed.valid.created.plain_of_ref inCells)
      (Prunes.mask (.node count library below) placed.valid)
      (fun i inside => (agree i inside).1) i within
    exact (List.forall₂_iff_zip.mp refs).2 member

end

end

end TonStaking.Source.Cells
