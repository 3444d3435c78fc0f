import TonStaking.Source.Cells.MergedProofs

/-!
# Combining two pruned trees by hash

`combine` collects the cells that either tree shows under their hashes and rebuilds the tree from
them. A cell that one of the trees shows anywhere is shown everywhere in the result, so the
result is the tree cut at the cells that neither shows.
-/
namespace TonStaking.Source.Cells

open LevelMask Cell Collected

section

variable {Hash : Type} [DecidableEq Hash] (sha : Preimage Hash → Hash) {original tree : Cell Hash} {depth : Nat}

def KnownCell.Filled (info : KnownCell Hash) : Prop :=
  info.cell ≠ none ∨ ∃ index, info.prunnedCells index ≠ none

/-- What was stored for a cell that has been visited. -/
def Collected.Stored (known : Collected Hash) (tree : Cell Hash) (depth : Nat) : Prop :=
  if isBounded sha tree depth then (known.cells (tree.hash sha depth)).prunnedCells (tree.level sha - 1) ≠ none
  else (known.cells (tree.hash sha depth)).cell ≠ none

/-- A cell that was found at a Merkle depth, and what it stands for. -/
structure Found (shown : Hash → Prop) (hash : Hash) (tree : Cell Hash) (depth : Nat) (original : Cell Hash) : Prop where
  placed : original.Placed sha depth
  prunes : Prunes sha (Shallow sha) depth tree original
  unbounded : isBounded sha tree depth = false
  filed : original.reprHash sha = hash
  member : shown hash

/-- The collected cells are parts of pruned trees, filed under the hash of what they stand for,
and all of them have hashes in `shown`. -/
structure Collected.Sound (shown : Hash → Prop) (known : Collected Hash) : Prop where
  cell : ∀ hash tree, (known.cells hash).cell = some tree →
    ∃ depth original, Found sha shown hash tree depth original ∧ known.visited (tree.reprHash sha, depth) = true
  prunned : ∀ hash index tree, (known.cells hash).prunnedCells index = some tree →
    ∃ original : Cell Hash, original.Placed sha index ∧ index < maxLevel ∧
      Shallow sha index original ∧ original.reprHash sha = hash ∧ tree = prunedBranch sha original index
  visited : ∀ tree depth, Cell.Valid sha tree → known.visited (tree.reprHash sha, depth) = true →
    known.Stored sha tree depth

/-- A later state knows what an earlier one knew. -/
structure Collected.Grows (before after : Collected Hash) : Prop where
  visited : ∀ key, before.visited key = true → after.visited key = true
  cell : ∀ hash, (before.cells hash).cell ≠ none → (after.cells hash).cell ≠ none
  prunned : ∀ hash index, (before.cells hash).prunnedCells index ≠ none →
    (after.cells hash).prunnedCells index ≠ none

/-- The references of every cell visited since have been visited. -/
def Collected.Closed (before after : Collected Hash) : Prop :=
  ∀ tree depth, Cell.Valid sha tree → after.visited (tree.reprHash sha, depth) = true →
    before.visited (tree.reprHash sha, depth) = false → isBounded sha tree depth = false →
    ∀ ref ∈ tree.refs, after.visited (ref.reprHash sha, tree.content.childMerkleDepth depth) = true

namespace Collected

section

variable (known : Collected Hash) (hash other : Hash) (tree : Cell Hash) (key key' : Hash × Nat) (index index' : Nat)

theorem visit_visited : (known.visit key).visited key' = true ↔ key' = key ∨ known.visited key' = true := by
  unfold visit
  by_cases same : key' = key
  · simp [same]
  · simp [same]

theorem storeCell_cell :
    ((known.storeCell hash tree).cells other).cell = if other = hash then some tree else (known.cells other).cell := by
  unfold storeCell
  by_cases same : other = hash
  · simp [same]
  · simp [same]

theorem storeCell_prunnedCells :
    ((known.storeCell hash tree).cells other).prunnedCells = (known.cells other).prunnedCells := by
  unfold storeCell
  by_cases same : other = hash
  · simp [same]
  · simp [same]

theorem storePrunned_cell : ((known.storePrunned hash index tree).cells other).cell = (known.cells other).cell := by
  unfold storePrunned
  by_cases same : other = hash
  · simp [same]
  · simp [same]

theorem storePrunned_prunnedCells :
    ((known.storePrunned hash index tree).cells other).prunnedCells index' =
      if other = hash ∧ index' = index then some tree else (known.cells other).prunnedCells index' := by
  unfold storePrunned
  by_cases same : other = hash
  · by_cases here : index' = index
    · simp [same, here]
    · simp [same, here]
  · simp [same]

end

variable {sha}

omit [DecidableEq Hash] in
theorem Grows.trans {first second third : Collected Hash} (one : first.Grows second) (two : second.Grows third) :
    first.Grows third where
  visited key seen := two.visited key (one.visited key seen)
  cell hash filled := two.cell hash (one.cell hash filled)
  prunned hash index filled := two.prunned hash index (one.prunned hash index filled)

theorem Closed.trans {first second third : Collected Hash} (one : first.Closed sha second) (grows : second.Grows third)
    (two : second.Closed sha third) : first.Closed sha third := by
  intro tree depth valid after before shown ref member
  cases between : second.visited (tree.reprHash sha, depth) with
  | true => exact grows.visited _ (one tree depth valid between before shown ref member)
  | false => exact two tree depth valid after between shown ref member

omit [DecidableEq Hash] in
theorem Stored.mono {before after : Collected Hash} (grows : before.Grows after)
    (stored : before.Stored sha tree depth) : after.Stored sha tree depth := by
  unfold Stored at stored ⊢
  split
  · rename_i bounded
    rw [if_pos bounded] at stored
    exact grows.prunned _ _ stored
  · rename_i shown
    rw [if_neg shown] at stored
    exact grows.cell _ stored

theorem grows_storeCell (known : Collected Hash) (key : Hash × Nat) (hash : Hash) (tree : Cell Hash) :
    known.Grows ((known.visit key).storeCell hash tree) where
  visited other seen := (visit_visited known key other).mpr (.inr seen)
  cell other filled := by
    rw [storeCell_cell]
    split
    · simp
    · exact filled
  prunned other index filled := by
    rw [storeCell_prunnedCells]
    exact filled

theorem grows_storePrunned (known : Collected Hash) (key : Hash × Nat) (hash : Hash) (index : Nat) (tree : Cell Hash) :
    known.Grows ((known.visit key).storePrunned hash index tree) where
  visited other seen := (visit_visited known key other).mpr (.inr seen)
  cell other filled := by
    rw [storePrunned_cell]
    exact filled
  prunned other index' filled := by
    rw [storePrunned_prunnedCells]
    split
    · simp
    · exact filled

end Collected

/-! ### One cell -/

section

variable {sha}
variable {shown : Hash → Prop} {known : Collected Hash} {tree original : Cell Hash} {depth : Nat}

theorem Stands.reprHash (stands : Stands sha depth tree original) (placed : original.Placed sha depth) :
    tree.hash sha depth = original.reprHash sha :=
  (stands.agree.hash depth (le_refl depth)).trans placed.hash_eq.1

namespace Collected.Sound

variable (injective : Function.Injective sha) (sound : known.Sound sha shown)
include injective sound

/-- What is stored for every visited cell, after one more was visited and stored. -/
theorem visited_after {after : Collected Hash}
    (validTree : Cell.Valid sha tree) (grows : known.Grows after) (stored : after.Stored sha tree depth)
    (seen : ∀ key, after.visited key = true → key = (tree.reprHash sha, depth) ∨ known.visited key = true) :
    ∀ other place, Cell.Valid sha other → after.visited (other.reprHash sha, place) = true →
      after.Stored sha other place := by
  intro other place valid visited
  cases seen _ visited with
  | inl same =>
    have hash := congrArg Prod.fst same
    have here := congrArg Prod.snd same
    have equal := valid.eq_of_reprHash sha injective validTree hash
    simp only at here
    rw [equal, here]
    exact stored
  | inr before => exact (sound.visited other place valid before).mono grows

theorem storeCell (placed : original.Placed sha depth) (pruned : Prunes sha (Shallow sha) depth tree original)
    (bounded : isBounded sha tree depth = false) (inside : shown (tree.hash sha depth)) :
    ((known.visit (tree.reprHash sha, depth)).storeCell (tree.hash sha depth) tree).Sound sha shown := by
  have stands := pruned.stands placed
  refine ⟨?_, ?_, ?_⟩
  · intro hash found stored
    rw [storeCell_cell] at stored
    split at stored
    · rename_i same
      cases stored
      subst same
      exact ⟨depth, original, ⟨placed, pruned, bounded, (stands.reprHash placed).symm, inside⟩,
        (visit_visited known _ _).mpr (.inl rfl)⟩
    · obtain ⟨place, cell, found, seen⟩ := sound.cell hash found stored
      exact ⟨place, cell, found, (visit_visited known _ _).mpr (.inr seen)⟩
  · intro hash index found stored
    rw [storeCell_prunnedCells] at stored
    exact sound.prunned hash index found stored
  · apply sound.visited_after injective stands.placed.valid (grows_storeCell known _ _ _) ?_
      (fun key => (visit_visited known _ key).mp)
    rw [Stored, if_neg (by simp [bounded]), storeCell_cell, if_pos rfl]
    simp

theorem storePrunned (placed : original.Placed sha depth) (fits : depth < maxLevel)
    (shallow : Shallow sha depth original) :
    ((known.visit ((prunedBranch sha original depth).reprHash sha, depth)).storePrunned
      ((prunedBranch sha original depth).hash sha depth) depth (prunedBranch sha original depth)).Sound sha shown := by
  have stands := (Prunes.pruned shallow fits).stands placed
  refine ⟨?_, ?_, ?_⟩
  · intro hash found stored
    rw [storePrunned_cell] at stored
    obtain ⟨place, cell, found, seen⟩ := sound.cell hash found stored
    exact ⟨place, cell, found, (visit_visited known _ _).mpr (.inr seen)⟩
  · intro hash index found stored
    rw [storePrunned_prunnedCells] at stored
    split at stored
    · rename_i same
      cases stored
      rw [same.1, same.2]
      exact ⟨original, placed, fits, shallow, (stands.reprHash placed).symm, rfl⟩
    · exact sound.prunned hash index found stored
  · apply sound.visited_after injective stands.placed.valid (grows_storePrunned known _ _ _ _) ?_
      (fun key => (visit_visited known _ key).mp)
    rw [Stored, if_pos (isBounded_prunedBranch placed.low fits), storePrunned_prunnedCells,
      if_pos ⟨rfl, by rw [level_prunedBranch placed.low fits]; rfl⟩]
    simp

/-- The pruned branches that are filed under the hash of a cell are branches of it. -/
theorem branch (valid : Cell.Valid sha original) ⦃index : Nat⦄ ⦃tree : Cell Hash⦄
    (stored : (known.cells (original.reprHash sha)).prunnedCells index = some tree) :
    original.Placed sha index ∧ index < maxLevel ∧ Shallow sha index original ∧
      tree = prunedBranch sha original index := by
  obtain ⟨other, placed, fits, shallow, hash, same⟩ := sound.prunned _ index tree stored
  cases placed.valid.eq_of_reprHash sha injective valid hash
  exact ⟨placed, fits, shallow, same⟩

end Collected.Sound

end

/-! ### Whole trees -/

/-- The state after a tree was collected. -/
structure Collects (shown : Hash → Prop) (before after : Collected Hash) (trees : List (Cell Hash)) (depth : Nat) :
    Prop where
  sound : after.Sound sha shown
  grows : before.Grows after
  closed : before.Closed sha after
  seen : ∀ tree ∈ trees, after.visited (tree.reprHash sha, depth) = true

section

variable {sha}
variable {shown : Hash → Prop} {known : Collected Hash}
variable {depth : Nat} {tree : Cell Hash}

theorem Collects.refl {trees : List (Cell Hash)} (sound : known.Sound sha shown)
    (seen : ∀ tree ∈ trees, known.visited (tree.reprHash sha, depth) = true) :
    Collects sha shown known known trees depth where
  sound := sound
  grows := ⟨fun _ seen => seen, fun _ filled => filled, fun _ _ filled => filled⟩
  closed _ _ _ after before := by
    rw [before] at after
    cases after
  seen := seen

theorem collectRefs_collects {trees originals : List (Cell Hash)}
    (each : List.Forall₂ (fun tree _ => ∀ known : Collected Hash, known.Sound sha shown →
      Collects sha shown known (collect sha tree depth known) [tree] depth) trees originals)
    (sound : known.Sound sha shown) :
    Collects sha shown known (collectRefs sha trees depth known) trees depth := by
  induction each generalizing known with
  | nil => exact .refl sound nofun
  | @cons tree _ trees _ head _ ih =>
    have first := head known sound
    have rest := ih first.sound
    refine ⟨rest.sound, first.grows.trans rest.grows, first.closed.trans rest.grows rest.closed, ?_⟩
    intro other member
    cases member with
    | head => exact rest.grows.visited _ (first.seen tree (List.mem_cons_self ..))
    | tail _ later => exact rest.seen other later

/-- A visit adds one cell to those visited. -/
theorem visit_only (injective : Function.Injective sha) (validTree : Cell.Valid sha tree) {other : Cell Hash} {place : Nat}
    (valid : Cell.Valid sha other)
    (after : (known.visit (tree.reprHash sha, depth)).visited (other.reprHash sha, place) = true)
    (before : known.visited (other.reprHash sha, place) = false) : other = tree ∧ place = depth := by
  rcases (visit_visited known _ _).mp after with same | earlier
  · exact ⟨valid.eq_of_reprHash sha injective validTree (congrArg Prod.fst same), congrArg Prod.snd same⟩
  · rw [earlier] at before
    cases before

/-- `MerkleProofCombine::dfs` of a pruned tree stores its cells and those below. -/
theorem collect_collects (injective : Function.Injective sha) (placed : original.Placed sha depth)
    (pruned : Prunes sha (Shallow sha) depth tree original)
    (inside : ∀ hash ∈ readables sha depth tree, shown hash) (sound : known.Sound sha shown) :
    Collects sha shown known (collect sha tree depth known) [tree] depth := by
  induction original using induction generalizing tree depth known with
  | step content originals ih =>
    have validTree := (pruned.stands placed).placed.valid
    cases visited : known.visited (tree.reprHash sha, depth) with
    | true =>
      have same : collect sha tree depth known = known := by
        cases tree with
        | mk contentT refs => rw [collect, if_pos visited]
      rw [same]
      refine .refl sound fun other member => ?_
      rw [List.mem_singleton.mp member]
      exact visited
    | false =>
      cases pruned with
      | pruned shallow fits =>
        have bounded := isBounded_prunedBranch placed.low fits
        have result : collect sha (prunedBranch sha (.mk content originals) depth) depth known =
            (known.visit ((prunedBranch sha (.mk content originals) depth).reprHash sha, depth)).storePrunned
              ((prunedBranch sha (.mk content originals) depth).hash sha depth) depth
              (prunedBranch sha (.mk content originals) depth) := by
          have level := level_prunedBranch placed.low fits
          generalize prunedBranch sha (.mk content originals) depth = branch at visited bounded level
          cases branch with
          | mk contentT refs =>
            rw [collect, if_neg (by simp [visited]), if_pos bounded, level]
            rfl
        rw [result]
        refine ⟨sound.storePrunned injective placed fits shallow, Collected.grows_storePrunned known _ _ _ _, ?_, ?_⟩
        · intro other place validOther after before shownOther
          obtain ⟨rfl, rfl⟩ := visit_only injective validTree validOther after before
          rw [bounded] at shownOther
          cases shownOther
        · intro other member
          rw [List.mem_singleton.mp member]
          exact (visit_visited known _ _).mpr (.inl rfl)
      | @node _ _ trees _ count library below =>
        have bounded := placed.not_bounded count
        have stored := sound.storeCell injective placed (.node count library below) bounded
          (inside _ ((mem_readables bounded).mpr (.inl rfl)))
        rw [collect, if_neg (by simp [visited]), if_neg (by simp [bounded])]
        have each : List.Forall₂ (fun tree _ => ∀ known : Collected Hash, known.Sound sha shown →
            Collects sha shown known (collect sha tree (content.childMerkleDepth depth) known) [tree]
              (content.childMerkleDepth depth)) trees originals :=
          forall₂_of_pairs count fun pair member inTrees inOriginals known sound =>
            ih pair.2 inOriginals (placed.ref inOriginals) (below pair member)
              (fun hash deeper => inside hash ((mem_readables bounded).mpr (.inr ⟨pair.1, inTrees, deeper⟩))) sound
        have rest := collectRefs_collects each stored
        refine ⟨rest.sound, (Collected.grows_storeCell known _ _ _).trans rest.grows, ?_, ?_⟩
        · intro other place validOther after before shownOther ref member
          cases between : ((known.visit ((mk content trees).reprHash sha, depth)).storeCell
              ((mk content trees).hash sha depth) (.mk content trees)).visited (other.reprHash sha, place) with
          | true =>
            obtain ⟨rfl, rfl⟩ := visit_only injective validTree validOther between before
            exact rest.seen ref member
          | false => exact rest.closed other place validOther after between shownOther ref member
        · intro other member
          rw [List.mem_singleton.mp member]
          exact rest.grows.visited _ ((visit_visited known _ _).mpr (.inl rfl))

omit [DecidableEq Hash] in
theorem Collected.Stored.filled (stored : known.Stored sha tree depth) :
    (known.cells (tree.hash sha depth)).Filled := by
  unfold Collected.Stored at stored
  split at stored
  · exact .inr ⟨_, stored⟩
  · exact .inl stored

theorem Collected.Closed.cell_ne_none (sound : known.Sound sha shown) (closed : empty.Closed sha known)
    (valid : Cell.Valid sha tree) (visited : known.visited (tree.reprHash sha, depth) = true) {hash : Hash}
    (inside : hash ∈ readables sha depth tree) : (known.cells hash).cell ≠ none := by
  induction tree using induction generalizing depth with
  | step content refs ih =>
    cases bounded : isBounded sha (.mk content refs) depth with
    | true =>
      rw [readables_bounded bounded] at inside
      cases inside
    | false =>
      rw [mem_readables bounded] at inside
      rcases inside with rfl | ⟨ref, member, deeper⟩
      · have stored := sound.visited _ depth valid visited
        rwa [Collected.Stored, if_neg (by simp [bounded])] at stored
      · exact ih ref member (valid.valid_ref ref member)
          (closed _ depth valid visited rfl bounded ref member) deeper

end

/-- What `create_A` needs of the collected cells. -/
structure Table (shown : Hash → Prop) (known : Collected Hash) : Prop extends Collected.Sound sha shown known where
  closed : empty.Closed sha known
  complete : ∀ hash, shown hash → (known.cells hash).cell ≠ none

section

variable {sha}

/-- The cells collected from two pruned trees. -/
theorem collect_table (injective : Function.Injective sha) {a b : Cell Hash} (placed : original.Placed sha depth)
    (shownA : Prunes sha (Shallow sha) depth a original) (shownB : Prunes sha (Shallow sha) depth b original) :
    Table sha (fun hash => hash ∈ readables sha depth a ∨ hash ∈ readables sha depth b)
        (collect sha b depth (collect sha a depth .empty)) ∧
      ((collect sha b depth (collect sha a depth .empty)).cells (original.reprHash sha)).Filled := by
  have nothing : empty.Sound sha fun hash => hash ∈ readables sha depth a ∨ hash ∈ readables sha depth b :=
    ⟨nofun, nofun,
      nofun⟩
  have first := collect_collects injective placed shownA (fun hash => .inl) nothing
  have second := collect_collects injective placed shownB (fun hash => .inr) first.sound
  have standsA := shownA.stands placed
  have standsB := shownB.stands placed
  have closed := first.closed.trans second.grows second.closed
  have seenA := second.grows.visited _ (first.seen a (List.mem_singleton_self a))
  have seenB := second.seen b (List.mem_singleton_self b)
  refine ⟨⟨second.sound, closed, ?_⟩, ?_⟩
  · intro hash either
    cases either with
    | inl inA => exact closed.cell_ne_none second.sound standsA.placed.valid seenA inA
    | inr inB => exact closed.cell_ne_none second.sound standsB.placed.valid seenB inB
  · rw [← standsB.reprHash placed]
    exact (second.sound.visited b depth standsB.placed.valid seenB).filled

variable {shown : Hash → Prop} {known : Collected Hash}

/-- A cell that was collected stands for the cell with its hash, and something was collected for each reference. -/
theorem Table.node (injective : Function.Injective sha) (table : Table sha shown known) {content : Content Hash}
    {originals : List (Cell Hash)} (valid : Cell.Valid sha (.mk content originals))
    (found : (known.cells ((Cell.mk content originals).reprHash sha)).cell = some tree) :
    shown ((Cell.mk content originals).reprHash sha) ∧
      ∃ depth trees, tree = .mk content trees ∧ (Cell.mk content originals).Placed sha depth ∧ trees.length = originals.length ∧
        ∀ pair ∈ trees.zip originals, Prunes sha (Shallow sha) (content.childMerkleDepth depth) pair.1 pair.2 ∧
          (known.cells (pair.2.reprHash sha)).Filled := by
  obtain ⟨depth, other, found, seen⟩ := table.cell _ tree found
  cases found.placed.valid.eq_of_reprHash sha injective valid found.filed
  refine ⟨found.member, ?_⟩
  have bounded := found.unbounded
  have validTree := (found.prunes.stands found.placed).placed.valid
  cases found.prunes with
  | pruned _ fits =>
    rw [isBounded_prunedBranch found.placed.low fits] at bounded
    cases bounded
  | @node _ _ trees _ count _ below =>
    refine ⟨depth, trees, rfl, found.placed, count, fun pair member => ⟨below pair member, ?_⟩⟩
    obtain ⟨inTrees, inOriginals⟩ := List.of_mem_zip member
    have placed := found.placed.ref inOriginals
    rw [← ((below pair member).stands placed).reprHash placed]
    have visited := table.closed _ depth validTree seen rfl bounded pair.1 inTrees
    exact (table.visited pair.1 _ (validTree.valid_ref _ inTrees) visited).filled

def keepsShown (sha : Preimage Hash → Hash) (shown : Hash → Prop) [DecidablePred shown] (cell : Cell Hash) : Bool :=
  decide (shown (cell.reprHash sha))

/-! ### Library cells that are shown -/

/-- A cell whose whole tree is shown is kept with all that is below it. -/
theorem whole_of_readables [DecidablePred shown] {cell : Cell Hash} (placed : cell.Placed sha depth)
    (all : ∀ hash ∈ readables sha depth cell, shown hash) :
    Whole (keepsShown sha shown) cell := by
  induction cell using induction generalizing depth with
  | step content refs ih =>
    have bounded : isBounded sha (.mk content refs) depth = false := placed.not_bounded rfl
    have here := all _ ((mem_readables bounded).mpr (.inl rfl))
    rw [placed.hash_eq.1] at here
    refine .mk (decide_eq_true here) fun ref member => ?_
    exact ih ref member (placed.ref member) fun hash inside =>
      all hash ((mem_readables bounded).mpr (.inr ⟨ref, member, inside⟩))

/-- A library cell that a pruned tree shows is shown with all that is below it. -/
theorem Prunes.library_whole [DecidablePred shown] (injective : Function.Injective sha)
    (pruned : Prunes sha (Shallow sha) depth tree original) (placed : original.Placed sha depth)
    (all : ∀ hash ∈ readables sha depth tree, shown hash) {library : Hash}
    {refs : List (Cell Hash)} (validL : Cell.Valid sha (.mk (.library library) refs))
    (inside : (Cell.mk (.library library) refs).reprHash sha ∈ readables sha depth tree) :
    ∀ ref ∈ refs, Whole (keepsShown sha shown) ref := by
  induction original using induction generalizing tree depth with
  | step content originals ih =>
    have stands := pruned.stands placed
    cases pruned with
    | pruned _ fits =>
      rw [readables_bounded (isBounded_prunedBranch placed.low fits)] at inside
      cases inside
    | @node _ _ trees _ count whole below =>
      have bounded := placed.not_bounded count
      have deeper : ∀ tree ∈ trees, ∀ hash ∈ readables sha (content.childMerkleDepth depth) tree, shown hash :=
        fun tree member hash there => all hash ((mem_readables bounded).mpr (.inr ⟨tree, member, there⟩))
      rcases (mem_readables bounded).mp inside with same | ⟨child, member, found⟩
      · rw [stands.reprHash placed] at same
        cases validL.eq_of_reprHash sha injective placed.valid same
        rw [whole library rfl] at deeper
        intro ref member
        exact whole_of_readables (placed.ref member) (deeper ref member)
      · obtain ⟨ref, present, prunesRef⟩ := forall₂_mem_left (Prunes.refs count below) member
        exact ih ref present prunesRef (placed.ref present) (deeper child member) found

theorem librariesWhole_of_shown [DecidablePred shown] {cell : Cell Hash} (valid : Cell.Valid sha cell)
    (library : ∀ hash refs, Cell.Valid sha (.mk (.library hash) refs) → shown ((Cell.mk (.library hash) refs).reprHash sha) →
      ∀ ref ∈ refs, Whole (keepsShown sha shown) ref) : LibrariesWhole (keepsShown sha shown) cell := by
  induction cell using induction with
  | step content refs ih =>
    cases kept : keepsShown sha shown (.mk content refs) with
    | false => exact .cut kept
    | true =>
      refine .kept kept ?_ fun ref member => ih ref member (valid.valid_ref ref member)
      rintro hash rfl
      exact library hash refs valid (of_decide_eq_true kept)

/-! ### Building the tree -/

omit [DecidableEq Hash] in
/-- The mask of a cell is what is left of the mask of a tree that stands for it. -/
theorem Agree.apply_mask {cell : Cell Hash} {top level : Nat} (agree : Agree top (tree.info sha) (cell.info sha))
    (low : cell.level sha ≤ level) (inside : level ≤ top) : apply (tree.mask sha) level = cell.mask sha := by
  apply Nat.eq_of_testBit_eq
  intro i
  rw [testBit_apply]
  by_cases below : i < level
  · rw [decide_eq_true below, Bool.true_and]
    exact agree.mask i (lt_of_lt_of_le below inside)
  · rw [decide_eq_false below, Bool.false_and]
    exact (getLevel_le_iff.mp low i (not_lt.mp below)).symm

/-- A pruned branch made from another pruned branch of the same cell. -/
theorem createPrunedBranch_again {index : Nat} (placed : original.Placed sha index)
    (fits : index < maxLevel) (shallow : Shallow sha index original)
    (within : original.level sha ≤ depth) (tree : Cell Hash) :
    createPrunedBranch sha (prunedBranch sha original index) (depth + 1) (original.level sha) = .ok tree ↔
      Cell.Created sha (prunedBranch sha original depth) ∧ tree = prunedBranch sha original depth := by
  have low := placed.low
  have agree := prunedBranch_agree placed fits shallow
  have level := level_prunedBranch low fits
  have masks : apply ((prunedBranch sha original index).mask sha) (original.level sha) = original.mask sha :=
    agree.apply_mask (le_refl _) low
  have high : ¬ depth + 1 < getLevel (original.mask sha) + 1 := by
    have bound : getLevel (original.mask sha) ≤ depth := within
    omega
  have below : ∀ i ∈ significantLevels (original.mask sha), i ≤ index := by
    intro i significant
    rw [significantLevels, List.mem_filter, List.mem_range] at significant
    exact le_trans (Nat.lt_succ_iff.mp significant.1) low
  have hashes : (significantLevels (original.mask sha)).map ((prunedBranch sha original index).hash sha) =
      (significantLevels (original.mask sha)).map (original.hash sha) :=
    List.map_congr_left fun i significant => agree.hash i (below i significant)
  have depths : ((significantLevels (original.mask sha)).map fun i =>
        BitVec.ofNat 16 ((prunedBranch sha original index).depth sha i)) =
      (significantLevels (original.mask sha)).map fun i => BitVec.ofNat 16 (original.depth sha i) :=
    List.map_congr_left fun i significant => congrArg (BitVec.ofNat 16) (agree.depth i (below i significant))
  rw [createPrunedBranch, if_neg (by rw [level]; omega), doCreatePrunedBranch]
  simp only [masks, high, if_false, hashes, depths]
  exact finalize_leaf

/-- Which pruned branch `do_create_A` takes does not matter. -/
theorem createPrunned_ok (injective : Function.Injective sha) (sound : known.Sound sha shown)
    (placed : original.Placed sha depth)
    (filled : (known.cells (original.reprHash sha)).Filled) (hidden : (known.cells (original.reprHash sha)).cell = none)
    (tree : Cell Hash) :
    createPrunned sha (known.cells (original.reprHash sha)) (original.level sha) depth = .ok tree ↔
      Cell.Created sha (prunedBranch sha original depth) ∧ tree = prunedBranch sha original depth := by
  have stored := sound.branch injective placed.valid
  generalize known.cells (original.reprHash sha) = known at *
  have indexed : ∀ index, known.getPrunnedCell index = known.prunnedCells index := by
    intro index
    unfold KnownCell.getPrunnedCell
    split
    · rfl
    rename_i beyond
    cases found : known.prunnedCells index with
    | none => rfl
    | some cell => exact absurd (stored found).2.1 beyond
  unfold createPrunned
  rw [indexed]
  cases here : known.prunnedCells depth with
  | some found =>
    obtain ⟨-, fits, -, rfl⟩ := stored here
    simp only [Except.ok.injEq]
    exact ⟨fun same => ⟨(prunedBranch_valid placed fits).created, same.symm⟩, fun made => made.2.symm⟩
  | none =>
    have any : ∃ index found, known.getAnyCell = some found ∧ known.prunnedCells index = some found := by
      unfold KnownCell.getAnyCell
      rw [hidden, indexed, indexed, indexed]
      cases zero : known.prunnedCells 0 with
      | some found => exact ⟨0, found, rfl, zero⟩
      | none =>
        cases one : known.prunnedCells 1 with
        | some found => exact ⟨1, found, rfl, one⟩
        | none =>
          cases two : known.prunnedCells 2 with
          | some found => exact ⟨2, found, rfl, two⟩
          | none =>
            exfalso
            rcases filled with cell | ⟨index, present⟩
            · exact cell hidden
            cases found : known.prunnedCells index with
            | none => exact present found
            | some branch =>
              have bound := (stored found).2.1
              have small : index = 0 ∨ index = 1 ∨ index = 2 := by
                unfold maxLevel at bound
                omega
              rcases small with rfl | rfl | rfl
              · exact present zero
              · exact present one
              · exact present two
    obtain ⟨index, found, taken, at_index⟩ := any
    obtain ⟨low, fits, shallow, rfl⟩ := stored at_index
    rw [taken]
    exact createPrunedBranch_again low fits shallow placed.low tree

/-- `create_A` makes the tree cut at the cells that neither tree shows, from any tree that stands
for the cell. -/
theorem createA_rebuilds [DecidablePred shown] (injective : Function.Injective sha) (table : Table sha shown known)
    {fuel merkleDepth aMerkleDepth place : Nat} {results : Memo Hash}
    (placed : original.Placed sha merkleDepth) (inside : merkleDepth ≤ place)
    (within : original.level sha ≤ aMerkleDepth) (pruned : Prunes sha (Shallow sha) place tree original)
    (filled : (known.cells (original.reprHash sha)).Filled) (enough : original.height < fuel)
    (sound : results.Sound sha (Cuts sha (keepsShown sha shown))) :
    Rebuilds sha (Cuts sha (keepsShown sha shown))
      (Cell.Created sha (cutTree sha (keepsShown sha shown) aMerkleDepth original)) original aMerkleDepth
      (createA sha known.cells fuel merkleDepth aMerkleDepth tree results) := by
  induction original using induction generalizing tree fuel merkleDepth aMerkleDepth place results with
  | step content originals ih =>
    have valid := placed.valid
    have stands := pruned.stands ⟨valid, le_trans placed.low inside⟩
    have level : getLevel (apply (tree.mask sha) merkleDepth) = (mk content originals).level sha :=
      congrArg getLevel (stands.agree.apply_mask placed.low inside)
    have hash : tree.hash sha ((mk content originals).level sha) = (mk content originals).reprHash sha :=
      (stands.agree.hash _ (le_trans placed.low inside)).trans (Placed.hash_eq ⟨valid, le_refl _⟩).1
    cases fuel with
    | zero => exact absurd enough (Nat.not_lt_zero _)
    | succ fuel =>
    simp only [createA, level, hash]
    cases kept : results ((mk content originals).reprHash sha, aMerkleDepth) with
    | some result => exact .known injective valid sound kept
    | none =>
      cases found : (known.cells ((mk content originals).reprHash sha)).cell with
      | none =>
        have cut : keepsShown sha shown (.mk content originals) = false := by
          rw [keepsShown, decide_eq_false_iff_not]
          intro member
          exact table.complete _ member found
        exact .cutCell valid cut rfl sound (createPrunned_ok injective table.toSound ⟨valid, within⟩ filled found)
      | some stored =>
        obtain ⟨member, depth, trees, rfl, placedHere, count, each⟩ := table.node injective valid found
        have kept : keepsShown sha shown (.mk content originals) = true := decide_eq_true member
        cases empty : trees.isEmpty with
        | true =>
          have noTrees : trees = [] := List.isEmpty_iff.mp empty
          subst noTrees
          have noOriginals : originals = [] := List.length_eq_zero_iff.mp count.symm
          subst noOriginals
          exact .leaf valid kept rfl sound
        | false =>
          simp only [Cell.refs_mk, empty, Bool.false_eq_true, if_false, Cell.content_mk]
          refine .keptNode valid kept rfl sound (forall₂_of_pairs count ?_)
          intro pair inZip inTrees inOriginals results sound
          refine ih pair.2 inOriginals (Placed.ref ⟨valid, le_refl _⟩ inOriginals)
            (content.childMerkleDepth_le placedHere.low) (Placed.ref ⟨valid, within⟩ inOriginals).low (each pair inZip).1
            (each pair inZip).2 ?_ sound
          have higher := Cell.heightRefs_le_iff.mp (Nat.lt_succ_iff.mp enough) pair.2 inOriginals
          omega

end

end

end TonStaking.Source.Cells
