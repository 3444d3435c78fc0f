import TonStaking.Source.Cells.CombinedProofs

/-!
# Merkle proofs

When `generate` gives a proof that reads back like the tree it was made from, and when `combine`
and `combine_fast` give a proof of the same root that shows what either of two proofs shows.
-/
namespace TonStaking.Guarantees.MerkleProofs

open TonStaking.Source.Cells TonStaking.Source.Cells.LevelMask Content

section

variable {Hash : Type} [DecidableEq Hash] (sha : Preimage Hash → Hash)

/-- A Merkle proof cell of a root: below it is the tree of the root with some cells replaced by
their pruned branches, none of them below a library cell. -/
structure ProofOf (root proof tree : Cell Hash) : Prop where
  cell : proof = .mk (.merkleProof (root.hash sha 0) (BitVec.ofNat 16 (root.depth sha 0))) [tree]
  created : Cell.Created sha proof
  shown : Prunes sha (fun _ _ => True) 0 tree root

/-- A cell with this hash can be read from a proof. -/
def Readable (proof : Cell Hash) (hash : Hash) : Prop :=
  ∃ root, virtualizeProof sha proof = .ok root ∧ root.Reads sha hash

/-- The cells that are not pruned are read with the same data and references; no others are read. -/
def ReadsBack (isPrunned : Cell Hash → Bool) (cell : Cell Hash) (root : VirtualCell Hash) : Prop :=
  ∀ path last, cell.follow path = some last →
    (cell.visible (keeps isPrunned) path = true → ∃ virt refs, root.follow sha path = some virt ∧
      virt.load sha = some (last.content, refs) ∧
      refs.map (fun ref => (ref.getHash sha maxLevel, ref.getDepth sha maxLevel)) =
        last.refs.map fun ref => (ref.reprHash sha, ref.depth sha maxLevel)) ∧
    (cell.visible (keeps isPrunned) path = false → ∀ virt, root.follow sha path = some virt → virt.load sha = none)

/-- `generate` succeeds and its result stands for the root. -/
def GenerateHolds (cell : Cell Hash) (isPrunned : Cell Hash → Bool) : Prop :=
  ∃ proof root, generate sha cell isPrunned = .ok proof ∧ virtualizeProof sha proof = .ok root ∧
    root.getHash sha 0 = cell.hash sha 0 ∧ root.getDepth sha 0 = cell.depth sha 0 ∧ ReadsBack sha isPrunned cell root

/-- A combination of two proofs is a proof of the root, and shows what either shows. -/
def CombineHolds (run : Except Failure (Cell Hash)) (root a b : Cell Hash) : Prop :=
  ∃ proof tree, run = .ok proof ∧ ProofOf sha root proof tree ∧
    ∀ hash, Readable sha proof hash ↔ Readable sha a hash ∨ Readable sha b hash

/-- The pruned branches that are made have levels up to 3. -/
def LevelsFit (keep : Cell Hash → Bool) (cell : Cell Hash) : Prop :=
  EveryCut keep (fun depth _ => depth + 1 ≤ maxLevel) 0 cell

/-- The hashes that two trees show. -/
abbrev shownBy (a b : Cell Hash) (hash : Hash) : Prop := hash ∈ readables sha 0 a ∨ hash ∈ readables sha 0 b

section

variable {sha}
variable {cell tree proof root : Cell Hash} {hash : Hash} {isPrunned : Cell Hash → Bool} {depth : Nat}
  {shown : Hash → Prop}

/-! ### Proof cells -/

theorem depth_le (valid : Cell.Valid sha cell) (level : Nat) : cell.depth sha level ≤ maxDepth := by
  cases cell with
  | mk content refs =>
  rw [Cell.depth, Cell.info_mk]
  cases content using casesPrunned with
  | prunned mask hashes depths =>
    have none := valid.created.prunned.1
    subst none
    simp only [info]
    split
    · exact Nat.zero_le _
    cases depths[getHashI (apply mask level)]? with
    | none => exact Nat.zero_le _
    | some stored =>
      have byte : loadDepth stored ≤ 255 := by
        exact Nat.and_le_right
      exact le_trans byte (by decide)
  | plain content plain =>
    rw [info_of_not_prunned plain]
    have fits := (checkCell_ok.mp valid.accepted).2.2.2
    have bounded : ∀ i, i ∈ significantLevels (content.levelMask (refs.map (Cell.info sha))) →
        content.calcDepth (refs.map (Cell.info sha)) i ≤ maxDepth := by
      intro i significant
      unfold calcDepth
      split
      · exact Nat.zero_le _
      have below := fits i significant
      generalize content.childDepths (refs.map (Cell.info sha)) i = depths at below
      have all : depths.foldr max 0 < maxDepth := by
        induction depths with
        | nil => decide
        | cons x depths ih =>
          exact max_lt (below x (List.mem_cons_self ..)) (ih fun y member => below y (List.mem_cons_of_mem x member))
      exact all
    induction level with
    | zero => exact bounded 0 (mem_significantLevels.mpr rfl)
    | succ level ih =>
      simp only [depthAt]
      split
      · rename_i set
        exact bounded (level + 1) (mem_significantLevels.mpr (by simpa [isSignificant] using set))
      · exact ih

theorem height_le (valid : Cell.Valid sha cell) : cell.height ≤ maxDepth := by
  rw [← Cell.Placed.depth_eq_height ⟨valid, le_refl (cell.level sha)⟩]
  exact depth_le valid _

/-- The proof cell over a tree of level 1. -/
def proofCell (sha : Preimage Hash → Hash) (tree : Cell Hash) : Cell Hash :=
  .mk (.merkleProof (tree.hash sha 0) (BitVec.ofNat 16 (tree.depth sha 0))) [tree]

omit [DecidableEq Hash] in
theorem level_merkleProof (hash : Hash) (depth : BitVec 16) (low : tree.level sha ≤ 1) :
    (Cell.mk (.merkleProof hash depth) [tree]).level sha = 0 := by
  have small : tree.mask sha < 2 := getLevel_le_iff_lt.mp low
  rw [Cell.level, Cell.mask_mk]
  have none : levelMask (.merkleProof hash depth) ([tree].map (Cell.info sha)) = 0 := by
    simp only [levelMask, unionMask, List.map_cons, List.map_nil, List.foldr_cons, List.foldr_nil, Nat.or_zero]
    exact Nat.shiftRight_eq_zero _ 1 small
  rw [none]
  rfl

theorem createMerkleProof_ok (placed : tree.Placed sha 1) :
    createMerkleProof sha tree = .ok proof ↔ tree.height < maxDepth ∧ proof = proofCell sha tree := by
  have level := level_merkleProof (tree.hash sha 0) (BitVec.ofNat 16 (tree.depth sha 0)) placed.low
  have mask : levelMask (.merkleProof (tree.hash sha 0) (BitVec.ofNat 16 (tree.depth sha 0)))
      ([tree].map (Cell.info sha)) = 0 := by
    exact Nat.lt_one_iff.mp (getLevel_le_iff_lt.mp (le_of_eq level))
  have deep : tree.depth sha 1 = tree.height := placed.depth_eq_height
  have stored : (BitVec.ofNat 16 (tree.depth sha 0)).toNat = tree.depth sha 0 := by
    exact Nat.mod_eq_of_lt (lt_of_le_of_lt (depth_le placed.valid 0) (by decide))
  rw [createMerkleProof, finalize_ok, checkCell_ok]
  have type : checkType (.merkleProof (tree.hash sha 0) (BitVec.ofNat 16 (tree.depth sha 0)))
      ([tree].map (Cell.info sha)) = .ok () := by
    simp only [checkType, List.map_cons, List.map_nil, check_bind, check_ok]
    exact ⟨rfl, stored⟩
  have fits : depthsFit (.merkleProof (tree.hash sha 0) (BitVec.ofNat 16 (tree.depth sha 0)))
      ([tree].map (Cell.info sha)) ↔ tree.height < maxDepth := by
    have zero : significantLevels 0 = [0] := by decide
    rw [depthsFit, mask, zero, ← deep]
    simp [childDepths, childMerkleDepth, isMerkle, Cell.depth]
  constructor
  · rintro ⟨⟨-, -, -, fit⟩, made⟩
    exact ⟨fits.mp fit, made⟩
  · rintro ⟨bound, made⟩
    exact ⟨⟨type, by simp [size, maxBits], by simp [maxRefs], fits.mpr bound⟩, made⟩

theorem proofCell_created (placed : tree.Placed sha 1) (bound : tree.height < maxDepth) :
    Cell.Created sha (proofCell sha tree) := by
  have made := (createMerkleProof_ok placed).mpr ⟨bound, rfl⟩
  rw [createMerkleProof, finalize_ok] at made
  refine .mk _ _ made.1 fun ref member => ?_
  rw [List.mem_singleton.mp member]
  exact placed.valid.created

omit [DecidableEq Hash] in
theorem virtualizeProof_merkleProof {depth : BitVec 16} (low : tree.level sha ≤ 1) :
    unpackProof sha (.mk (.merkleProof hash depth) [tree]) = .ok tree ∧
      virtualizeProof sha (.mk (.merkleProof hash depth) [tree]) = .ok (virtualize sha 0 tree) := by
  have level := level_merkleProof hash depth low
  have unpacked : unpackProof sha (.mk (.merkleProof hash depth) [tree]) = .ok tree := by
    rw [unpackProof, if_neg (by simp [level])]
    rfl
  exact ⟨unpacked, by rw [virtualizeProof, unpacked]; rfl⟩

omit [DecidableEq Hash] in
theorem virtualizeProof_eq {depth : BitVec 16} {virt : VirtualCell Hash}
    (made : virtualizeProof sha (.mk (.merkleProof hash depth) [tree]) = .ok virt) : virt = virtualize sha 0 tree := by
  obtain ⟨raw, unpacked, done⟩ := bind_ok.mp made
  rw [unpackProof] at unpacked
  split at unpacked
  · cases unpacked
  · cases unpacked
    cases done
    rfl

theorem readable_iff {depth : BitVec 16} (placed : tree.Placed sha 1) {other : Hash} :
    Readable sha (.mk (.merkleProof hash depth) [tree]) other ↔ other ∈ readables sha 0 tree := by
  rw [← reads_virtualize placed.valid, Readable, (virtualizeProof_merkleProof placed.low).2]
  simp

/-- A tree that stands for a root, in its proof cell. -/
theorem proofOf_proofCell (placed : root.Placed sha 0) (shown : Prunes sha (Shallow sha) 0 tree root)
    (bound : tree.height < maxDepth) : ProofOf sha root (proofCell sha tree) tree := by
  have stands := shown.stands placed
  refine ⟨?_, proofCell_created stands.placed bound, shown.mono fun _ _ _ => trivial⟩
  have hash : tree.hash sha 0 = root.hash sha 0 := stands.agree.hash 0 (le_refl 0)
  have depth : tree.depth sha 0 = root.depth sha 0 := stands.agree.depth 0 (le_refl 0)
  rw [proofCell, hash, depth]

section

variable (injective : Function.Injective sha) (placed : root.Placed sha 0) (proves : ProofOf sha root proof tree)
include injective placed proves

theorem ProofOf.shallow : Prunes sha (Shallow sha) 0 tree root ∧ tree.height < maxDepth := by
  have created := proves.created
  rw [proves.cell] at created
  have checked := created.checkType
  simp only [checkType, List.map_cons, List.map_nil, check_bind, check_ok] at checked
  have validTree := proves.shown.valid placed.valid (created.created_ref tree (List.mem_singleton_self tree))
  have validProof : Cell.Valid sha (.mk _ [tree]) :=
    .mk _ _ created.accepted (by intro _ library; cases library) (List.forall_mem_singleton.mpr validTree)
  constructor
  · have shallow := proves.shown.shallow_of_agree injective validTree placed (by
      intro i within
      rw [Nat.le_zero.mp within]
      refine ⟨checked.1.symm, checked.2.symm.trans ?_⟩
      exact Nat.mod_eq_of_lt (lt_of_le_of_lt (depth_le placed.valid 0) (by decide)))
    exact shallow.mono fun _ _ both => both.2
  · exact validProof.height_ref_lt (List.mem_singleton_self tree)

theorem ProofOf.unpack : unpackProof sha proof = .ok tree ∧ tree.hash sha 0 = root.hash sha 0 ∧
      ∀ hash, Readable sha proof hash ↔ hash ∈ readables sha 0 tree := by
  have stands := (proves.shallow injective placed).1.stands placed
  rw [proves.cell]
  exact ⟨(virtualizeProof_merkleProof stands.placed.low).1, stands.agree.hash 0 (le_refl 0),
    fun _ => readable_iff stands.placed⟩

end

/-! ### Generation -/

section

variable {content : Content Hash} {refs : List (Cell Hash)} {virt : VirtualCell Hash}

omit [DecidableEq Hash] in
theorem readsBack_cut (cut : keeps isPrunned cell = false) :
    ReadsBack sha isPrunned cell virt ↔ virt.load sha = none := by
  constructor
  · intro back
    exact (back [] cell rfl).2 cut virt rfl
  · intro hidden path last found
    cases path with
    | nil =>
      cases found
      refine ⟨fun kept => ?_, fun _ other followed => ?_⟩
      · rw [Cell.visible, cut] at kept
        cases kept
      · cases followed
        exact hidden
    | cons i path =>
      refine ⟨fun visible => ?_, fun _ other followed => ?_⟩
      · simp [Cell.visible, cut] at visible
      · simp [VirtualCell.follow, hidden] at followed

omit [DecidableEq Hash] in
theorem readsBack_kept (kept : keeps isPrunned (.mk content refs) = true) :
    ReadsBack sha isPrunned (.mk content refs) virt ↔ ∃ below, virt.load sha = some (content, below) ∧
      below.map (fun ref => (ref.getHash sha maxLevel, ref.getDepth sha maxLevel)) =
        refs.map (fun ref => (ref.reprHash sha, ref.depth sha maxLevel)) ∧
      List.Forall₂ (ReadsBack sha isPrunned) refs below := by
  constructor
  · intro back
    obtain ⟨other, below, followed, loaded, same⟩ := (back [] _ rfl).1 kept
    cases followed
    have count : refs.length = below.length := by
      simpa using (congrArg List.length same).symm
    refine ⟨below, loaded, same, List.forall₂_iff_get.mpr ⟨count, fun i here there path last found => ?_⟩⟩
    have step := back (i :: path) last (by simpa [Cell.follow, here] using found)
    simpa [Cell.visible, VirtualCell.follow, kept, loaded, here, there] using step
  · rintro ⟨below, loaded, same, each⟩ path last found
    cases path with
    | nil =>
      cases found
      refine ⟨fun _ => ⟨virt, below, rfl, loaded, same⟩, fun hidden => ?_⟩
      rw [Cell.visible, kept] at hidden
      cases hidden
    | cons i path =>
      simp only [Cell.follow, Cell.refs_mk, Option.bind_eq_bind, Option.bind_eq_some_iff] at found
      obtain ⟨ref, here, found⟩ := found
      have bound := (List.getElem?_eq_some_iff.mp here).1
      have there := List.getElem?_eq_getElem (lt_of_lt_of_eq bound each.length_eq)
      have step := forall₂_getElem? each here there path last found
      simpa [Cell.visible, VirtualCell.follow, kept, loaded, here, there] using step

/-- A cut tree is read along the paths whose cells are kept. -/
theorem cutTree_readsBack (placed : cell.Placed sha depth)
    (shown : Prunes sha (Shallow sha) depth (cutTree sha (keeps isPrunned) depth cell) cell) :
    ReadsBack sha isPrunned cell (virtualize sha depth (cutTree sha (keeps isPrunned) depth cell)) := by
  induction cell using Cell.induction generalizing depth with
  | step content refs ih =>
    have stands := shown.stands placed
    cases kept : keeps isPrunned (.mk content refs) with
    | false =>
      have fits := (shown.of_cut placed.low kept).2
      rw [readsBack_cut kept, load_virtualize stands.placed.valid, cutTree_cut sha kept,
        isBounded_prunedBranch placed.low fits, if_pos rfl]
    | true =>
      have shownRefs := shown.of_kept placed.low kept
      rw [cutTree_kept sha kept] at stands
      rw [readsBack_kept kept, cutTree_kept sha kept, load_virtualize stands.placed.valid,
        placed.not_bounded (List.length_map _), if_neg (by simp)]
      refine ⟨_, rfl, ?_, ?_⟩
      · simp only [Cell.refs_mk, Cell.content_mk, List.map_map]
        apply List.map_congr_left
        intro ref member
        have placedRef := placed.ref member
        have standsRef := (shownRefs ref member).stands placedRef
        have read := getHash_virtualize standsRef.placed.valid (content.childMerkleDepth depth)
        refine Prod.ext ?_ ?_
        · exact read.1.trans ((standsRef.agree.hash _ (le_refl _)).trans placedRef.hash_eq.1)
        · exact read.2.trans ((standsRef.agree.depth _ (le_refl _)).trans placedRef.hash_eq.2)
      · simp only [Cell.refs_mk, Cell.content_mk, List.forall₂_map_right_iff, List.forall₂_same]
        intro ref member
        exact ih ref member (placed.ref member) (shownRefs ref member)

omit [DecidableEq Hash] in
theorem ReadsBack.of_ref {make : Cell Hash → Cell Hash} (kept : keeps isPrunned (.mk content refs) = true)
    (back : ReadsBack sha isPrunned (.mk content refs) ⟨.mk content (refs.map make), none⟩) :
    ∀ ref ∈ refs, (make ref).reprHash sha = ref.reprHash sha ∧ ReadsBack sha isPrunned ref ⟨make ref, none⟩ := by
  obtain ⟨below, loaded, hashes, each⟩ := (readsBack_kept kept).mp back
  cases loaded
  simp only [Cell.refs_mk, List.map_map, List.map_inj_left, List.forall₂_map_right_iff, List.forall₂_same] at hashes each
  exact fun ref member => ⟨congrArg Prod.fst (hashes ref member), each ref member⟩

/-- A cut tree that is not virtualized and has the hash of the cell is the cell, if it reads back. -/
theorem whole_of_readsBack (injective : Function.Injective sha) (placed : cell.Placed sha depth)
    (created : Cell.Created sha (cutTree sha (keeps isPrunned) depth cell))
    (same : (cutTree sha (keeps isPrunned) depth cell).reprHash sha = cell.reprHash sha)
    (back : ReadsBack sha isPrunned cell ⟨cutTree sha (keeps isPrunned) depth cell, none⟩) :
    Whole (keeps isPrunned) cell := by
  induction cell using Cell.induction generalizing depth with
  | step content refs ih =>
    cases kept : keeps isPrunned (.mk content refs) with
    | false =>
      rw [cutTree_cut sha kept] at created same
      exact absurd (created.content_eq_of_reprHash injective placed.valid.created same).1
        (prunedBranch_content_ne placed.low)
    | true =>
      rw [cutTree_kept sha kept] at created back
      refine .mk kept fun ref member => ?_
      obtain ⟨hash, each⟩ := back.of_ref kept ref member
      exact ih ref member (placed.ref member) (created.created_ref _ (List.mem_map_of_mem member)) hash each

/-- A library cell has level 0, so that it is not virtualized and all below it must be there. -/
theorem librariesWhole_of_readsBack (injective : Function.Injective sha) (placed : cell.Placed sha depth)
    (created : Cell.Created sha (cutTree sha (keeps isPrunned) depth cell))
    (back : ReadsBack sha isPrunned cell (virtualize sha depth (cutTree sha (keeps isPrunned) depth cell))) :
    LibrariesWhole (keeps isPrunned) cell := by
  induction cell using Cell.induction generalizing depth with
  | step content refs ih =>
    cases kept : keeps isPrunned (.mk content refs) with
    | false => exact .cut kept
    | true =>
      rw [cutTree_kept sha kept] at created back
      have createdRef := fun ref member => created.created_ref _ (List.mem_map_of_mem (a := ref) member)
      by_cases library : ∃ hash, content = .library hash
      · obtain ⟨hash, rfl⟩ := library
        rw [virtualize_of_le (Nat.zero_le depth)] at back
        have whole : ∀ ref ∈ refs, Whole (keeps isPrunned) ref := fun ref member =>
          whole_of_readsBack injective (placed.ref member) (createdRef ref member)
            (back.of_ref kept ref member).1 (back.of_ref kept ref member).2
        exact .kept kept (fun _ _ => whole) fun ref member => (whole ref member).librariesWhole
      · refine .kept kept (fun hash same => absurd ⟨hash, same⟩ library) fun ref member => ?_
        have plain := placed.valid.created.plain_of_ref member
        rw [readsBack_kept kept, load_of_created created fun hash same => absurd ⟨hash, same⟩ library] at back
        simp only [isBounded, Cell.content_mk, plain, Bool.false_and, Bool.false_eq_true, if_false] at back
        obtain ⟨below, loaded, -, each⟩ := back
        cases loaded
        simp only [List.map_map, List.forall₂_map_right_iff, List.forall₂_same] at each
        exact ih ref member (placed.ref member) (createdRef ref member) (each ref member)

end

/-- `generate` makes the proof cell of the cut tree, if both can be made. -/
theorem generate_ok (injective : Function.Injective sha) (placed : cell.Placed sha 0)
    (isPrunned : Cell Hash → Bool) (proof : Cell Hash) :
    generate sha cell isPrunned = .ok proof ↔ Cell.Created sha (cutTree sha (keeps isPrunned) 0 cell) ∧
      createMerkleProof sha (cutTree sha (keeps isPrunned) 0 cell) = .ok proof := by
  have generated := dfs_rebuilds isPrunned injective placed Memo.Sound.empty
  have low : cell.level sha = 0 := Nat.le_zero.mp placed.low
  have unfolded : generate sha cell isPrunned =
      (dfs sha isPrunned cell 0 fun _ => none) >>= fun done => createMerkleProof sha done.1 := by
    rw [generate, if_neg (by simp [low]), generateRaw, low]
    cases dfs sha isPrunned cell 0 fun _ => none <;> rfl
  rw [unfolded, bind_ok]
  constructor
  · rintro ⟨⟨tree, cells⟩, run, made⟩
    obtain ⟨⟨rfl, validTree⟩, -⟩ := generated.result tree cells run
    exact ⟨validTree, made⟩
  · rintro ⟨validTree, made⟩
    obtain ⟨⟨tree, cells⟩, run⟩ := generated.total validTree
    obtain ⟨⟨rfl, -⟩, -⟩ := generated.result tree cells run
    exact ⟨_, run, made⟩

theorem generate_holds_iff (injective : Function.Injective sha) (placed : cell.Placed sha 0)
    (fits : LevelsFit (keeps isPrunned) cell) :
    GenerateHolds sha cell isPrunned ↔ EveryCut (keeps isPrunned) (Shallow sha) 0 cell ∧
      LibrariesWhole (keeps isPrunned) cell ∧ (cutTree sha (keeps isPrunned) 0 cell).height < maxDepth := by
  constructor
  · rintro ⟨proof, root, run, virtual, hash, depth, back⟩
    obtain ⟨created, made⟩ := (generate_ok injective placed isPrunned proof).mp run
    obtain ⟨-, rfl⟩ := finalize_ok.mp made
    obtain rfl := virtualizeProof_eq virtual
    have whole := librariesWhole_of_readsBack injective placed created back
    have shown := cutTree_prunes sha fits whole fits
    have placedTree : Cell.Placed sha 1 _ := ⟨shown.valid placed.valid created, shown.level_le placed⟩
    have agree : ∀ i ≤ 0, (cutTree sha (keeps isPrunned) 0 cell).hash sha i = cell.hash sha i ∧
        (cutTree sha (keeps isPrunned) 0 cell).depth sha i = cell.depth sha i := by
      intro i within
      rw [Nat.le_zero.mp within]
      exact ⟨(getHash_virtualize_zero _).1.symm.trans hash, (getHash_virtualize_zero _).2.symm.trans depth⟩
    have shallow := shown.shallow_of_agree injective placedTree.valid placed agree
    exact ⟨everyCut_of_prunes placed (shallow.mono fun _ _ both => both.2), whole,
      ((createMerkleProof_ok placedTree).mp made).1⟩
  · rintro ⟨shallow, whole, bound⟩
    have shown := cutTree_prunes sha fits whole shallow
    have stands := shown.stands placed
    have made := (createMerkleProof_ok stands.placed).mpr ⟨bound, rfl⟩
    exact ⟨_, _, (generate_ok injective placed isPrunned _).mpr ⟨stands.placed.valid.created, made⟩,
      (virtualizeProof_merkleProof stands.placed.low).2,
      (getHash_virtualize_zero _).1.trans (stands.agree.hash 0 (le_refl 0)),
      (getHash_virtualize_zero _).2.trans (stands.agree.depth 0 (le_refl 0)),
      cutTree_readsBack placed shown⟩

/-! ### Combination -/

/-- Only pruned branches of levels up to 3 can be made. -/
theorem everyCut_fits {keep : Cell Hash → Bool} (made : Cell.Created sha (cutTree sha keep depth cell)) :
    EveryCut keep (fun depth _ => depth + 1 ≤ maxLevel) depth cell := by
  induction cell using Cell.induction generalizing depth with
  | step content refs ih =>
    cases kept : keep (.mk content refs) with
    | false =>
      rw [everyCut_cut kept]
      rw [cutTree_cut sha kept] at made
      have set := testBit_prunedBranch sha (.mk content refs) depth depth
      rw [decide_eq_true rfl, Bool.or_true] at set
      exact le_trans (lt_getLevel_iff.mpr ⟨depth, le_refl depth, set⟩) made.level_le
    | true =>
      rw [everyCut_kept kept]
      rw [cutTree_kept sha kept] at made
      intro ref member
      exact ih ref member (made.created_ref _ (List.mem_map.mpr ⟨ref, member, rfl⟩))

/-- The cells that neither tree shows were pruned from one of them, and are shallow. -/
theorem table_shallow (injective : Function.Injective sha) [DecidablePred shown] {known : Collected Hash}
    (table : Table sha shown known) (depth : Nat) (valid : Cell.Valid sha cell)
    (filled : (known.cells (cell.reprHash sha)).Filled) :
    EveryCut (keepsShown sha shown) (Shallow sha) depth cell := by
  induction cell using Cell.induction generalizing depth with
  | step content refs ih =>
    cases found : (known.cells ((Cell.mk content refs).reprHash sha)).cell with
    | none =>
      have cut : keepsShown sha shown (.mk content refs) = false := by
        rw [keepsShown, decide_eq_false_iff_not]
        intro member
        exact table.complete _ member found
      rw [everyCut_cut cut]
      rcases filled with cell | ⟨index, present⟩
      · exact absurd found cell
      obtain ⟨tree, stored⟩ := Option.ne_none_iff_exists'.mp present
      obtain ⟨placed, -, shallow, -⟩ := table.branch injective valid stored
      intro level _
      by_cases within : level ≤ index
      · exact shallow level within
      · rw [(Cell.hash_of_level_le placed.low (le_of_not_ge within)).2]
        exact shallow index (le_refl index)
    | some tree =>
      obtain ⟨member, place, trees, -, -, count, each⟩ := table.node injective valid found
      have kept : keepsShown sha shown (.mk content refs) = true := decide_eq_true member
      rw [everyCut_kept kept]
      intro ref inside
      have stored := forall₂_of_pairs (R := fun _ ref => (known.cells (ref.reprHash sha)).Filled) count
        fun pair inZip _ _ => (each pair inZip).2
      obtain ⟨child, -, filledRef⟩ := forall₂_mem_left stored.flip inside
      exact ih ref inside _ (valid.valid_ref ref inside) filledRef

section

variable [DecidablePred shown] (placed : cell.Placed sha depth)
  (cuts : Prunes sha (Shallow sha) depth (cutTree sha (keepsShown sha shown) depth cell) cell)
include placed cuts

/-- What the tree cut at the hidden cells shows. -/
theorem mem_readables_cutTree
    (inside : hash ∈ readables sha depth (cutTree sha (keepsShown sha shown) depth cell)) : shown hash := by
  induction cell using Cell.induction generalizing depth with
  | step content refs ih =>
    have stands := cuts.stands placed
    cases kept : keepsShown sha shown (.mk content refs) with
    | false =>
      have fits := (cuts.of_cut placed.low kept).2
      rw [cutTree_cut sha kept, readables_bounded (isBounded_prunedBranch placed.low fits)] at inside
      cases inside
    | true =>
      have cutsRefs := cuts.of_kept placed.low kept
      rw [cutTree_kept sha kept] at inside stands
      rw [mem_readables (placed.not_bounded (List.length_map _))] at inside
      rcases inside with same | ⟨tree, member, deeper⟩
      · rw [same, stands.reprHash placed]
        exact of_decide_eq_true kept
      · obtain ⟨ref, present, rfl⟩ := List.mem_map.mp member
        exact ih ref present (placed.ref present) (cutsRefs ref present) deeper

/-- It shows what a tree shows whose cells are all kept. -/
theorem readables_cutTree (prunes : Prunes sha (Shallow sha) depth tree cell)
    (all : ∀ hash ∈ readables sha depth tree, shown hash) (inside : hash ∈ readables sha depth tree) :
    hash ∈ readables sha depth (cutTree sha (keepsShown sha shown) depth cell) := by
  induction cell using Cell.induction generalizing depth tree with
  | step content refs ih =>
    have stands := cuts.stands placed
    have standsTree := prunes.stands placed
    cases prunes with
    | pruned _ fits =>
      rw [readables_bounded (isBounded_prunedBranch placed.low fits)] at inside
      cases inside
    | @node _ _ trees _ count _ below =>
      have bounded := placed.not_bounded count
      have here := all _ ((mem_readables bounded).mpr (.inl rfl))
      have kept : keepsShown sha shown (.mk content refs) = true := by
        rw [keepsShown, decide_eq_true_eq, ← standsTree.reprHash placed]
        exact here
      have cutsRefs := cuts.of_kept placed.low kept
      rw [cutTree_kept sha kept] at stands ⊢
      rw [mem_readables (placed.not_bounded (List.length_map _))]
      rw [mem_readables bounded] at inside
      rcases inside with same | ⟨child, member, deeper⟩
      · exact .inl (same.trans ((standsTree.reprHash placed).trans (stands.reprHash placed).symm))
      obtain ⟨ref, present, prunesRef⟩ := forall₂_mem_left (Prunes.refs count below) member
      refine .inr ⟨_, List.mem_map.mpr ⟨ref, present, rfl⟩, ?_⟩
      exact ih ref present (placed.ref present) (cutsRefs ref present)
        prunesRef (fun hash there => all hash ((mem_readables bounded).mpr (.inr ⟨child, member, there⟩))) deeper

end

section

variable {root a b treeA treeB : Cell Hash}

/-- Two proofs of one root, taken apart. -/
structure Proofs (sha : Preimage Hash → Hash) (root a b treeA treeB : Cell Hash) : Prop where
  valid : Cell.Valid sha root
  level : root.level sha = 0
  first : ProofOf sha root a treeA
  second : ProofOf sha root b treeB

variable (injective : Function.Injective sha) (proofs : Proofs sha root a b treeA treeB)
include proofs

theorem Proofs.placed : root.Placed sha 0 := ⟨proofs.valid, le_of_eq proofs.level⟩

include injective

theorem Proofs.unpack :
    unpackProof sha a = .ok treeA ∧ unpackProof sha b = .ok treeB ∧ ¬ treeA.hash sha 0 ≠ treeB.hash sha 0 ∧
      ∀ hash, (Readable sha a hash ∨ Readable sha b hash ↔ shownBy sha treeA treeB hash) := by
  obtain ⟨unpackA, sameA, readA⟩ := proofs.first.unpack injective proofs.placed
  obtain ⟨unpackB, sameB, readB⟩ := proofs.second.unpack injective proofs.placed
  exact ⟨unpackA, unpackB, not_not_intro (sameA.trans sameB.symm), fun hash => or_congr (readA hash) (readB hash)⟩

theorem combine_holds_iff :
    CombineHolds sha (combine sha a b) root a b ↔
      LevelsFit (keepsShown sha (shownBy sha treeA treeB)) root ∧
        (cutTree sha (keepsShown sha (shownBy sha treeA treeB)) 0 root).height < maxDepth := by
  obtain ⟨unpackA, unpackB, same, read⟩ := proofs.unpack injective
  have placed := proofs.placed
  have shallowA := (proofs.first.shallow injective placed).1
  have shallowB := (proofs.second.shallow injective placed).1
  obtain ⟨table, filled⟩ := collect_table injective placed shallowA shallowB
  have shallow := table_shallow injective table 0 proofs.valid filled
  have whole : LibrariesWhole (keepsShown sha (shownBy sha treeA treeB)) root :=
    librariesWhole_of_shown proofs.valid fun hash refs valid either => either.elim
      (shallowA.library_whole injective placed (fun _ => .inl) valid)
      (shallowB.library_whole injective placed (fun _ => .inr) valid)
  have generated := createA_rebuilds injective table placed (le_refl 0) placed.low shallowA
    filled (Nat.lt_succ_iff.mpr (height_le proofs.valid)) Memo.Sound.empty
  have unfolded : combine sha a b =
      (createA sha (collect sha treeB 0 (collect sha treeA 0 .empty)).cells (maxDepth + 1) 0 0 treeA fun _ => none) >>=
        fun done => createMerkleProof sha done.1 := by
    rw [combine, unpackA, unpackB]
    simp [bind, Except.bind, if_neg same]
  rw [unfolded]
  constructor
  · rintro ⟨proof, tree, run, -, -⟩
    obtain ⟨⟨made, results⟩, ran, final⟩ := bind_ok.mp run
    obtain ⟨⟨rfl, created⟩, -⟩ := generated.result made results ran
    have fits := everyCut_fits created
    have cuts := cutTree_prunes sha fits whole fits
    exact ⟨fits, ((createMerkleProof_ok ⟨cuts.valid placed.valid created, cuts.level_le placed⟩).mp final).1⟩
  · rintro ⟨fits, bound⟩
    have shown := cutTree_prunes sha fits whole shallow
    have stands := shown.stands placed
    obtain ⟨⟨made, results⟩, ran⟩ := generated.total stands.placed.valid.created
    obtain ⟨⟨rfl, -⟩, -⟩ := generated.result made results ran
    refine ⟨_, _, bind_ok.mpr ⟨_, ran, (createMerkleProof_ok stands.placed).mpr ⟨bound, rfl⟩⟩,
      proofOf_proofCell placed shown bound, ?_⟩
    intro hash
    rw [read, proofCell, readable_iff stands.placed]
    constructor
    · exact mem_readables_cutTree placed shown
    · rintro (inA | inB)
      · exact readables_cutTree placed shown shallowA (fun hash => .inl) inA
      · exact readables_cutTree placed shown shallowB (fun hash => .inr) inB

theorem combineFast_holds_iff :
    CombineHolds sha (combineFast sha a b) root a b ↔
      ∀ hash, shownBy sha treeA treeB hash → StillShown sha treeA treeB 0 hash := by
  obtain ⟨unpackA, unpackB, same, read⟩ := proofs.unpack injective
  have placed := proofs.placed
  obtain ⟨shallowA, boundA⟩ := proofs.first.shallow injective placed
  obtain ⟨shallowB, boundB⟩ := proofs.second.shallow injective placed
  obtain ⟨merged, run, result⟩ := merge_merged injective placed shallowA shallowB
  have stands := result.shown.stands placed
  have bound : merged.height < maxDepth := lt_of_le_of_lt result.height (max_lt boundA boundB)
  have made : combineFast sha a b = .ok (proofCell sha merged) := by
    rw [combineFast, unpackA, unpackB]
    simp only [bind, Except.bind, if_neg same, run]
    exact (createMerkleProof_ok stands.placed).mpr ⟨bound, rfl⟩
  have reads : (∀ hash, Readable sha (proofCell sha merged) hash ↔ Readable sha a hash ∨ Readable sha b hash) ↔
      ∀ hash, shownBy sha treeA treeB hash → StillShown sha treeA treeB 0 hash := by
    simp only [read, proofCell, readable_iff stands.placed, result.readables]
    exact ⟨fun all hash => (all hash).mpr, fun all hash => ⟨StillShown.shown, all hash⟩⟩
  rw [made, ← reads]
  constructor
  · rintro ⟨proof, tree, final, -, readable⟩
    cases final
    exact readable
  · intro readable
    exact ⟨_, merged, rfl, proofOf_proofCell placed result.shown bound, readable⟩

end

end

/-! ### The whole -/

/-- Merkle proofs work on a tree, a choice of cells to prune and two proofs of the tree. -/
structure ProofsHold (isPrunned : Cell Hash → Bool) (root a b : Cell Hash) : Prop where
  generate : LevelsFit (keeps isPrunned) root → GenerateHolds sha root isPrunned
  combine : CombineHolds sha (combine sha a b) root a b
  combineFast : CombineHolds sha (combineFast sha a b) root a b

/-- When they do. What is pruned is shallow and not below a library cell, and what is left is not too
deep. With every cell shown at each of its places, the cells that neither proof shows are below at
most two Merkle cells, and the tree is not too deep. What either proof shows is shown at a place that
the merge keeps. -/
structure Manageable (isPrunned : Cell Hash → Bool) (root treeA treeB : Cell Hash) : Prop where
  generate : LevelsFit (keeps isPrunned) root → EveryCut (keeps isPrunned) (Shallow sha) 0 root ∧
    LibrariesWhole (keeps isPrunned) root ∧ (cutTree sha (keeps isPrunned) 0 root).height < maxDepth
  combine : LevelsFit (keepsShown sha (shownBy sha treeA treeB)) root ∧
    (cutTree sha (keepsShown sha (shownBy sha treeA treeB)) 0 root).height < maxDepth
  combineFast : ∀ hash, shownBy sha treeA treeB hash → StillShown sha treeA treeB 0 hash

end

/-! ### A digest without collisions -/

/-- What is fed to the hasher, as its own digest. -/
inductive Digest where
  | of (preimage : Preimage Digest)

noncomputable instance : DecidableEq Digest := Classical.typeDecidableEq Digest

theorem Digest.of_injective : Function.Injective Digest.of := fun _ _ same => Digest.of.inj same

/-- Cells without data, each with a reference to the next. -/
def chain : Nat → Cell Digest
  | 0 => .mk (.ordinary []) []
  | n + 1 => .mk (.ordinary []) [chain n]

theorem height_chain (n : Nat) : (chain n).height = n := by
  induction n with
  | zero => rfl
  | succ n ih => simp [chain, Cell.height, Cell.heightRefs, ih]

theorem mask_chain (n : Nat) : (chain n).mask Digest.of = 0 := by
  induction n with
  | zero => rfl
  | succ n ih =>
    rw [chain, Cell.mask_mk]
    simp only [levelMask, unionMask, List.map_cons, List.map_nil, List.foldr_cons, List.foldr_nil, Nat.or_zero]
    exact ih

theorem level_chain (n : Nat) : (chain n).level Digest.of = 0 := by
  rw [Cell.level, mask_chain]
  rfl

theorem chain_valid {n : Nat} (bound : n ≤ maxDepth) : Cell.Valid Digest.of (chain n) := by
  induction n with
  | zero =>
    refine .mk _ _ ?_ nofun nofun
    rw [checkCell_ok]
    exact ⟨rfl, Nat.zero_le _, Nat.zero_le _, nofun⟩
  | succ n ih =>
    have before := ih (by omega)
    refine .mk _ _ ?_ nofun ?_
    · rw [checkCell_ok]
      refine ⟨rfl, Nat.zero_le _, by simp [maxRefs], ?_⟩
      intro level significant depth child
      simp only [childDepths, List.map_cons, List.map_nil, List.mem_singleton] at child
      have low : (chain n).level Digest.of ≤ childMerkleDepth (.ordinary [] : Content Digest) level := by
        rw [level_chain]
        exact Nat.zero_le _
      rw [child]
      have height := Cell.Placed.depth_eq_height ⟨before, low⟩
      rw [height_chain] at height
      exact lt_of_eq_of_lt height (by omega)
    · intro ref member
      rw [List.mem_singleton.mp member]
      exact before

theorem chain_placed {n : Nat} (bound : n ≤ maxDepth) (depth : Nat) : (chain n).Placed Digest.of depth :=
  ⟨chain_valid bound, le_of_eq_of_le (level_chain n) (Nat.zero_le depth)⟩

/-- A chain of two cells with the second one pruned. -/
def prunedLeaf : Cell Digest := .mk (.ordinary []) [prunedBranch Digest.of (chain 0) 0]

theorem shallow_chain {n depth : Nat} (short : n < 256) : Shallow Digest.of depth (chain n) := by
  intro level _
  have bound : n ≤ maxDepth := le_trans (le_of_lt short) (by decide)
  rwa [(chain_placed bound level).depth_eq_height, height_chain]

theorem prunedLeaf_prunes : Prunes Digest.of (Shallow Digest.of) 0 prunedLeaf (chain 1) := by
  refine .node rfl nofun ?_
  intro pair member
  rw [List.zip_cons_cons, List.zip_nil_left, List.mem_singleton] at member
  rw [member]
  exact .pruned (shallow_chain (by decide)) (by decide)

theorem leaf_proofs : Proofs Digest.of (chain 1) (proofCell Digest.of (chain 1)) (proofCell Digest.of prunedLeaf)
    (chain 1) prunedLeaf where
  valid := chain_valid (by decide)
  level := level_chain 1
  first := proofOf_proofCell (chain_placed (by decide) 0) (Prunes.refl _ 0 _) (by decide)
  second := proofOf_proofCell (chain_placed (by decide) 0) prunedLeaf_prunes (by decide)

theorem everyCut_chain {keep : Cell Digest → Bool} (first : keep (chain 1) = true) (second : keep (chain 0) = true)
    (property : Nat → Cell Digest → Prop) : EveryCut keep property 0 (chain 1) := by
  rw [chain] at first ⊢
  rw [everyCut_kept first, List.forall_mem_singleton]
  rw [chain] at second ⊢
  rw [everyCut_kept second]
  exact nofun

theorem librariesWhole_chain (keep : Cell Digest → Bool) (n : Nat) : LibrariesWhole keep (chain n) := by
  induction n with
  | zero =>
    cases kept : keep (chain 0) with
    | false => exact .cut kept
    | true => exact .kept kept nofun nofun
  | succ n ih =>
    cases kept : keep (chain (n + 1)) with
    | false => exact .cut kept
    | true => exact .kept kept nofun (List.forall_mem_singleton.mpr ih)

/-- Pruning the second cell of a chain does not work if its depth takes more than a byte. -/
theorem generate_chain_fails {n : Nat} (deep : 256 ≤ n) (bound : n + 1 ≤ maxDepth) :
    LevelsFit (keeps fun cell : Cell Digest => cell.height == n) (chain (n + 1)) ∧
      ¬ GenerateHolds Digest.of (chain (n + 1)) fun cell => cell.height == n := by
  have kept : keeps (fun cell : Cell Digest => cell.height == n) (chain (n + 1)) = true := by
    rw [keeps, height_chain]
    simp
  have cut : keeps (fun cell : Cell Digest => cell.height == n) (chain n) = false := by
    cases n with
    | zero => cases deep
    | succ n =>
      rw [keeps, height_chain]
      simp [chain]
  have every : ∀ property : Nat → Cell Digest → Prop,
      EveryCut (keeps fun cell : Cell Digest => cell.height == n) property 0 (chain (n + 1)) ↔ property 0 (chain n) := by
    intro property
    rw [chain] at kept ⊢
    rw [everyCut_kept kept, List.forall_mem_singleton]
    exact everyCut_cut cut _
  have fits : LevelsFit (keeps fun cell : Cell Digest => cell.height == n) (chain (n + 1)) := by
    rw [LevelsFit, every]
    decide
  refine ⟨fits, ?_⟩
  rw [generate_holds_iff Digest.of_injective (chain_placed bound 0) fits, every]
  rintro ⟨shallow, -⟩
  have height := (chain_placed (n := n) (by omega) 0).depth_eq_height
  rw [height_chain] at height
  have small := shallow 0 (le_refl 0)
  omega

end TonStaking.Guarantees.MerkleProofs
