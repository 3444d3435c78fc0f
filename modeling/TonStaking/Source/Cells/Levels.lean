import TonStaking.Source.Cells.DataCell
import Mathlib.Data.List.Forall2

/-!
# Hashes and depths by level

What a cell made by `create` keeps: its mask is the union of the masks below it, an
insignificant level repeats the level before, and the hash of the highest level determines the
whole tree when the digest has no collisions.
-/
namespace TonStaking.Source.Cells

variable {condition : Prop} {message : String} {α : Type} {next : Unit → Except String α} {result : α}
  {mask : LevelMask} {depths : List (BitVec 16)} {i j : Nat}

open LevelMask Cell Content

theorem check_ok [Decidable condition] : check condition message = .ok () ↔ condition := by
  unfold check
  split <;> simp_all

theorem check_bind [Decidable condition] :
    (check condition message >>= next) = .ok result ↔ condition ∧ next () = .ok result := by
  unfold check
  split <;> simp_all [bind, Except.bind]

theorem bind_ok {ε β : Type} {first : Except ε α} {next : α → Except ε β} {result : β} :
    (first >>= next) = .ok result ↔ ∃ value, first = .ok value ∧ next value = .ok result := by
  cases first <;> simp [bind, Except.bind]

theorem unit_bind {first : Except String Unit} :
    (first >>= next) = .ok result ↔ first = .ok () ∧ next () = .ok result := by
  cases first <;> simp [bind, Except.bind]

section

variable {Hash : Type} (sha : Preimage Hash → Hash)

namespace Content

variable {sha}

theorem childMerkleDepth_le (content : Content Hash) (le : i ≤ j) :
    content.childMerkleDepth i ≤ content.childMerkleDepth j := by
  unfold childMerkleDepth
  split <;> omega

theorem childMerkleDepth_succ (content : Content Hash) (i : Nat) :
    content.childMerkleDepth (i + 1) = content.childMerkleDepth i + 1 := by
  unfold childMerkleDepth
  split <;> rfl

theorem le_childMerkleDepth (content : Content Hash) (i : Nat) : i ≤ content.childMerkleDepth i := by
  unfold childMerkleDepth
  split <;> omega

theorem testBit_unionMask (refs : List (Info Hash)) (i : Nat) :
    (unionMask refs).testBit i = true ↔ ∃ ref ∈ refs, ref.mask.testBit i = true := by
  unfold unionMask
  induction refs with
  | nil => simp
  | cons ref refs ih => simp [ih]

/-- The bits of a mask come from the references, one level down at a Merkle cell. -/
theorem testBit_levelMask {content : Content Hash} {refs : List (Info Hash)} (own : content.isPrunnedBranch = false)
    (library : ∀ hash, content = .library hash → ∀ ref ∈ refs, ref.mask = 0) (i : Nat) :
    (content.levelMask refs).testBit i = true ↔
      ∃ ref ∈ refs, ref.mask.testBit (content.childMerkleDepth i) = true := by
  cases content with
  | ordinary bits => exact testBit_unionMask refs i
  | prunnedBranch mask hashes depths => cases own
  | library hash =>
    have unset : ∀ ref ∈ refs, ref.mask.testBit i = false := fun ref member => by
      rw [library hash rfl ref member, Nat.zero_testBit]
    simpa [levelMask, childMerkleDepth, isMerkle] using unset
  | merkleProof hash depth | merkleUpdate fromHash toHash fromDepth toDepth =>
    simp only [levelMask, Nat.testBit_shiftRight, Nat.add_comm 1]
    exact testBit_unionMask refs (i + 1)

/-- A pruned branch stores what every other cell computes. -/
theorem casesPrunned {motive : Content Hash → Prop}
    (prunned : ∀ mask hashes depths, motive (.prunnedBranch mask hashes depths))
    (plain : ∀ content, content.isPrunnedBranch = false → motive content) (content : Content Hash) : motive content := by
  cases content with
  | prunnedBranch mask hashes depths => exact prunned mask hashes depths
  | _ => exact plain _ rfl

theorem info_of_not_prunned {content : Content Hash} (own : content.isPrunnedBranch = false) (refs : List (Info Hash)) :
    content.info sha refs = ⟨content.levelMask refs, content.hashAt sha refs, content.depthAt refs⟩ := by
  cases content with
  | prunnedBranch mask hashes depths => cases own
  | _ => rfl

@[simp] theorem mask_info (content : Content Hash) (refs : List (Info Hash)) :
    (content.info sha refs).mask = content.levelMask refs := by
  cases content <;> rfl

end Content

namespace LevelMask

theorem apply_succ_of_unset (unset : mask.testBit i = false) : apply mask (i + 1) = apply mask i := by
  apply Nat.eq_of_testBit_eq
  intro j
  by_cases last : j = i
  · subst last
    simp [unset]
  · have same : (j < i + 1) = (j < i) := by
      simp only [eq_iff_iff]
      omega
    simp [same]

end LevelMask

namespace Content

variable {sha}

/-- A level without a bit in the mask has the hash and the depth of the level below. -/
theorem info_succ_of_unset {content : Content Hash} {refs : List (Info Hash)}
    (unset : (content.levelMask refs).testBit i = false) :
    (content.info sha refs).hash (i + 1) = (content.info sha refs).hash i ∧
      (content.info sha refs).depth (i + 1) = (content.info sha refs).depth i := by
  cases content using casesPrunned with
  | prunned mask hashes depths =>
    have same : apply mask (i + 1) = apply mask i := LevelMask.apply_succ_of_unset unset
    simp [info, same]
  | plain content plain =>
    rw [info_of_not_prunned plain]
    simp [hashAt, depthAt, unset]

end Content

namespace Cell

variable {sha}

theorem mask_mk (content : Content Hash) (refs : List (Cell Hash)) :
    (Cell.mk content refs).mask sha = content.levelMask (refs.map (info sha)) := by
  rw [mask, info_mk, Content.mask_info]

theorem testBit_of_level {cell : Cell Hash} {level : Nat} (position : cell.level sha = level + 1) :
    (cell.mask sha).testBit level = true := by
  have deep : getLevel (cell.mask sha) = level + 1 := position
  obtain ⟨i, above, set⟩ := lt_getLevel_iff.mp (lt_of_lt_of_eq (Nat.lt_succ_self level) deep.symm)
  have last : i = level := by
    by_contra other
    rw [getLevel_le_iff.mp (le_of_eq deep) i (by omega)] at set
    cases set
  exact last ▸ set

theorem hash_eq_of_unset {cell : Cell Hash} (le : i ≤ j)
    (unset : ∀ k, i ≤ k → k < j → (cell.mask sha).testBit k = false) :
    cell.hash sha j = cell.hash sha i ∧ cell.depth sha j = cell.depth sha i := by
  induction j, le using Nat.le_induction with
  | base => exact ⟨rfl, rfl⟩
  | succ j le ih =>
    have before := ih (fun k low high => unset k low (by omega))
    have last := unset j le (Nat.lt_succ_self j)
    cases cell with
    | mk content refs =>
      rw [mask_mk] at last
      constructor
      · rw [← before.1, hash, info_mk, (info_succ_of_unset last).1, ← info_mk]
        rfl
      · rw [← before.2, depth, info_mk, (info_succ_of_unset last).2, ← info_mk]
        rfl

theorem hash_of_level_le {cell : Cell Hash} (low : cell.level sha ≤ i) (le : i ≤ j) :
    cell.hash sha j = cell.hash sha i ∧ cell.depth sha j = cell.depth sha i :=
  hash_eq_of_unset le fun k above _ => getLevel_le_iff.mp low k above

theorem hash_getLevel_apply (sha : Preimage Hash → Hash) (cell : Cell Hash) (i : Nat) :
    cell.hash sha (getLevel (apply (cell.mask sha) i)) = cell.hash sha i ∧
      cell.depth sha (getLevel (apply (cell.mask sha) i)) = cell.depth sha i := by
  have same := hash_eq_of_unset (getLevel_apply_le (cell.mask sha) i) (by
    intro k above below
    have clear := getLevel_le_iff.mp (le_refl (getLevel (apply (cell.mask sha) i))) k above
    simpa [below] using clear)
  exact ⟨same.1.symm, same.2.symm⟩

end Cell

end

section

variable {Hash : Type} [DecidableEq Hash] (sha : Preimage Hash → Hash)

theorem Content.checkCell_ok {content : Content Hash} {refs : List (Info Hash)} :
    content.checkCell refs = .ok () ↔
      content.checkType refs = .ok () ∧ content.size ≤ maxBits ∧ refs.length ≤ maxRefs ∧ content.depthsFit refs := by
  unfold Content.checkCell
  rw [unit_bind, check_bind, check_bind, check_ok]

/-- Trees of cells that `create` accepts. -/
inductive Cell.Created : Cell Hash → Prop
  | mk (content : Content Hash) (refs : List (Cell Hash))
      (accepted : content.checkCell (refs.map (Cell.info sha)) = .ok ())
      (below : ∀ ref ∈ refs, Cell.Created ref) :
      Cell.Created (.mk content refs)

/-- Those in which no level is lost: `create` gives a library cell level 0 whatever its references are. -/
inductive Cell.Valid : Cell Hash → Prop
  | mk (content : Content Hash) (refs : List (Cell Hash))
      (accepted : content.checkCell (refs.map (Cell.info sha)) = .ok ())
      (library : ∀ hash, content = .library hash → ∀ ref ∈ refs, ref.mask sha = 0)
      (below : ∀ ref ∈ refs, Cell.Valid ref) :
      Cell.Valid (.mk content refs)

variable {sha} in
omit [DecidableEq Hash] in
theorem Cell.testBit_mask {content : Content Hash} {refs : List (Cell Hash)}
    (flat : ∀ hash, content = .library hash → ∀ ref ∈ refs, ref.mask sha = 0) (own : content.isPrunnedBranch = false)
    (i : Nat) : ((Cell.mk content refs).mask sha).testBit i = true ↔
      ∃ ref ∈ refs, (ref.mask sha).testBit (content.childMerkleDepth i) = true := by
  rw [mask_mk, Content.testBit_levelMask own (by simpa [Cell.mask] using flat)]
  simp [Cell.mask]

namespace Cell.Created

variable {sha}
variable {content : Content Hash} {refs : List (Cell Hash)}

section

variable (created : Cell.Created sha (.mk content refs)) {ref : Cell Hash}
include created

theorem accepted : content.checkCell (refs.map (info sha)) = .ok () := by
  cases created
  assumption

theorem created_ref : ∀ ref ∈ refs, Cell.Created sha ref := by
  cases created
  assumption

theorem checkType : content.checkType (refs.map (info sha)) = .ok () :=
  (Content.checkCell_ok.mp created.accepted).1

omit created in
/-- A pruned branch has no references and a level of at most 3. -/
theorem prunned {hashes : List Hash} (created : Cell.Created sha (.mk (.prunnedBranch mask hashes depths) refs)) :
    refs = [] ∧ getLevel mask ≤ maxLevel := by
  have checked := created.checkType
  unfold Content.checkType at checked
  simp only [check_bind, check_ok] at checked
  exact ⟨by simpa using checked.1, checked.2.1.1⟩

theorem plain_of_ref (member : ref ∈ refs) : content.isPrunnedBranch = false := by
  cases content with
  | prunnedBranch mask hashes depths =>
    rw [created.prunned.1] at member
    cases member
  | _ => rfl

/-- Below a cell of level `n` the levels are at most `n`, one more below a Merkle cell. -/
theorem level_ref_le (flat : ∀ hash, content = .library hash → ∀ ref ∈ refs, ref.mask sha = 0) {n : Nat}
    (low : (Cell.mk content refs).level sha ≤ n) (member : ref ∈ refs) :
    ref.level sha ≤ content.childMerkleDepth n := by
  rw [level, getLevel_le_iff]
  intro i above
  rw [← Bool.not_eq_true]
  intro set
  have positive : ∃ j, n ≤ j ∧ content.childMerkleDepth j = i := by
    unfold Content.childMerkleDepth at above ⊢
    split at above
    · rename_i merkle
      exact ⟨i - 1, by omega, by simp only [merkle, if_true]; omega⟩
    · rename_i plain
      exact ⟨i, above, by simp [plain]⟩
  obtain ⟨j, beyond, same⟩ := positive
  have bit := (testBit_mask flat (created.plain_of_ref member) j).mpr ⟨ref, member, same ▸ set⟩
  rw [getLevel_le_iff.mp low j beyond] at bit
  cases bit

end

theorem level_le {cell : Cell Hash} (created : Cell.Created sha cell) : cell.level sha ≤ maxLevel := by
  induction cell using induction with
  | step content refs ih =>
    cases content using casesPrunned with
    | prunned mask hashes depths => exact created.prunned.2
    | plain content plain =>
      rw [level, getLevel_le_iff, mask_mk]
      intro i above
      rw [← Bool.not_eq_true]
      intro set
      have below : ∃ ref ∈ refs, (ref.mask sha).testBit (content.childMerkleDepth i) = true := by
        cases content with
        | library hash => simp [levelMask] at set
        | _ => simpa [Cell.mask] using (Content.testBit_levelMask plain nofun i).mp set
      obtain ⟨ref, member, bit⟩ := below
      have low := getLevel_le_iff.mp (ih ref member (created.created_ref ref member)) (content.childMerkleDepth i)
        (le_trans above (content.le_childMerkleDepth i))
      rw [low] at bit
      cases bit

theorem mask_lt {cell : Cell Hash} (created : Cell.Created sha cell) : cell.mask sha < 8 :=
  getLevel_le_iff_lt.mp created.level_le

end Cell.Created

namespace Cell.Valid

variable {sha}
variable {content : Content Hash} {refs : List (Cell Hash)}

theorem created {cell : Cell Hash} (valid : Cell.Valid sha cell) : Cell.Created sha cell := by
  induction valid with
  | mk content refs accepted _ _ ih => exact .mk content refs accepted ih

section

variable (valid : Cell.Valid sha (.mk content refs)) {ref : Cell Hash}
include valid

theorem accepted : content.checkCell (refs.map (info sha)) = .ok () := valid.created.accepted

theorem library : ∀ hash, content = .library hash → ∀ ref ∈ refs, ref.mask sha = 0 := by
  cases valid
  assumption

theorem valid_ref : ∀ ref ∈ refs, Cell.Valid sha ref := by
  cases valid
  assumption

theorem testBit_mask (own : content.isPrunnedBranch = false) (i : Nat) :
    ((Cell.mk content refs).mask sha).testBit i = true ↔
      ∃ ref ∈ refs, (ref.mask sha).testBit (content.childMerkleDepth i) = true :=
  Cell.testBit_mask valid.library own i

theorem level_ref_le {n : Nat} (low : (Cell.mk content refs).level sha ≤ n) (member : ref ∈ refs) :
    ref.level sha ≤ content.childMerkleDepth n :=
  valid.created.level_ref_le valid.library low member

end

theorem level_le {cell : Cell Hash} (valid : Cell.Valid sha cell) : cell.level sha ≤ maxLevel := valid.created.level_le

end Cell.Valid

/-- A valid cell at a Merkle depth that its level does not exceed. -/
structure Cell.Placed (depth : Nat) (cell : Cell Hash) : Prop where
  valid : Cell.Valid sha cell
  low : cell.level sha ≤ depth

namespace Cell.Placed

variable {sha} {depth : Nat}

theorem ref {content : Content Hash} {refs : List (Cell Hash)} {ref : Cell Hash}
    (placed : (Cell.mk content refs).Placed sha depth) (member : ref ∈ refs) :
    ref.Placed sha (content.childMerkleDepth depth) :=
  ⟨placed.valid.valid_ref ref member, placed.valid.level_ref_le placed.low member⟩

theorem hash_eq {cell : Cell Hash} (placed : cell.Placed sha depth) :
    cell.hash sha depth = cell.reprHash sha ∧ cell.depth sha depth = cell.depth sha maxLevel := by
  have here := hash_of_level_le (le_refl _) placed.low
  have top := hash_of_level_le (le_refl _) placed.valid.level_le
  exact ⟨here.1.trans top.1.symm, here.2.trans top.2.symm⟩

end Cell.Placed

/-! ### The hash determines the cell -/

theorem eq_of_map_eq {α β : Type} {f : α → β} {l l' : List α} (same : l.map f = l'.map f)
    (injective : ∀ x ∈ l, ∀ y ∈ l', f x = f y → x = y) : l = l' := by
  refine List.ext_getElem (by simpa using congrArg List.length same) fun i h h' =>
    injective _ (List.getElem_mem h) _ (List.getElem_mem h') ?_
  have images := List.getElem_of_eq same (by simpa using h)
  rwa [List.getElem_map, List.getElem_map] at images

namespace Content

omit [DecidableEq Hash]

variable {sha}

theorem preimage_eq {a b : Content Hash} {refsA refsB : List (Info Hash)} {bodyA bodyB : Body Hash}
    (same : a.preimage refsA i bodyA = b.preimage refsB j bodyB) :
    apply (a.levelMask refsA) i = apply (b.levelMask refsB) j ∧ bodyA = bodyB ∧
      a.childDepths refsA i = b.childDepths refsB j ∧ a.childHashes refsA i = b.childHashes refsB j := by
  simp only [preimage, Preimage.mk.injEq] at same
  obtain ⟨descriptor, -, body, depths, hashes⟩ := same
  have count : refsA.length = refsB.length := by
    simpa [childDepths] using congrArg List.length depths
  have oneA := Bool.toNat_le (c := a.isSpecial)
  have oneB := Bool.toNat_le (c := b.isSpecial)
  have masks : @Eq Nat (apply (a.levelMask refsA) i) (apply (b.levelMask refsB) j) := by omega
  exact ⟨masks, body, depths, hashes⟩

/-- With one mask, equal hashes at a level come from equal hashes at level 0. -/
theorem hashAt_zero_eq (injective : Function.Injective sha) {a b : Content Hash} {refsA refsB : List (Info Hash)}
    (masks : a.levelMask refsA = b.levelMask refsB) :
    ∀ level, a.hashAt sha refsA level = b.hashAt sha refsB level → a.hashAt sha refsA 0 = b.hashAt sha refsB 0 := by
  intro level
  induction level with
  | zero => exact id
  | succ level ih =>
    intro same
    simp only [hashAt, masks] at same
    split at same
    · have equal := congrArg Preimage.body (injective same)
      simp only [preimage, Body.previous.injEq] at equal
      exact ih equal
    · exact ih same

end Content

namespace Cell.Created

variable {sha}
variable {content : Content Hash} {refs : List (Cell Hash)}

/-- The hash of the highest level is computed from the whole mask. -/
theorem reprHash_eq (created : Cell.Created sha (.mk content refs)) :
    ∃ body, (Cell.mk content refs).reprHash sha =
        sha (content.preimage (refs.map (info sha)) ((Cell.mk content refs).level sha) body) ∧
      (body = .data content ∨ ∃ previous, body = .previous previous ∧ content.isPrunnedBranch = false) := by
  have top : (Cell.mk content refs).reprHash sha = (Cell.mk content refs).hash sha ((Cell.mk content refs).level sha) :=
    (hash_of_level_le (le_refl _) created.level_le).1
  rw [top]
  cases content using casesPrunned with
  | prunned mask hashes depths =>
    refine ⟨.data (.prunnedBranch mask hashes depths), ?_, .inl rfl⟩
    have level : (Cell.mk (.prunnedBranch mask hashes depths) refs).level sha = getLevel mask := by
      rfl
    rw [level, Cell.hash, info_mk]
    simp [Content.info, apply_of_getLevel_le]
    rfl
  | plain content plain =>
    rw [Cell.hash, info_mk, info_of_not_prunned plain]
    cases position : (Cell.mk content refs).level sha with
    | zero => exact ⟨.data content, rfl, .inl rfl⟩
    | succ level =>
      have set := Cell.testBit_of_level position
      rw [mask_mk] at set
      simp only [Content.hashAt, set]
      exact ⟨_, rfl, .inr ⟨_, rfl, plain⟩⟩

/-- Two cells with the same representation hash have the same mask and data, and as many references. -/
theorem content_eq_of_reprHash {content' : Content Hash} {refs' : List (Cell Hash)}
    (injective : Function.Injective sha) (created : Cell.Created sha (.mk content refs))
    (created' : Cell.Created sha (.mk content' refs'))
    (same : (Cell.mk content refs).reprHash sha = (Cell.mk content' refs').reprHash sha) :
    content = content' ∧ (Cell.mk content refs).level sha = (Cell.mk content' refs').level sha ∧
      content.childHashes (refs.map (info sha)) ((Cell.mk content refs).level sha) =
        content'.childHashes (refs'.map (info sha)) ((Cell.mk content' refs').level sha) := by
  obtain ⟨body, top, kind⟩ := created.reprHash_eq
  obtain ⟨body', top', kind'⟩ := created'.reprHash_eq
  rw [top, top'] at same
  obtain ⟨masks, bodies, -, hashes⟩ := Content.preimage_eq (injective same)
  rw [← mask_mk, ← mask_mk] at masks
  rw [apply_of_getLevel_le (le_refl ((Cell.mk content refs).level sha)),
    apply_of_getLevel_le (le_refl ((Cell.mk content' refs').level sha))] at masks
  refine ⟨?_, congrArg getLevel masks, hashes⟩
  subst bodies
  cases kind with
  | inl data =>
    cases kind' with
    | inl data' => simpa using data.symm.trans data'
    | inr previous =>
      obtain ⟨hash, earlier, -⟩ := previous
      cases data.symm.trans earlier
  | inr previous =>
    obtain ⟨hash, earlier, own⟩ := previous
    cases kind' with
    | inl data' => cases data'.symm.trans earlier
    | inr previous' =>
      obtain ⟨hash', earlier', own'⟩ := previous'
      have sameMask : content.levelMask (refs.map (info sha)) = content'.levelMask (refs'.map (info sha)) := by
        rw [← mask_mk, ← mask_mk, masks]
      have bases := Content.hashAt_zero_eq injective sameMask maxLevel (by
          have equal : (Cell.mk content refs).reprHash sha = (Cell.mk content' refs').reprHash sha := by
            rw [top, top', same]
          simpa [reprHash, Cell.hash, info_mk, info_of_not_prunned own,
            info_of_not_prunned own'] using equal)
      have data := congrArg Preimage.body (injective bases)
      simpa [Content.preimage] using data

end Cell.Created

/-- Without collisions the representation hash determines the tree. -/
theorem Cell.Valid.eq_of_reprHash {a b : Cell Hash} (injective : Function.Injective sha) (validA : Cell.Valid sha a)
    (validB : Cell.Valid sha b) (same : a.reprHash sha = b.reprHash sha) : a = b := by
  induction a using induction generalizing b with
  | step content refs ih =>
    cases b with
    | mk content' refs' =>
      obtain ⟨contents, levels, hashes⟩ := validA.created.content_eq_of_reprHash injective validB.created same
      subst contents
      suffices equal : refs = refs' by rw [equal]
      rw [← levels] at hashes
      simp only [Content.childHashes, List.map_map] at hashes
      -- a reference's level is at most the one its hash is asked at, so that hash is its representation hash
      have below : ∀ (others : List (Cell Hash)), Cell.Valid sha (.mk content others) →
          (Cell.mk content others).level sha = (Cell.mk content refs).level sha →
          ∀ ref ∈ others, ref.hash sha (content.childMerkleDepth ((Cell.mk content refs).level sha)) =
            ref.reprHash sha := by
        intro others valid position ref member
        exact (Placed.ref ⟨valid, le_of_eq position⟩ member).hash_eq.1
      apply eq_of_map_eq hashes
      intro ref member ref' member' equal
      apply ih ref member (validA.valid_ref ref member) (validB.valid_ref ref' member')
      rw [← below refs validA rfl ref member, ← below refs' validB levels.symm ref' member']
      exact equal

end

end TonStaking.Source.Cells
