import TonStaking.Source.Shard.Hops

/-!
# Messages travel between neighbours

The next hop of a routing step lies in a neighbour of the shard that takes the
step, and the walk over the shard trees that stops at nodes which are no
neighbours loses no neighbour.
-/
namespace TonStaking.Guarantees.ShardNeighbours

open BitVec TonStaking.Word TonStaking.Source.Shard Tvm

/-- The destination bits that routing produces, hop by hop, from none. -/
inductive Travels (src dest : AccountIdPrefixFull) : Int → Prop
  | start : Travels src dest 0
  | hop {used c h : Int} {cur : ShardIdFull} (before : Travels src dest used) (nonzero : cur.shard ≠ 0)
    (routed : performHypercubeRouting src dest cur used = some (c, h)) (found : 0 ≤ h) : Travels src dest h

section Routing

variable {src dest : AccountIdPrefixFull} {cur : ShardIdFull}

/-- The way in which a step came to its result. -/
theorem route_of_routed {used c h : Int} (nonzero : cur.shard ≠ 0) (staged : Staged used)
    (routed : performHypercubeRouting src dest cur used = some (c, h)) : Route src dest cur used c h := by
  obtain ⟨c', h', same, route⟩ := performHypercubeRouting_route src dest nonzero staged
  rw [routed] at same
  cases same
  exact route

theorem Travels.staged {used : Int} (travels : Travels src dest used) : Staged used := by
  induction travels with
  | start => exact .inl rfl
  | hop _ nonzero routed found ih => exact (route_of_routed nonzero ih routed).staged found

end Routing

section Walk

variable {x : ShardIdFull} {workchain : WorkchainId}
variable {res resKept all : List BlockId} {mcShardHash : Option BlockId} {mcout out : Bool}

/-- The second list has every block of the first that is in a neighbour shard. -/
def Covers (x : ShardIdFull) (res kept : List BlockId) : Prop :=
  ∀ b ∈ res, isNeighbor x ⟨b.workchain, b.shard⟩ = true → b ∈ kept

theorem Covers.append {kept more more' : List BlockId} (covers : Covers x res kept) (rest : Covers x more more') :
    Covers x (res ++ more) (kept ++ more') := by
  intro b member neighbour
  rcases List.mem_append.mp member with old | new
  · exact List.mem_append_left _ (covers b old neighbour)
  · exact List.mem_append_right _ (rest b new neighbour)

theorem Covers.refl (res : List BlockId) : Covers x res res := fun _ member _ => member

/-- A stack without some of its nodes that are no neighbours. -/
inductive Pruned (x : ShardIdFull) (workchain : WorkchainId) : List (Cell × ShardId) → List (Cell × ShardId) → Prop
  | nil : Pruned x workchain [] []
  | keep {c : Cell} {shard : ShardId} {stack kept : List (Cell × ShardId)} (nonzero : shard ≠ 0)
    (rest : Pruned x workchain stack kept) : Pruned x workchain ((c, shard) :: stack) ((c, shard) :: kept)
  | drop {c : Cell} {shard : ShardId} {stack kept : List (Cell × ShardId)} (nonzero : shard ≠ 0)
    (stranger : isNeighbor x ⟨workchain, shard⟩ = false) (rest : Pruned x workchain stack kept) :
    Pruned x workchain ((c, shard) :: stack) kept

/-- The two halves of a shard, as the walk computes them. -/
theorem half_spec (x : ShardIdFull) (workchain : WorkchainId) {s : ShardId} (nonzero : s ≠ 0)
    (split : lowerBit64 s >>> 1 ≠ 0) (left : Bool) :
    (if left then s - lowerBit64 s >>> 1 else s + lowerBit64 s >>> 1) ≠ 0 ∧
      (isNeighbor x ⟨workchain, s⟩ = false → x.shard ≠ 0 →
        isNeighbor x ⟨workchain, if left then s - lowerBit64 s >>> 1 else s + lowerBit64 s >>> 1⟩ = false) := by
  obtain ⟨c, chosen, child, marker, agree, _⟩ := shardChild_spec nonzero (lowest_pos nonzero split) left
  have same : c = if left then s - lowerBit64 s >>> 1 else s + lowerBit64 s >>> 1 := by
    simp only [shardChild, if_neg split, Option.some.injEq] at chosen
    exact chosen.symm
  rw [← same]
  refine ⟨child, fun stranger hx => ?_⟩
  rw [← Bool.not_eq_true] at stranger ⊢
  have lower : lowest c ≤ lowest s := by omega
  intro neighbour
  exact stranger (isNeighbor_ancestor (d := ⟨workchain, c⟩) hx nonzero child rfl lower agree neighbour)

variable (hx : x.shard ≠ 0)
include hx

/-- What is left out of the walk leads to no neighbour. -/
theorem walkShards_pruned {stack kept : List (Cell × ShardId)}
    (pruned : Pruned x workchain stack kept) (covers : Covers x res resKept)
    (walked : walkShards (fun _ _ => true) workchain stack res = some all) :
    ∃ found, walkShards (fun shard _ => isNeighbor x shard) workchain kept resKept = some found ∧
      Covers x all found := by
  induction stack, res using walkShards.induct (fun _ _ => true) workchain generalizing kept resKept with
  | case1 res =>
    cases pruned
    rw [walkShards, Option.some.injEq] at walked
    exact ⟨resKept, by rw [walkShards], walked ▸ covers⟩
  | case2 => simp [walkShards] at walked
  | case3 t bits refs shard stack res skipped => simp at skipped
  | case4 t bits refs shard stack res _ leaf short => simp [walkShards, leaf, short] at walked
  | case5 t bits refs shard stack res _ leaf enough ih =>
    simp only [walkShards, leaf, enough, Bool.not_true, Bool.false_eq_true, if_false, if_true] at walked
    generalize block : (⟨workchain, shard, BitVec.ofNat 32 (natOf ((bits.drop 4).take 32))⟩ : BlockId) = b at *
    have place : b.workchain = workchain ∧ b.shard = shard := by simp [← block]
    have skip : isNeighbor x ⟨workchain, shard⟩ = false → Covers x (res ++ [b]) resKept := by
      intro stranger b' member neighbour
      rcases List.mem_append.mp member with old | new
      · exact covers b' old neighbour
      · rw [List.mem_singleton.mp new, place.1, place.2, stranger] at neighbour
        cases neighbour
    cases pruned with
    | keep nonzero rest =>
      cases neighbour : isNeighbor x ⟨workchain, shard⟩ with
      | true =>
        simp only [walkShards, neighbour, leaf, enough, block, Bool.not_true, Bool.false_eq_true, if_false, if_true]
        exact ih rest (covers.append (.refl [b])) walked
      | false =>
        simp only [walkShards, neighbour, Bool.not_false, if_true]
        exact ih rest (skip neighbour) walked
    | drop nonzero stranger rest => exact ih rest (skip stranger) walked
  | case6 t bits refs shard stack res _ fork delta =>
    rename_i malformed
    change lowerBit64 shard >>> 1 = 0 ∨ bits ≠ [] at malformed
    simp only [walkShards, fork, malformed, Bool.not_true, Bool.false_eq_true, if_false, if_true] at walked
    cases walked
  | case7 t bits shard stack res _ fork delta wellformed left right =>
    rename_i ih
    change ¬ (lowerBit64 shard >>> 1 = 0 ∨ bits ≠ []) at wellformed
    simp only [walkShards, fork, wellformed, Bool.not_true, Bool.false_eq_true, if_false] at walked
    have split : lowerBit64 shard >>> 1 ≠ 0 := fun zero => wellformed (.inl zero)
    cases pruned with
    | keep nonzero rest =>
      have leftHalf := half_spec x workchain nonzero split true
      have rightHalf := half_spec x workchain nonzero split false
      cases neighbour : isNeighbor x ⟨workchain, shard⟩ with
      | true =>
        simp only [walkShards, neighbour, fork, wellformed, Bool.not_true, Bool.false_eq_true, if_false]
        exact ih (.keep leftHalf.1 (.keep rightHalf.1 rest)) covers walked
      | false =>
        simp only [walkShards, neighbour, Bool.not_false, if_true]
        exact ih (.drop leftHalf.1 (leftHalf.2 neighbour hx) (.drop rightHalf.1 (rightHalf.2 neighbour hx) rest))
          covers walked
    | drop nonzero stranger rest =>
      have leftHalf := half_spec x workchain nonzero split true
      have rightHalf := half_spec x workchain nonzero split false
      exact ih (.drop leftHalf.1 (leftHalf.2 stranger hx) (.drop rightHalf.1 (rightHalf.2 stranger hx) rest))
        covers walked
  | case8 t bits refs shard stack res _ fork delta wellformed =>
    change ¬ (lowerBit64 shard >>> 1 = 0 ∨ bits ≠ []) at wellformed
    simp only [walkShards, fork, wellformed, Bool.not_true, Bool.false_eq_true, if_false] at walked
    cases walked

omit hx in
theorem masterchain_isNeighbor (x : ShardIdFull) (shard : ShardId) : isNeighbor x ⟨masterchainId, shard⟩ = true := by
  simp [isNeighbor, ShardIdFull.isMasterchain]

theorem listWorkchain_covers {value : Slice} (covers : Covers x res resKept)
    (listed : listWorkchain (fun _ _ => true) mcShardHash workchain value res mcout = some (all, out)) :
    ∃ found, listWorkchain (fun shard _ => isNeighbor x shard) mcShardHash workchain value resKept mcout =
      some (found, out) ∧ Covers x all found := by
  unfold listWorkchain at listed ⊢
  simp only [masterchain_isNeighbor, Bool.and_true] at listed ⊢
  have start : Covers x (if (!workchain.msb && !mcout) = true then res ++ mcShardHash.toList else res)
      (if (!workchain.msb && !mcout) = true then resKept ++ mcShardHash.toList else resKept) := by
    split
    · exact covers.append (.refl _)
    · exact covers
  cases refs : value.refs with
  | nil =>
    rw [refs] at listed
    cases listed
  | cons root rest =>
    rw [refs] at listed
    simp only [Option.map_eq_some_iff, Prod.mk.injEq] at listed ⊢
    obtain ⟨walk, walked, rfl, rfl⟩ := listed
    obtain ⟨found, kept, result⟩ := walkShards_pruned hx (.keep (twoPow_ne_zero (by decide)) .nil) start walked
    exact ⟨found, ⟨found, kept, rfl, rfl⟩, result⟩

theorem listWorkchains_covers {dict : List (WorkchainId × Slice)} (covers : Covers x res resKept)
    (listed : listWorkchains (fun _ _ => true) mcShardHash dict res mcout = some (all, out)) :
    ∃ found, listWorkchains (fun shard _ => isNeighbor x shard) mcShardHash dict resKept mcout =
      some (found, out) ∧ Covers x all found := by
  induction dict generalizing res resKept mcout with
  | nil =>
    simp only [listWorkchains, Option.some.injEq, Prod.mk.injEq] at listed ⊢
    exact ⟨resKept, ⟨rfl, listed.2⟩, listed.1 ▸ covers⟩
  | cons entry rest ih =>
    simp only [listWorkchains, Option.bind_eq_bind, Option.bind_eq_some_iff] at listed ⊢
    obtain ⟨⟨middle, mcout'⟩, first, others⟩ := listed
    obtain ⟨middleKept, firstKept, between⟩ := listWorkchain_covers hx covers first
    obtain ⟨found, othersKept, result⟩ := ih between others
    exact ⟨found, ⟨(middleKept, mcout'), firstKept, othersKept⟩, result⟩

theorem neighbor_listed (config : ShardConfig) :
    Covers x (config.getShardHashIds false) (config.getNeighborShardHashIds x) := by
  unfold ShardConfig.getShardHashIds ShardConfig.getNeighborShardHashIds ShardConfig.getShardHashIdsBy
  cases config.shardHashesDict with
  | none => exact .refl []
  | some dict =>
    simp only [Bool.false_and, Bool.not_false, masterchain_isNeighbor]
    cases listed : listWorkchains (fun _ _ => true) config.mcShardHash dict []
        (config.mcShardHash.all (·.seqno = 0)) with
    | none => nofun
    | some result =>
      obtain ⟨found, kept, covers⟩ := listWorkchains_covers hx (.refl []) listed
      rw [kept]
      dsimp only
      split
      · exact covers.append (.refl _)
      · exact covers

end Walk

/-- Routing sends a message from a shard to its neighbours only, and so a shard finds its senders among those. -/
theorem next_hop_in_neighbour :
    (∀ x y : ShardIdFull, isNeighbor x y = isNeighbor y x) ∧
    ∀ (src dest : AccountIdPrefixFull) (x y : ShardIdFull) (used c h : Int), x.shard ≠ 0 → y.shard ≠ 0 →
      Travels src dest used → performHypercubeRouting src dest x used = some (c, h) → 0 ≤ h →
      y.contains (interpolateAddr src dest h) = true →
      isNeighbor x y = true ∧
      ∀ (config : ShardConfig) (b : BlockId), b ∈ config.getShardHashIds false →
        x = ⟨b.workchain, b.shard⟩ → b ∈ config.getNeighborShardHashIds y := by
  refine ⟨isNeighbor_comm, fun src dest x y used c h hx hy travels routed found next => ?_⟩
  have route := route_of_routed hx travels.staged routed
  have neighbour := route.neighbour hx hy travels.staged found next
  refine ⟨neighbour, fun config b listed sender => ?_⟩
  apply neighbor_listed hy config b listed
  rw [isNeighbor_comm, ← sender]
  exact neighbour

/-- Two half shards of the basic workchain. -/
def halves : ShardConfig where
  shardHashesDict := some [(0, ⟨[], [.mk [true] [.mk (List.replicate 37 false) [], .mk (List.replicate 37 false) []]]⟩)]
  mcShardHash := none

theorem halves_listed : (⟨0, 0x4000000000000000, 0⟩ : BlockId) ∈ halves.getShardHashIds false := by
  have left : shardIdAll - lowerBit64 shardIdAll >>> 1 = 0x4000000000000000 := by decide +kernel
  have split : ¬ lowerBit64 shardIdAll >>> 1 = 0#64 := by decide +kernel
  simp [ShardConfig.getShardHashIds, ShardConfig.getShardHashIdsBy, halves, listWorkchains,
    listWorkchain, walkShards, left, split, natOf]

theorem right_half_imports_from_left :
    (⟨0, 0x4000000000000000, 0⟩ : BlockId) ∈ halves.getNeighborShardHashIds ⟨0, 0xC000000000000000⟩ :=
  (next_hop_in_neighbour.2 ⟨0, 0⟩ ⟨0, 0xF000000000000000⟩ ⟨0, 0x4000000000000000⟩ ⟨0, 0xC000000000000000⟩ 0 32 36
    (by decide) (by decide) .start (by decide +kernel) (by decide) (by decide +kernel)).2 halves _ halves_listed rfl

end TonStaking.Guarantees.ShardNeighbours
