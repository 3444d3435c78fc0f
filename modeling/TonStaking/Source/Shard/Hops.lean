import TonStaking.Source.Shard.Routing

/-!
# What a routing step does

A message moves through addresses that begin with more and more bits of the
destination. A step looks for the first nibble whose replacement leaves the
shard, and two shards on the two sides of such a step differ in one nibble only.
-/
namespace TonStaking.Source.Shard

open BitVec TonStaking.Word

section Addresses

variable {src dest : AccountIdPrefix} {n : Nat}

/-- The first bits of the destination, followed by those of the source. -/
def mixed (src dest : AccountIdPrefix) (n : Nat) : AccountIdPrefix :=
  (dest &&& ~~~ (allOnes 64 >>> n)) ||| (src &&& (allOnes 64 >>> n))

theorem getLsbD_allOnes_shift {i : Nat} : (allOnes 64 >>> n).getLsbD i = decide (n + i < 64) := by
  rw [getLsbD_ushiftRight, getLsbD_allOnes]

theorem getLsbD_mixed {i : Nat} (inside : i < 64) :
    (mixed src dest n).getLsbD i = if 64 ≤ n + i then dest.getLsbD i else src.getLsbD i := by
  rw [mixed, getLsbD_or, getLsbD_and, getLsbD_and, getLsbD_not, getLsbD_allOnes_shift]
  by_cases first : 64 ≤ n + i
  · simp [inside, Nat.not_lt.mpr first]
  · simp [Nat.not_le.mp first]

theorem mixed_all : mixed src dest 64 = dest := by
  apply eq_of_getLsbD_eq
  intro i inside
  rw [getLsbD_mixed inside, if_pos (by omega)]

theorem mixed_none : mixed src dest 0 = src := by
  apply eq_of_getLsbD_eq
  intro i inside
  rw [getLsbD_mixed inside, if_neg (by omega)]

theorem interpolateAddr_zero (src dest : AccountIdPrefixFull) : interpolateAddr src dest 0 = src := rfl

theorem interpolateAddr_bits (src dest : AccountIdPrefixFull) (short : n ≤ 64) :
    interpolateAddr src dest (32 + n) = ⟨dest.workchain, mixed src.accountIdPrefix dest.accountIdPrefix n⟩ := by
  unfold interpolateAddr
  rw [if_neg (by omega)]
  by_cases all : n = 64
  · subst all
    rw [if_pos (by omega), mixed_all]
  · rw [if_neg (by omega), if_pos (by omega)]
    have bits : (32 + (n : Int) - 32).toNat = n := by omega
    simp only [bits]
    rfl

theorem xor_mixed {u i : Nat} (later : u ≤ i) :
    mixed src dest u ^^^ ((dest ^^^ mixed src dest u) &&& ~~~ (allOnes 64 >>> i)) = mixed src dest i := by
  apply eq_of_getLsbD_eq
  intro j inside
  rw [getLsbD_xor, getLsbD_and, getLsbD_xor, getLsbD_not, getLsbD_allOnes_shift, getLsbD_mixed inside,
    getLsbD_mixed inside]
  by_cases first : 64 ≤ i + j
  · simp [inside, Nat.not_lt.mpr first, Bool.xor_left_comm]
  have second : ¬ 64 ≤ u + j := by omega
  rw [if_neg first, if_neg second]
  simp [Nat.not_le.mp first]

/-- The leading zeroes of the difference count the bits that are the destination's already. -/
theorem mixed_matching {u : Nat} (different : dest ^^^ mixed src dest u ≠ 0) (aligned : 4 ∣ u) :
    u ≤ countLeadingZeroes64 (dest ^^^ mixed src dest u) / 4 * 4 ∧
      countLeadingZeroes64 (dest ^^^ mixed src dest u) / 4 * 4 < 64 ∧
      mixed src dest (countLeadingZeroes64 (dest ^^^ mixed src dest u) / 4 * 4) = mixed src dest u := by
  have set := getLsbD_highest different
  have short : countLeadingZeroes64 (dest ^^^ mixed src dest u) < 64 := clz_lt different
  have position : highest (dest ^^^ mixed src dest u) = 63 - countLeadingZeroes64 (dest ^^^ mixed src dest u) := rfl
  have clear : ∀ i, 63 - countLeadingZeroes64 (dest ^^^ mixed src dest u) < i →
      (dest ^^^ mixed src dest u).getLsbD i = false := by
    intro i higher
    by_contra one
    have bound := le_highest ((Bool.not_eq_false _).mp one)
    omega
  generalize zeroes : countLeadingZeroes64 (dest ^^^ mixed src dest u) = z at *
  have before : u ≤ z := by
    by_contra less
    rw [position, getLsbD_xor, getLsbD_mixed (by omega), if_pos (by omega), Bool.xor_self] at set
    cases set
  have later : u ≤ z / 4 * 4 := by omega
  refine ⟨later, by omega, ?_⟩
  apply eq_of_getLsbD_eq
  intro i inside
  rw [getLsbD_mixed inside]
  by_cases first : 64 ≤ z / 4 * 4 + i
  · rw [if_pos first]
    have same := clear i (by omega)
    simpa using same
  · rw [if_neg first, getLsbD_mixed inside, if_neg (by omega)]

end Addresses

section Steps

variable {src dest : AccountIdPrefixFull} {cur : ShardIdFull}

/-- The loop stops at the first nibble that leaves the shard. -/
theorem takeNibbles_spec {s : ShardId} {a b : AccountIdPrefix} {u : Nat} (nonzero : s ≠ 0) (outside : b ∉ accounts s)
    (fuel i : Nat) (aligned : 4 ∣ i) (enough : 64 ≤ i + 4 * fuel) (later : u ≤ i) (below : i < 64)
    (inside : mixed a b i ∈ accounts s) :
    ∃ j : Nat, takeNibbles (s &&& (s - 1)) (s ||| (s - 1)) (mixed a b u) (b ^^^ mixed a b u) fuel
        (allOnes 64 >>> i) i = some (j : Int) ∧ i < j ∧ j ≤ 64 ∧ 4 ∣ j ∧
      mixed a b (j - 4) ∈ accounts s ∧ mixed a b j ∉ accounts s := by
  induction fuel generalizing i with
  | zero => omega
  | succ fuel ih =>
    have shifted : allOnes 64 >>> i >>> 4 = allOnes 64 >>> (i + 4) := (BitVec.shiftRight_add _ i 4).symm
    simp only [takeNibbles, shifted, xor_mixed (Nat.le_add_right_of_le later : u ≤ i + 4)]
    have interval : s &&& (s - 1) ≤ mixed a b (i + 4) ∧ mixed a b (i + 4) ≤ s ||| (s - 1) ↔
        mixed a b (i + 4) ∈ accounts s := by
      rw [mem_accounts nonzero]
      exact interval_iff nonzero
    rw [if_congr interval rfl rfl]
    split
    · next within =>
      have room : i + 4 < 64 := by
        by_contra reached
        have all : i + 4 = 64 := by omega
        rw [all, mixed_all] at within
        exact outside within
      have rest := ih (i + 4) (by omega) (by omega) (by omega) room within
      obtain ⟨j, found, more, props⟩ := rest
      exact ⟨j, found, by omega, props⟩
    · next left =>
      refine ⟨i + 4, rfl, by omega, by omega, by omega, ?_, left⟩
      rwa [Nat.add_sub_cancel]

/-- The numbers of destination bits that occur: none, or the workchain and whole nibbles of the prefix. -/
def Staged (used : Int) : Prop := used = 0 ∨ ∃ n : Nat, n ≤ 64 ∧ 4 ∣ n ∧ used = 32 + n

/-- The results of a step, by the part of the source that gives them. -/
inductive Route (src dest : AccountIdPrefixFull) (cur : ShardIdFull) (used : Int) : Int → Int → Prop
  | away (outside : cur.contains (interpolateAddr src dest used) = false) : Route src dest cur used (-1) (-1)
  | home (inside : cur.contains (interpolateAddr src dest used) = true) (arrived : cur.contains dest = true) :
    Route src dest cur used 96 96
  | direct (inside : cur.contains (interpolateAddr src dest used) = true) (outside : cur.contains dest = false)
    (masterchain : (interpolateAddr src dest used).workchain = masterchainId ∨ dest.workchain = masterchainId) :
    Route src dest cur used used 96
  | across (inside : cur.contains (interpolateAddr src dest used) = true) (outside : cur.contains dest = false)
    (other : (interpolateAddr src dest used).workchain ≠ dest.workchain) : Route src dest cur used used 32
  | along (inside : cur.contains (interpolateAddr src dest used) = true) (outside : cur.contains dest = false)
    (same : (interpolateAddr src dest used).workchain = dest.workchain) (i : Nat) (aligned : 4 ∣ i) (short : i ≤ 64)
    (more : used < 32 + i) (positive : 0 < i)
    (before : mixed src.accountIdPrefix dest.accountIdPrefix (i - 4) ∈ accounts cur.shard)
    (after : mixed src.accountIdPrefix dest.accountIdPrefix i ∉ accounts cur.shard) :
    Route src dest cur used (28 + i) (32 + i)

theorem contains_iff (nonzero : cur.shard ≠ 0) (a : AccountIdPrefixFull) :
    cur.contains a = true ↔ cur.workchain = a.workchain ∧ a.accountIdPrefix ∈ accounts cur.shard := by
  rw [ShardIdFull.contains, decide_eq_true_eq, shardContains_iff nonzero]

/-- An address on the way in the destination's workchain. -/
theorem Staged.transit {used : Int} (staged : Staged used)
    (same : (interpolateAddr src dest used).workchain = dest.workchain) :
    ∃ u : Nat, 4 ∣ u ∧ u ≤ 64 ∧ used ≤ 32 + u ∧
      interpolateAddr src dest used = ⟨dest.workchain, mixed src.accountIdPrefix dest.accountIdPrefix u⟩ := by
  rcases staged with rfl | ⟨n, short, aligned, rfl⟩
  · rw [interpolateAddr_zero] at same ⊢
    refine ⟨0, by omega, by omega, by omega, ?_⟩
    rw [mixed_none, ← same]
  · exact ⟨n, aligned, short, by omega, interpolateAddr_bits src dest short⟩

/-- Routing always comes to an end, in one of these ways. -/
theorem performHypercubeRouting_route (src dest : AccountIdPrefixFull) (nonzero : cur.shard ≠ 0) {used : Int} (staged : Staged used) :
    ∃ c h, performHypercubeRouting src dest cur used = some (c, h) ∧ Route src dest cur used c h := by
  cases inside : cur.contains (interpolateAddr src dest used) with
  | false => exact ⟨-1, -1, by simp [performHypercubeRouting, inside], .away inside⟩
  | true =>
    cases outside : cur.contains dest with
    | true => exact ⟨96, 96, by simp [performHypercubeRouting, inside, outside], .home inside outside⟩
    | false =>
      by_cases masterchain :
        (interpolateAddr src dest used).workchain = masterchainId ∨ dest.workchain = masterchainId
      · exact ⟨used, 96, by simp [performHypercubeRouting, inside, outside, masterchain],
          .direct inside outside masterchain⟩
      by_cases same : (interpolateAddr src dest used).workchain = dest.workchain
      · obtain ⟨u, aligned, short, bound, transit⟩ := staged.transit same
        have member := (contains_iff nonzero _).mp inside
        rw [transit] at member
        have notDest : dest.accountIdPrefix ∉ accounts cur.shard := by
          intro arrived
          rw [(contains_iff nonzero dest).mpr ⟨member.1, arrived⟩] at outside
          cases outside
        have different : dest.accountIdPrefix ^^^ mixed src.accountIdPrefix dest.accountIdPrefix u ≠ 0 := by
          intro zero
          rw [← BitVec.xor_eq_zero_iff.mp zero] at member
          exact notDest member.2
        have matching := mixed_matching different aligned
        have inShard := member.2
        rw [← matching.2.2] at inShard
        have found := takeNibbles_spec nonzero notDest 16 _ (Nat.dvd_mul_left 4 _) (by omega) matching.1
          matching.2.1 inShard
        obtain ⟨j, result, more, top, nibble, before, after⟩ := found
        refine ⟨28 + j, 32 + j, ?_, .along inside outside same j nibble top (by omega) (by omega) before after⟩
        have transitInside := inside
        have noMasterchain := masterchain
        rw [transit] at transitInside noMasterchain
        simp only [performHypercubeRouting, transit, transitInside, outside, if_neg noMasterchain, ne_eq]
        rw [result]
        rfl
      · exact ⟨used, 32, by simp [performHypercubeRouting, inside, outside, masterchain, same],
          .across inside outside same⟩

theorem Route.staged {used c h : Int} (route : Route src dest cur used c h) (found : 0 ≤ h) : Staged h := by
  cases route with
  | away => omega
  | home | direct => exact .inr ⟨64, by decide, by decide, rfl⟩
  | across => exact .inr ⟨0, by decide, by decide, rfl⟩
  | along _ _ _ i aligned short => exact .inr ⟨i, short, aligned, rfl⟩

end Steps

section Neighbours

variable {x y : ShardIdFull}

/-- A bit of both prefixes in which two shards differ. -/
def Apart (x y : ShardId) (i : Nat) : Prop :=
  max (lowest x) (lowest y) < i ∧ i < 64 ∧ x.getLsbD i ≠ y.getLsbD i

/-- All the bits in which two shards differ are in one nibble. -/
def OneNibble (x y : ShardId) : Prop := ∀ i j, Apart x y i → Apart x y j → i / 4 = j / 4

theorem getLsbD_difference {x y : ShardId} (hx : x ≠ 0) (hy : y ≠ 0) {i : Nat} :
    ((x ^^^ y) &&& bitsNegate64 (max64 (lowerBit64 x) (lowerBit64 y) <<< 1)).getLsbD i = true ↔ Apart x y i := by
  have position := Nat.max_lt.mpr ⟨lowest_lt hx, lowest_lt hy⟩
  rw [max64_lowerBit64 hx hy, bitsNegate64_eq, ← BitVec.shiftLeft_neg, getLsbD_and, getLsbD_mask position, getLsbD_xor,
    Bool.and_eq_true, decide_eq_true_eq, bne_iff_ne]
  exact ⟨fun h => ⟨h.2.1, h.2.2, h.1⟩, fun h => ⟨h.2.2, h.1, h.2.1⟩⟩

theorem isNeighbor_iff (hx : x.shard ≠ 0) (hy : y.shard ≠ 0) :
    isNeighbor x y = true ↔ x.workchain = masterchainId ∨ y.workchain = masterchainId ∨
      (∀ i, ¬ Apart x.shard y.shard i) ∨ x.workchain = y.workchain ∧ OneNibble x.shard y.shard := by
  by_cases masterchain : x.workchain = masterchainId ∨ y.workchain = masterchainId
  · have holds : isNeighbor x y = true := by simp [isNeighbor, ShardIdFull.isMasterchain, masterchain]
    refine ⟨fun _ => ?_, fun _ => holds⟩
    rcases masterchain with first | second
    · exact .inl first
    · exact .inr (.inl second)
  rw [or_iff_right fun first => masterchain (.inl first), or_iff_right fun second => masterchain (.inr second)]
  unfold isNeighbor
  rw [if_neg (by simpa [ShardIdFull.isMasterchain] using masterchain)]
  have bits := fun i => getLsbD_difference (i := i) hx hy
  generalize (x.shard ^^^ y.shard) &&&
    bitsNegate64 (max64 (lowerBit64 x.shard) (lowerBit64 y.shard) <<< 1) = z at bits
  by_cases zero : z = 0
  · have none : ∀ i, ¬ Apart x.shard y.shard i := by
      intro i apart
      rw [← bits, zero] at apart
      simp at apart
    simp only [zero, if_true]
    exact ⟨fun _ => .inl none, fun _ => trivial⟩
  have low := getLsbD_lowest zero
  have high := getLsbD_highest zero
  have some : ¬ ∀ i, ¬ Apart x.shard y.shard i := fun none => none _ ((bits _).mp low)
  have top : highest z = 63 - countLeadingZeroes64 z := rfl
  have bottom : lowest z = countTrailingZeroesNonZero64 z := rfl
  have short : countLeadingZeroes64 z < 64 := clz_lt zero
  -- the zeroes before and after the differing bits fill the other fifteen nibbles
  have count : countLeadingZeroes64 z / 4 + countTrailingZeroesNonZero64 z / 4 = 15 ↔
      OneNibble x.shard y.shard := by
    constructor
    · intro fifteen i j apartI apartJ
      have highI := le_highest ((bits i).mpr apartI)
      have highJ := le_highest ((bits j).mpr apartJ)
      have lowI := lowest_le ((bits i).mpr apartI)
      have lowJ := lowest_le ((bits j).mpr apartJ)
      omega
    · intro nibble
      have same := nibble _ _ ((bits _).mp high) ((bits _).mp low)
      omega
  rw [if_neg zero, or_iff_right some]
  by_cases same : x.workchain = y.workchain
  · rw [if_neg (not_not.mpr same), decide_eq_true_eq, count, and_iff_right same]
  · rw [if_pos same]
    simp [same]

theorem isNeighbor_comm (x y : ShardIdFull) : isNeighbor x y = isNeighbor y x := by
  have larger : max64 (lowerBit64 x.shard) (lowerBit64 y.shard) = max64 (lowerBit64 y.shard) (lowerBit64 x.shard) := by
    unfold max64
    split
    · next less => rw [if_neg (by rw [BitVec.lt_def] at *; omega)]
    rename_i notLess
    split
    · rfl
    rename_i notMore
    apply BitVec.eq_of_toNat_eq
    rw [BitVec.lt_def] at *
    omega
  unfold isNeighbor
  rw [Bool.or_comm, BitVec.xor_comm, larger]
  simp only [ne_eq, eq_comm]

/-- A shard that differs in a bit differs so from the ancestors that have the bit. -/
theorem Apart.descend {s a d : ShardId} {i : Nat} (marker : lowest d ≤ lowest a) (agree : AgreeAbove (lowest a) d a)
    (apart : Apart s a i) : Apart s d i := by
  have above := Nat.max_lt.mp apart.1
  refine ⟨Nat.max_lt.mpr ⟨above.1, by omega⟩, apart.2.1, ?_⟩
  rw [agree i above.2 apart.2.1]
  exact apart.2.2

theorem isNeighbor_ancestor {s a d : ShardIdFull} (hs : s.shard ≠ 0) (ha : a.shard ≠ 0) (hd : d.shard ≠ 0)
    (same : d.workchain = a.workchain) (marker : lowest d.shard ≤ lowest a.shard)
    (agree : AgreeAbove (lowest a.shard) d.shard a.shard) (neighbour : isNeighbor s d = true) :
    isNeighbor s a = true := by
  rw [isNeighbor_iff hs hd] at neighbour
  rw [isNeighbor_iff hs ha]
  rcases neighbour with master | master | none | ⟨workchain, nibble⟩
  · exact .inl master
  · exact .inr (.inl (same ▸ master))
  · exact .inr (.inr (.inl fun i apart => none i (apart.descend marker agree)))
  · refine .inr (.inr (.inr ⟨workchain.trans same, fun i j apartI apartJ => ?_⟩))
    exact nibble i j (apartI.descend marker agree) (apartJ.descend marker agree)

theorem not_apart_of_common {s d : ShardId} {a : AccountIdPrefix} (hs : s ≠ 0) (hd : d ≠ 0) (inS : a ∈ accounts s)
    (inD : a ∈ accounts d) (i : Nat) : ¬ Apart s d i :=
  fun apart => apart.2.2 (agree_of_common hs hd inS inD i apart.1 apart.2.1)

theorem Route.neighbour {src dest : AccountIdPrefixFull} {used c h : Int} (hx : x.shard ≠ 0) (hy : y.shard ≠ 0)
    (staged : Staged used) (route : Route src dest x used c h) (found : 0 ≤ h)
    (next : y.contains (interpolateAddr src dest h) = true) : isNeighbor x y = true := by
  rw [isNeighbor_iff hx hy]
  have there := (contains_iff hy _).mp next
  cases route with
  | away => omega
  | home _ arrived =>
    have here := (contains_iff hx _).mp arrived
    exact .inr (.inr (.inl (not_apart_of_common hx hy here.2 there.2)))
  | direct inside _ masterchain =>
    rcases masterchain with sender | receiver
    · exact .inl (((contains_iff hx _).mp inside).1.trans sender)
    · exact .inr (.inl (there.1.trans receiver))
  | across inside _ other =>
    have here := (contains_iff hx _).mp inside
    rcases staged with rfl | ⟨n, short, _, rfl⟩
    · have start : interpolateAddr src dest 32 = _ := interpolateAddr_bits src dest (Nat.zero_le 64)
      rw [mixed_none] at start
      rw [start] at there
      exact .inr (.inr (.inl (not_apart_of_common hx hy here.2 there.2)))
    · rw [interpolateAddr_bits src dest short] at other
      exact absurd rfl other
  | along inside _ same i aligned short more positive before after =>
    have here := (contains_iff hx _).mp inside
    rw [interpolateAddr_bits src dest short] at there
    rw [mem_accounts hx] at before
    rw [mem_accounts hy] at there
    refine .inr (.inr (.inr ⟨(here.1.trans same).trans there.1.symm, ?_⟩))
    -- the two addresses differ in the nibble that was taken last
    have nibble : ∀ j, Apart x.shard y.shard j → 64 - i ≤ j ∧ j < 68 - i := by
      intro j apart
      have above := Nat.max_lt.mp apart.1
      have different := apart.2.2
      rw [before j above.1 apart.2.1, there.2 j above.2 apart.2.1, getLsbD_mixed apart.2.1,
        getLsbD_mixed apart.2.1] at different
      constructor
      · by_contra low
        rw [if_neg (by omega), if_neg (by omega)] at different
        exact different rfl
      · by_contra high
        rw [if_pos (by omega), if_pos (by omega)] at different
        exact different rfl
    intro j k apartJ apartK
    have boundsJ := nibble j apartJ
    have boundsK := nibble k apartK
    omega

end Neighbours

end TonStaking.Source.Shard
