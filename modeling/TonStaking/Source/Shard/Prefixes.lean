import Mathlib.Data.Set.BooleanAlgebra
import Mathlib.Order.CompletePartialOrder
import TonStaking.Source.Shard.Identifiers

/-!
# Shards as sets of accounts

A shard is the set of the accounts that begin with its prefix. The word functions
are read in terms of the position of the end marker and of the bits above it.
-/
namespace TonStaking.Source.Shard

open BitVec TonStaking.Word

/-- The accounts that begin with the prefix of a shard. -/
def accounts (shard : ShardId) : Set AccountIdPrefix :=
  { a | ∀ i < shardPrefixLength shard, a.getMsbD i = shard.getMsbD i }

instance (shard : ShardId) (a : AccountIdPrefix) : Decidable (a ∈ accounts shard) :=
  inferInstanceAs (Decidable (∀ i < shardPrefixLength shard, a.getMsbD i = shard.getMsbD i))

section Words

variable {x y s : ShardId} {a : AccountIdPrefix} {k : Nat}

theorem bitsNegate64_eq (x : BitVec 64) : bitsNegate64 x = -x := (BitVec.neg_eq_not_add x).symm

theorem lowerBit64_eq (nonzero : x ≠ 0) : lowerBit64 x = twoPow 64 (lowest x) := by
  rw [lowerBit64, bitsNegate64_eq, and_neg_self nonzero]

theorem shardPrefixLength_eq (nonzero : s ≠ 0) : shardPrefixLength s = 63 - lowest s := if_neg nonzero

theorem mem_accounts (nonzero : s ≠ 0) : a ∈ accounts s ↔ AgreeAbove (lowest s) s a := by
  rw [accounts, Set.mem_ofPred_eq, shardPrefixLength_eq nonzero]
  constructor
  · intro begins i above inside
    have same := begins (63 - i) (by omega)
    rw [getMsbD_eq_getLsbD, getMsbD_eq_getLsbD] at same
    have index : 64 - 1 - (63 - i) = i := by omega
    have front : 63 - i < 64 := by omega
    simpa [index, front] using same.symm
  · intro agree i short
    rw [getMsbD_eq_getLsbD, getMsbD_eq_getLsbD, agree (64 - 1 - i) (by omega) (by omega)]

theorem self_mem_accounts (s : ShardId) : s ∈ accounts s := fun _ _ => rfl

theorem shardContains_iff (nonzero : s ≠ 0) : shardContains s a = true ↔ a ∈ accounts s := by
  rw [shardContains, decide_eq_true_eq, lowerBit64_eq nonzero, bitsNegate64_eq,
    xor_and_mask_eq_zero (lowest_lt nonzero), mem_accounts nonzero]

theorem shardIsAncestor_iff (hx : x ≠ 0) (hy : y ≠ 0) :
    shardIsAncestor x y = true ↔ lowest y ≤ lowest x ∧ AgreeAbove (lowest x) x y := by
  rw [shardIsAncestor, decide_eq_true_eq, lowerBit64_eq hx, lowerBit64_eq hy, bitsNegate64_eq,
    xor_and_mask_eq_zero (lowest_lt hx), twoPow_le_iff (lowest_lt hy) (lowest_lt hx)]

theorem shardIsProperAncestor_iff (hx : x ≠ 0) (hy : y ≠ 0) :
    shardIsProperAncestor x y = true ↔ lowest y < lowest x ∧ AgreeAbove (lowest x) x y := by
  rw [shardIsProperAncestor, decide_eq_true_eq, lowerBit64_eq hx, lowerBit64_eq hy, bitsNegate64_eq,
    xor_and_mask_eq_zero (lowest_lt hx), twoPow_lt_iff (lowest_lt hy) (lowest_lt hx)]

theorem exists_flipped (hy : y ≠ 0) (inside : k < 64) (low : k ≤ lowest y) :
    ∃ a ∈ accounts y, a.getLsbD k ≠ y.getLsbD k := by
  refine ⟨y ^^^ twoPow 64 k, (mem_accounts hy).mpr fun i above inside => ?_, ?_⟩
  · have different : ¬ k = i := by omega
    simp [different]
  · rw [getLsbD_xor, getLsbD_twoPow]
    simp [inside]

section

variable (hx : x ≠ 0) (hy : y ≠ 0)
include hx hy

theorem accounts_subset_iff : accounts y ⊆ accounts x ↔ lowest y ≤ lowest x ∧ AgreeAbove (lowest x) x y := by
  constructor
  · intro subset
    have agree := (mem_accounts hx).mp (subset (self_mem_accounts y))
    refine ⟨?_, agree⟩
    by_contra longer
    -- the end marker of `y` is above that of `x`: both values of this bit are in `y`
    obtain ⟨a, inY, flipped⟩ := exists_flipped hy (lowest_lt hy) (Nat.le_refl _)
    have inX := (mem_accounts hx).mp (subset inY)
    have above : lowest x < lowest y := by omega
    exact flipped ((inX _ above (lowest_lt hy)).symm.trans (agree _ above (lowest_lt hy)))
  · intro h a inY
    rw [mem_accounts hy] at inY
    rw [mem_accounts hx]
    exact h.2.trans (inY.mono h.1)

theorem shardIsAncestor_eq : shardIsAncestor x y = true ↔ accounts y ⊆ accounts x := by
  rw [shardIsAncestor_iff hx hy, accounts_subset_iff hx hy]

/-- Agreement above the end marker, together with the marker, determines the word. -/
theorem eq_of_agree (same : lowest x = lowest y) (agree : AgreeAbove (lowest x) x y) : x = y := by
  apply eq_of_getLsbD_eq
  intro i inside
  rcases Nat.lt_trichotomy i (lowest x) with less | rfl | more
  · rw [getLsbD_below less, getLsbD_below (same ▸ less)]
  · rw [getLsbD_lowest hx, same, getLsbD_lowest hy]
  · exact agree i more inside

theorem shardIsProperAncestor_eq : shardIsProperAncestor x y = true ↔ accounts y ⊂ accounts x := by
  rw [shardIsProperAncestor_iff hx hy, Set.ssubset_def, accounts_subset_iff hx hy, accounts_subset_iff hy hx]
  constructor
  · intro h
    exact ⟨⟨Nat.le_of_lt h.1, h.2⟩, fun back => absurd back.1 (Nat.not_le.mpr h.1)⟩
  · intro h
    refine ⟨Nat.lt_of_le_of_ne h.1.1 fun same => h.2 ⟨Nat.le_of_eq same.symm, ?_⟩, h.1.2⟩
    exact (h.1.2.mono (Nat.le_of_eq same.symm)).symm

theorem max64_lowerBit64 : max64 (lowerBit64 x) (lowerBit64 y) = twoPow 64 (max (lowest x) (lowest y)) := by
  rw [max64, lowerBit64_eq hx, lowerBit64_eq hy]
  split
  · next less =>
    rw [Nat.max_eq_right (Nat.le_of_lt ((twoPow_lt_iff (lowest_lt hx) (lowest_lt hy)).mp less))]
  · next notLess =>
    rw [twoPow_lt_iff (lowest_lt hx) (lowest_lt hy)] at notLess
    rw [Nat.max_eq_left (Nat.not_lt.mp notLess)]

theorem shardIntersects_iff : shardIntersects x y = true ↔ AgreeAbove (max (lowest x) (lowest y)) x y := by
  rw [shardIntersects, decide_eq_true_eq, max64_lowerBit64 hx hy, bitsNegate64_eq,
    xor_and_mask_eq_zero (Nat.max_lt.mpr ⟨lowest_lt hx, lowest_lt hy⟩)]

theorem agree_of_common (inX : a ∈ accounts x) (inY : a ∈ accounts y) :
    AgreeAbove (max (lowest x) (lowest y)) x y := by
  rw [mem_accounts hx] at inX
  rw [mem_accounts hy] at inY
  exact (inX.mono (Nat.le_max_left ..)).trans (inY.mono (Nat.le_max_right ..)).symm

theorem accounts_shardIntersection (agree : AgreeAbove (max (lowest x) (lowest y)) x y) :
    accounts (shardIntersection x y) = accounts x ∩ accounts y := by
  rw [shardIntersection, lowerBit64_eq hx, lowerBit64_eq hy]
  split
  · next less =>
    rw [twoPow_lt_iff (lowest_lt hx) (lowest_lt hy)] at less
    rw [Nat.max_eq_right (Nat.le_of_lt less)] at agree
    exact (Set.inter_eq_left.mpr ((accounts_subset_iff hy hx).mpr ⟨Nat.le_of_lt less, agree.symm⟩)).symm
  · next notLess =>
    rw [twoPow_lt_iff (lowest_lt hx) (lowest_lt hy)] at notLess
    rw [Nat.max_eq_left (Nat.not_lt.mp notLess)] at agree
    exact (Set.inter_eq_right.mpr ((accounts_subset_iff hx hy).mpr ⟨Nat.not_lt.mp notLess, agree⟩)).symm

theorem shardIntersects_eq : shardIntersects x y = true ↔ (accounts x ∩ accounts y).Nonempty := by
  rw [shardIntersects_iff hx hy]
  constructor
  · intro agree
    rw [← accounts_shardIntersection hx hy agree]
    exact ⟨_, self_mem_accounts _⟩
  · rintro ⟨a, inX, inY⟩
    exact agree_of_common hx hy inX inY

theorem shardIntersection_ne_zero : shardIntersection x y ≠ 0 := by
  unfold shardIntersection
  split
  · exact hx
  · exact hy

end

variable {p : ShardId}

theorem ne_zero_of_set (set : x.getLsbD k = true) : x ≠ 0 := by
  rintro rfl
  simp at set

theorem twoPow_ne_zero (inside : k < 64) : (twoPow 64 k : BitVec 64) ≠ 0 :=
  ne_zero_of_set (k := k) (by rw [getLsbD_twoPow]; simp [inside])

variable (nonzero : x ≠ 0)
include nonzero

theorem shardParent_spec (proper : lowest x < 63) :
    ∃ p, shardParent x = some p ∧ p ≠ 0 ∧ lowest p = lowest x + 1 ∧ AgreeAbove (lowest p) p x := by
  have position := lowest_lt nonzero
  have bits : ∀ i, ((x - twoPow 64 (lowest x)) ||| (twoPow 64 (lowest x) <<< 1)).getLsbD i =
      (x.getLsbD i && decide (i ≠ lowest x) || decide (i = lowest x + 1)) := by
    intro i
    rw [sub_twoPow_of_set (getLsbD_lowest nonzero), getLsbD_or, getLsbD_and, getLsbD_not, getLsbD_twoPow,
      twoPow_shiftLeft_one]
    by_cases inside : i < 64
    · simp [inside, position, eq_comm]
    · have outside : ¬ i = lowest x + 1 := by omega
      simp [outside, getLsbD_of_ge x i (Nat.not_lt.mp inside)]
  have marker : lowest ((x - twoPow 64 (lowest x)) ||| (twoPow 64 (lowest x) <<< 1)) = lowest x + 1 := by
    refine lowest_eq (by rw [bits]; simp) fun i below => ?_
    rw [bits, decide_eq_false (by omega : ¬ i = lowest x + 1)]
    by_cases same : i = lowest x
    · simp [same]
    · rw [getLsbD_below (by omega : i < lowest x)]
      rfl
  refine ⟨_, ?_, ne_zero_of_set (k := lowest x + 1) (by rw [bits]; simp), marker, fun i above inside => ?_⟩
  · rw [shardParent, lowerBit64_eq nonzero]
    exact if_neg (twoPow_ne_zero position)
  · rw [marker] at above
    rw [bits, decide_eq_false (by omega : ¬ i = lowest x + 1), decide_eq_true (by omega : i ≠ lowest x)]
    simp

theorem shardChild_spec (room : 0 < lowest x) (left : Bool) :
    ∃ c, shardChild x left = some c ∧ c ≠ 0 ∧ lowest c + 1 = lowest x ∧ AgreeAbove (lowest x) c x ∧
      c.getLsbD (lowest x) = !left := by
  have position := lowest_lt nonzero
  obtain ⟨k, marker⟩ : ∃ k, lowest x = k + 1 := ⟨lowest x - 1, by omega⟩
  have half : lowerBit64 x >>> 1 = twoPow 64 k := by
    rw [lowerBit64_eq nonzero, marker, twoPow_ushiftRight_one (by omega)]
  have clear : x.getLsbD k = false := getLsbD_below (by omega)
  have rest : (x &&& ~~~ twoPow 64 (k + 1)).getLsbD k = false := by
    rw [getLsbD_and, clear]
    rfl
  -- half the marker is the marker less its other half
  have less : x - twoPow 64 k = (x &&& ~~~ twoPow 64 (k + 1)) ||| twoPow 64 k := by
    have double : (twoPow 64 (k + 1) : BitVec 64) = twoPow 64 k + twoPow 64 k := by
      apply BitVec.eq_of_toNat_eq
      rw [toNat_add, toNat_twoPow_of_lt (by omega), toNat_twoPow_of_lt (by omega), Nat.pow_succ, Nat.mul_two,
        Nat.mod_eq_of_lt]
      have := Nat.pow_lt_pow_right (a := 2) (by decide) (by omega : k + 1 < 64)
      omega
    rw [← add_twoPow_of_clear rest, ← sub_twoPow_of_set (marker ▸ getLsbD_lowest nonzero), double]
    bv_omega
  have chosen : shardChild x left = some (if left then x - twoPow 64 k else x + twoPow 64 k) := by
    rw [shardChild, half]
    exact if_neg (twoPow_ne_zero (by omega))
  have bits : ∀ i, (if left then x - twoPow 64 k else x + twoPow 64 k).getLsbD i =
      (x.getLsbD i && decide (left = true → i ≠ k + 1) || decide (i = k)) := by
    intro i
    cases left with
    | true =>
      rw [if_pos rfl, less, getLsbD_or, getLsbD_and, getLsbD_not, getLsbD_twoPow, getLsbD_twoPow]
      by_cases inside : i < 64
      · simp [inside, (by omega : k + 1 < 64), (by omega : k < 64), eq_comm]
      rw [getLsbD_of_ge x i (Nat.not_lt.mp inside), decide_eq_false (by omega : ¬ k = i),
        decide_eq_false (by omega : ¬ i = k)]
      simp
    | false =>
      rw [if_neg (by decide), add_twoPow_of_clear clear, getLsbD_or, getLsbD_twoPow]
      simp [(by omega : k < 64), eq_comm]
  have lower : lowest (if left then x - twoPow 64 k else x + twoPow 64 k) = k := by
    refine lowest_eq (by rw [bits]; simp) fun i below => ?_
    rw [bits, getLsbD_below (by omega : i < lowest x), decide_eq_false (by omega : ¬ i = k)]
    rfl
  refine ⟨_, chosen, ne_zero_of_set (k := k) (by rw [bits]; simp), by rw [lower, marker], fun i above inside => ?_, ?_⟩
  · rw [bits, decide_eq_false (by omega : ¬ i = k), decide_eq_true (fun _ => by omega)]
    simp
  · rw [bits, decide_eq_false (by omega : ¬ lowest x = k), getLsbD_lowest nonzero, marker]
    cases left with
    | true | false => simp

theorem lowest_pos (split : lowerBit64 x >>> 1 ≠ 0) : 0 < lowest x := by
  refine Nat.pos_of_ne_zero fun bottom => split ?_
  rw [lowerBit64_eq nonzero, bottom]
  decide

theorem isRightChild_iff (proper : lowest x < 63) : isRightChild x = x.getLsbD (lowest x + 1) := by
  have single : twoPow 64 (lowest x) <<< 1 = twoPow 64 (lowest x + 1) := by
    apply eq_of_getLsbD_eq
    intro i inside
    rw [twoPow_shiftLeft_one, getLsbD_twoPow]
    simp [inside, (by omega : lowest x + 1 < 64), eq_comm]
  rw [isRightChild, lowerBit64_eq nonzero, single, and_twoPow]
  cases x.getLsbD (lowest x + 1) with
  | false => simp
  | true => exact decide_eq_true (twoPow_ne_zero (by omega))

theorem shardSibling_spec (proper : lowest x < 63) :
    shardSibling x ≠ 0 ∧ lowest (shardSibling x) = lowest x ∧ AgreeAbove (lowest x + 1) (shardSibling x) x ∧
      (shardSibling x).getLsbD (lowest x + 1) = !x.getLsbD (lowest x + 1) := by
  have bits : ∀ i, (shardSibling x).getLsbD i = (x.getLsbD i ^^ decide (i = lowest x + 1 ∧ i < 64)) := by
    intro i
    rw [shardSibling, bitsNegate64_eq, and_neg_self nonzero, getLsbD_xor, twoPow_shiftLeft_one]
  have set : (shardSibling x).getLsbD (lowest x) = true := by
    rw [bits, getLsbD_lowest nonzero]
    simp
  refine ⟨ne_zero_of_set set, lowest_eq set fun i below => ?_, fun i above inside => ?_, ?_⟩
  · rw [bits, getLsbD_below below, decide_eq_false (by omega)]
    rfl
  · rw [bits, decide_eq_false (by omega)]
    simp
  · rw [bits, decide_eq_true (by omega)]
    simp

omit nonzero in
theorem accountShardPrefix_spec (a : AccountIdPrefix) (len : Nat) :
    accountShardPrefix a len ≠ 0 ∧ lowest (accountShardPrefix a len) = 63 - len ∧
      AgreeAbove (63 - len) (accountShardPrefix a len) a := by
  have bits : ∀ i, i < 64 → (accountShardPrefix a len).getLsbD i =
      (a.getLsbD i && decide (63 - len ≤ i) || decide (63 - len = i)) := by
    intro i inside
    rw [accountShardPrefix, bitsNegate64_eq, getLsbD_or, getLsbD_and, getLsbD_neg_twoPow (by omega), getLsbD_twoPow]
    simp [inside, (by omega : 63 - len < 64)]
  have set : (accountShardPrefix a len).getLsbD (63 - len) = true := by
    rw [bits _ (by omega)]
    simp
  refine ⟨ne_zero_of_set set, lowest_eq set fun i below => ?_, fun i above inside => ?_⟩
  · rw [bits i (by omega), decide_eq_false (by omega : ¬ 63 - len ≤ i), decide_eq_false (by omega : ¬ 63 - len = i)]
    simp
  · rw [bits i inside, decide_eq_true (by omega : 63 - len ≤ i), decide_eq_false (by omega : ¬ 63 - len = i)]
    simp

theorem shardPrefix_spec {len : Nat} (short : len ≤ shardPrefixLength x) :
    ∃ p, shardPrefix x len = some p ∧ p ≠ 0 ∧ lowest p = 63 - len ∧ AgreeAbove (lowest p) p x := by
  have position := lowest_lt nonzero
  rw [shardPrefixLength_eq nonzero] at short
  obtain ⟨nonzero', marker, agree⟩ := accountShardPrefix_spec x len
  refine ⟨accountShardPrefix x len, ?_, nonzero', marker, marker ▸ agree⟩
  have allowed : ¬ twoPow 64 (63 - len) < lowerBit64 x := by
    rw [lowerBit64_eq nonzero, twoPow_lt_iff (by omega) position]
    omega
  rw [shardPrefix, if_neg (by omega : ¬ 63 < len)]
  exact if_neg allowed

end Words

end TonStaking.Source.Shard
