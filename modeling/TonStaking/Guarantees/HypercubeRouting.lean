import TonStaking.Source.Shard.Hops

/-!
# Hypercube routing makes progress and arrives

A message is routed by the shard that contains its address, then by the shard of
its next hop, and so on; the shards may be split and merged between the hops. The
count of destination bits grows with each hop outside the destination's shard,
and stays at 96 inside it.
-/
namespace TonStaking.Guarantees.HypercubeRouting

open TonStaking.Source.Shard

theorem shardIdAll_ne_zero : shardIdAll ≠ 0 := twoPow_ne_zero (by decide)

theorem mem_shardIdAll (a : AccountIdPrefix) : a ∈ accounts shardIdAll := by
  have empty : shardPrefixLength shardIdAll = 0 := by decide +kernel
  intro i less
  rw [empty] at less
  cases less

/-- A partition of the addresses into shards. -/
structure Sharding where
  shardOf : AccountIdPrefixFull → ShardIdFull
  nonzero : ∀ a, (shardOf a).shard ≠ 0
  owns : ∀ a, (shardOf a).contains a = true
  partition : ∀ a b, (shardOf a).contains b = true → shardOf b = shardOf a

/-- Every workchain is one shard. -/
def Sharding.whole : Sharding where
  shardOf a := ⟨a.workchain, shardIdAll⟩
  nonzero _ := shardIdAll_ne_zero
  owns a := (contains_iff shardIdAll_ne_zero a).mpr ⟨rfl, mem_shardIdAll _⟩
  partition a b inside := by
    have same : a.workchain = b.workchain := ((contains_iff shardIdAll_ne_zero b).mp inside).1
    rw [same]

section Journey

variable (src dest : AccountIdPrefixFull)

/-- The shard that routes a message with so many bits of its destination. -/
def Sharding.router (sharding : Sharding) (used : Int) : ShardIdFull :=
  sharding.shardOf (interpolateAddr src dest used)

/-- The destination bits after a number of hops, each under the sharding of its time. -/
def usedDestBits (shardings : Nat → Sharding) : Nat → Int
  | 0 => 0
  | n + 1 =>
    let used := usedDestBits shardings n
    match performHypercubeRouting src dest ((shardings n).router src dest used) used with
    | some (_, h) => h
    | none => used

/-- A step outside the destination's shard goes to another shard with more bits of the destination. -/
structure Progress (cur : ShardIdFull) (used c h : Int) : Prop where
  routed : performHypercubeRouting src dest cur used = some (c, h)
  transit : cur.contains (interpolateAddr src dest c) = true
  leaves : cur.contains dest = false → cur.contains (interpolateAddr src dest h) = false
  grows : cur.contains dest = false → used < h
  stays : cur.contains dest = true → h = 96

variable {src dest}
variable {used c h : Int} {cur : ShardIdFull}

theorem staged_le (staged : Staged used) : used ≤ 96 := by
  rcases staged with rfl | ⟨n, short, _, rfl⟩
  · decide
  · omega

theorem interpolateAddr_full : interpolateAddr src dest 96 = dest := rfl

/-- An address outside the destination's shard lacks some of the destination's bits. -/
theorem staged_lt (staged : Staged used) (inside : cur.contains (interpolateAddr src dest used) = true)
    (outside : cur.contains dest = false) :
    used < 96 := by
  refine lt_of_le_of_ne (staged_le staged) fun all => ?_
  rw [all, interpolateAddr_full, outside] at inside
  cases inside

theorem route_progress (nonzero : cur.shard ≠ 0) (staged : Staged used)
    (inside : cur.contains (interpolateAddr src dest used) = true)
    (routed : performHypercubeRouting src dest cur used = some (c, h)) (route : Route src dest cur used c h) :
    Progress src dest cur used c h := by
  cases route with
  | away outside =>
    rw [outside] at inside
    cases inside
  | home _ arrived =>
    refine ⟨routed, arrived, fun outside => ?_, fun outside => ?_, fun _ => rfl⟩
    · rw [arrived] at outside
      cases outside
    · rw [arrived] at outside
      cases outside
  | direct _ outside =>
    refine ⟨routed, inside, fun _ => outside, fun _ => staged_lt staged inside outside, fun _ => rfl⟩
  | across _ outside other =>
    have home := ((contains_iff nonzero _).mp inside).1
    refine ⟨routed, inside, fun _ => ?_, fun _ => ?_, fun arrived => ?_⟩
    · rw [← Bool.not_eq_true, contains_iff nonzero]
      intro member
      exact other (home.symm.trans member.1)
    · rcases staged with rfl | ⟨n, short, _, rfl⟩
      · decide
      · rw [interpolateAddr_bits src dest short] at other
        exact absurd rfl other
    · rw [outside] at arrived
      cases arrived
  | along _ outside same i aligned short more positive before after =>
    have home := ((contains_iff nonzero _).mp inside).1
    have nibble : (28 : Int) + i = 32 + ((i - 4 : Nat) : Int) := by omega
    refine ⟨routed, ?_, fun _ => ?_, fun _ => more, fun arrived => ?_⟩
    · rw [nibble, interpolateAddr_bits src dest (by omega), contains_iff nonzero]
      exact ⟨home.trans same, before⟩
    · rw [interpolateAddr_bits src dest short, ← Bool.not_eq_true, contains_iff nonzero]
      exact fun member => after member.2
    · rw [outside] at arrived
      cases arrived

/-- One step in the shard of the address. -/
theorem staged_step (src dest : AccountIdPrefixFull) (staged : Staged used) (sharding : Sharding) :
    ∃ c h, Progress src dest (sharding.router src dest used) used c h ∧ Staged h := by
  have nonzero := sharding.nonzero (interpolateAddr src dest used)
  have inside := sharding.owns (interpolateAddr src dest used)
  obtain ⟨c, h, routed, route⟩ := performHypercubeRouting_route src dest nonzero staged
  refine ⟨c, h, route_progress nonzero staged inside routed route, route.staged ?_⟩
  cases route with
  | away outside =>
    rw [outside] at inside
    cases inside
  | home | direct | across => decide
  | along => omega

theorem Progress.next {shardings : Nat → Sharding} {n : Nat}
    (progress : Progress src dest ((shardings n).router src dest (usedDestBits src dest shardings n))
      (usedDestBits src dest shardings n) c h) :
    usedDestBits src dest shardings (n + 1) = h := by
  simp only [usedDestBits, progress.routed]

theorem usedDestBits_staged (src dest : AccountIdPrefixFull) (shardings : Nat → Sharding) (n : Nat) :
    Staged (usedDestBits src dest shardings n) := by
  induction n with
  | zero => exact .inl rfl
  | succ n ih =>
    obtain ⟨c, h, progress, staged⟩ := staged_step src dest ih (shardings n)
    rwa [progress.next]

theorem staged_round {k : Nat} (staged : Staged used) (more : 28 + 4 * (k : Int) < used) :
    28 + 4 * ((k + 1 : Nat) : Int) ≤ used := by
  rcases staged with rfl | ⟨n, _, aligned, rfl⟩
  · omega
  · omega

/-- As long as the message has not arrived, each hop takes at least a nibble. -/
theorem usedDestBits_grows (shardings : Nat → Sharding) (n : Nat)
    (underway : ∀ m < n, ((shardings m).router src dest (usedDestBits src dest shardings m)).contains dest = false) :
    n = 0 ∨ 28 + 4 * (n : Int) ≤ usedDestBits src dest shardings n := by
  induction n with
  | zero => exact .inl rfl
  | succ n ih =>
    have staged := usedDestBits_staged src dest shardings n
    obtain ⟨c, h, progress, after⟩ := staged_step src dest staged (shardings n)
    have grows := progress.grows (underway n (Nat.lt_succ_self n))
    right
    rw [progress.next]
    rcases ih fun m less => underway m (Nat.lt_succ_of_lt less) with rfl | bound
    · rcases after with rfl | ⟨k, _, _, rfl⟩
      · exact absurd grows (Int.lt_irrefl 0)
      · omega
    · exact staged_round after (Int.lt_of_le_of_lt bound grows)

/-- Every step of a journey ends, outside the destination's shard in progress, and the journey arrives. -/
theorem journey_arrives (src dest : AccountIdPrefixFull) (shardings : Nat → Sharding) :
    (∀ n, ∃ c h, Progress src dest ((shardings n).router src dest (usedDestBits src dest shardings n))
      (usedDestBits src dest shardings n) c h ∧ usedDestBits src dest shardings (n + 1) = h) ∧
    ∃ n ≤ 18, ((shardings n).router src dest (usedDestBits src dest shardings n)).contains dest = true := by
  constructor
  · intro n
    obtain ⟨c, h, progress, _⟩ := staged_step src dest (usedDestBits_staged src dest shardings n) (shardings n)
    exact ⟨c, h, progress, progress.next⟩
  · by_contra never
    have underway : ∀ m < 18,
        ((shardings m).router src dest (usedDestBits src dest shardings m)).contains dest = false := by
      intro m less
      rw [← Bool.not_eq_true]
      exact fun arrived => never ⟨m, Nat.le_of_lt less, arrived⟩
    rcases usedDestBits_grows shardings 17 fun m less => underway m (by omega) with zero | bound
    · cases zero
    have top := staged_le (usedDestBits_staged src dest shardings 17)
    have all : usedDestBits src dest shardings 17 = 96 := by omega
    have owns := (shardings 17).owns (interpolateAddr src dest 96)
    have outside := underway 17 (by decide)
    rw [all, Sharding.router, interpolateAddr_full] at outside
    rw [interpolateAddr_full, outside] at owns
    cases owns

/-- After the one hop to the masterchain, the next step takes no more bits. -/
theorem arrived_message_stays :
    performHypercubeRouting ⟨0, 0⟩ ⟨masterchainId, 0⟩
      (Sharding.whole.router ⟨0, 0⟩ ⟨masterchainId, 0⟩
        (usedDestBits ⟨0, 0⟩ ⟨masterchainId, 0⟩ (fun _ => Sharding.whole) 1))
      (usedDestBits ⟨0, 0⟩ ⟨masterchainId, 0⟩ (fun _ => Sharding.whole) 1) = some (96, 96) ∧
    ¬ usedDestBits ⟨0, 0⟩ ⟨masterchainId, 0⟩ (fun _ => Sharding.whole) 1 < 96 := by
  decide +kernel

end Journey

def addressBits (a : AccountIdPrefixFull) : BitVec 96 := a.workchain ++ a.accountIdPrefix

/-- The first `d` bits are those of the destination, the others those of the source. -/
def TakesBits (src dest : AccountIdPrefixFull) (d : Nat) : Prop :=
  ∀ i < 96, (addressBits (interpolateAddr src dest d)).getMsbD i =
    (addressBits (if i < d then dest else src)).getMsbD i

section Interpolation

variable {src dest : AccountIdPrefixFull} {d i : Nat}

theorem getMsbD_addressBits (a : AccountIdPrefixFull) (i : Nat) :
    (addressBits a).getMsbD i = if 32 ≤ i then a.accountIdPrefix.getMsbD (i - 32) else a.workchain.getMsbD i :=
  BitVec.getMsbD_append

/-- The shifted mask of a workchain has all of its bits, so that nothing is taken. -/
theorem interpolateAddr_short (short : d < 32) : interpolateAddr src dest d = src := by
  unfold interpolateAddr
  split
  · rfl
  have mask : (-1 : BitVec 32).sshiftRight d = .allOnes 32 := by
    revert d
    decide
  rw [if_neg (by omega), if_neg (by omega)]
  simp only [Int.toNat_natCast, mask, BitVec.not_allOnes, BitVec.and_zero, BitVec.zero_or, BitVec.and_allOnes]

theorem takesBits_long (long : 32 ≤ d) (all : d ≤ 96) : TakesBits src dest d := by
  intro i inside
  obtain ⟨n, rfl⟩ := Nat.exists_eq_add_of_le long
  rw [Nat.cast_add, Nat.cast_ofNat, interpolateAddr_bits src dest (by omega), getMsbD_addressBits, getMsbD_addressBits]
  by_cases late : 32 ≤ i
  · rw [if_pos late, if_pos late, BitVec.getMsbD_eq_getLsbD, BitVec.getMsbD_eq_getLsbD, getLsbD_mixed (by omega)]
    by_cases taken : i < 32 + n
    · rw [if_pos taken, if_pos (by omega)]
    · rw [if_neg taken, if_neg (by omega)]
  · rw [if_neg late, if_neg late, if_pos (by omega)]

end Interpolation

/-- An address takes its bits from the destination except for the first bits of another workchain. -/
theorem takesBits_iff (src dest : AccountIdPrefixFull) (d : Fin 97) :
    TakesBits src dest d ↔ (d : Nat) < 32 → ∀ i < (d : Nat), src.workchain.getMsbD i = dest.workchain.getMsbD i := by
  by_cases short : (d : Nat) < 32
  · have early {i : Nat} (first : i < d) : ¬ 32 ≤ i := by omega
    rw [TakesBits, interpolateAddr_short short]
    constructor
    · intro takes _ i first
      have bit := takes i (by omega)
      rwa [if_pos first, getMsbD_addressBits, getMsbD_addressBits, if_neg (early first), if_neg (early first)] at bit
    · intro same i _
      by_cases first : i < d
      · rw [if_pos first, getMsbD_addressBits, getMsbD_addressBits, if_neg (early first), if_neg (early first),
          same short i first]
      · rw [if_neg first]
  · exact iff_of_true (takesBits_long (by omega) (by omega)) fun less => absurd less short

/-- One bit of the masterchain is not taken. -/
theorem first_bit_not_taken : ¬ TakesBits ⟨0, 0⟩ ⟨masterchainId, 0⟩ 1 := by
  intro takes
  have bit := takes 0 (by decide)
  revert bit
  decide

end TonStaking.Guarantees.HypercubeRouting
