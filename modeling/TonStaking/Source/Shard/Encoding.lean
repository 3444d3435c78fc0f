import TonStaking.Source.Shard.Prefixes
import TonStaking.Tvm.Slice

/-!
# Shard identifiers in block data

`block::ShardId` of `crypto/block/block.h` 85-150 and `crypto/block/block.cpp`
262-347: a shard with the length of its prefix. The serialized form holds the
prefix without the end marker.
-/
namespace TonStaking.Source.Shard

open BitVec TonStaking.Word Tvm

/-- The `ShardId` of `block`. Every constructor leaves a length that fits the six bits it is stored in. -/
structure Block.ShardId where
  workchainId : WorkchainId
  shardPfxLen : Uint 6
  shardPfx : BitVec 64
  deriving DecidableEq

namespace Block.ShardId

/-- The constructors that take a marked prefix; `init` finds the length. -/
def ofFull (id : ShardIdFull) : ShardId :=
  if id.shard = 0 then ⟨id.workchain, 0, twoPow 64 63⟩
  else ⟨id.workchain, ⟨63 - countTrailingZeroesNonZero64 id.shard, by omega⟩, id.shard⟩

/-- The constructor that takes a prefix and its length. -/
def ofPrefix (wcId : WorkchainId) (shPfx : BitVec 64) (shPfxLen : Int) : ShardId :=
  if shPfxLen < 0 then ⟨wcId, 0, twoPow 64 63⟩
  else if h : 63 < shPfxLen then ⟨wcId, 63, shPfx ||| 1#64⟩
  else
    let pow := twoPow 64 (63 - shPfxLen.toNat)
    ⟨wcId, ⟨shPfxLen.toNat, by omega⟩, (shPfx ||| pow) &&& (pow - 1#64)⟩

/-- The stored fields, after a tag of two zeroes. -/
def fields (len : Uint 6) (wcId : WorkchainId) (pfx : BitVec 64) : List Bool :=
  Uint.bits (0 : Uint 2) ++ (Uint.bits len ++ (Uint.bits wcId.toFin ++ Uint.bits pfx.toFin))

def serialize (id : ShardId) (cb : List Bool) : Option (List Bool) :=
  if id.workchainId = workchainInvalid ∨ 1023 - cb.length < 104 then none
  else some (cb ++ fields id.shardPfxLen id.workchainId (id.shardPfx &&& (id.shardPfx - 1#64)))

def deserialize (cs : Slice) : Option (ShardId × Slice) := do
  let (tag, cs) ← (loadUint 2 cs).toOption
  guard (tag = 0)
  let (len, cs) ← (loadUint 6 cs).toOption
  let (wcId, cs) ← (loadUint 32 cs).toOption
  guard (ofFin wcId ≠ workchainInvalid)
  let (pfx, cs) ← (loadUint 64 cs).toOption
  let pow2 := twoPow 64 (63 - len.val)
  guard (ofFin pfx &&& (pow2 - 1#64) = 0)
  some (⟨ofFin wcId, len, ofFin pfx ||| pow2⟩, cs)

variable {id : ShardId} {cs rest : Slice} {x pfx : BitVec 64}

theorem toOption_loadUint {n : Nat} {u : Uint n} :
    (loadUint n cs).toOption = some (u, rest) ↔ cs = ⟨Uint.bits u ++ rest.bits, rest.refs⟩ := by
  constructor
  · intro loaded
    cases step : loadUint n cs with
    | error e => simp [step, Except.toOption] at loaded
    | ok r =>
      simp only [step, Except.toOption, Option.some.injEq] at loaded
      exact loadUint_eq (loaded ▸ step)
  · rintro rfl
    rw [loadUint_bits]
    rfl

theorem deserialize_iff : deserialize cs = some (id, rest) ↔ id.workchainId ≠ workchainInvalid ∧ ∃ pfx,
    cs = ⟨fields id.shardPfxLen id.workchainId pfx ++ rest.bits, rest.refs⟩ ∧
      pfx &&& (twoPow 64 (63 - id.shardPfxLen.val) - 1#64) = 0 ∧
      id.shardPfx = pfx ||| twoPow 64 (63 - id.shardPfxLen.val) := by
  simp only [deserialize, Option.bind_eq_bind, Option.bind_eq_some_iff, Prod.exists, toOption_loadUint,
    Option.guard_eq_some', Option.some.injEq, Prod.mk.injEq]
  constructor
  · rintro ⟨tag, _, rfl, _, rfl, len, _, rfl, wcId, _, rfl, _, valid, pfx, _, rfl, _, zeroes, rfl, rfl⟩
    exact ⟨valid, ofFin pfx, by simp [fields], zeroes, rfl⟩
  · rintro ⟨valid, pfx, rfl, zeroes, marked⟩
    refine ⟨0, _, ?_, (), rfl, id.shardPfxLen, _, rfl, id.workchainId.toFin, _, rfl, (), valid, pfx.toFin, _, rfl,
      (), zeroes, ?_, rfl⟩
    · simp [fields]
    · rw [← marked]

theorem deserialize_ofFull {full : ShardIdFull} (nonzero : full.shard ≠ 0) (valid : full.workchain ≠ workchainInvalid) :
    ∃ bits, (ofFull full).serialize [] = some bits ∧
      ∀ rest, deserialize ⟨bits ++ rest.bits, rest.refs⟩ = some (ofFull full, rest) := by
  have inside := lowest_lt nonzero
  have position : 63 - (63 - lowest full.shard) = lowest full.shard := by omega
  rw [ofFull, if_neg nonzero]
  refine ⟨_, if_neg (by simp [valid]), fun rest => deserialize_iff.mpr ⟨valid, _, rfl, ?_, ?_⟩⟩
  · change _ &&& (twoPow 64 (63 - (63 - lowest full.shard)) - 1#64) = 0
    rw [position]
    refine (and_ones_eq_zero inside).mpr fun i below => ?_
    simp [getLsbD_below below]
  · change full.shard = _ ||| twoPow 64 (63 - (63 - lowest full.shard))
    rw [position, and_sub_one nonzero, or_twoPow_of_set (getLsbD_lowest nonzero)]

/-- The mask keeps the bits below the marker only. -/
theorem ofPrefix_eq_iff (wcId : WorkchainId) (a : AccountIdPrefix) (len : Nat) :
    ofPrefix wcId a len = ofFull ⟨wcId, accountShardPrefix a len⟩ ↔ 63 < len := by
  obtain ⟨nonzero, position, -⟩ := accountShardPrefix_spec a len
  have set := position ▸ getLsbD_lowest nonzero
  rw [ofPrefix, if_neg (by omega), ofFull, if_neg nonzero]
  split
  · next large =>
    have mask : bitsNegate64 (twoPow 64 0) = allOnes 64 := by decide
    have bottom : 63 - len = 0 := by omega
    rw [bottom] at position
    have last : accountShardPrefix a len = a ||| 1#64 := by
      rw [accountShardPrefix, bottom, mask, and_allOnes]
      rfl
    refine iff_of_true ?_ (by omega)
    rw [last] at position ⊢
    congr 1
    exact Fin.ext (congrArg (63 - ·) position).symm
  · next short =>
    refine iff_of_false (fun same => ?_) (by omega)
    have bit := congrArg (fun id => id.shardPfx.getLsbD (63 - len)) same
    rw [set, getLsbD_and, getLsbD_twoPow_sub_one (by omega)] at bit
    simp at bit

/-- A string that is read is the stored one, unless the marker is in it. -/
theorem serialize_iff (read : deserialize cs = some (id, rest))
    (held : cs.bits = fields id.shardPfxLen id.workchainId pfx ++ rest.bits) :
    (∃ bits, id.serialize [] = some bits ∧ cs.bits = bits ++ rest.bits) ↔
      pfx.getLsbD (63 - id.shardPfxLen.val) = false := by
  obtain ⟨valid, stored, rfl, zeroes, marked⟩ := deserialize_iff.mp read
  have inside : 63 - id.shardPfxLen.val < 64 := by omega
  have inj : ∀ p q, fields id.shardPfxLen id.workchainId p = fields id.shardPfxLen id.workchainId q ↔ p = q := by
    simp [fields, Uint.bits_inj, BitVec.toFin_inj]
  rw [List.append_cancel_right_eq, inj] at held
  subst held
  simp only [serialize, valid, List.length_nil, List.append_cancel_right_eq]
  generalize 63 - id.shardPfxLen.val = k at *
  have set : id.shardPfx.getLsbD k = true := by simp [marked, inside]
  have position : lowest id.shardPfx = k := by
    refine lowest_eq set fun i below => ?_
    have clear := (and_ones_eq_zero inside).mp zeroes i below
    simp [marked, clear, Nat.ne_of_gt below]
  rw [and_sub_one (ne_zero_of_set set), position, marked]
  simp only [false_or, Nat.reduceSub, Nat.reduceLT, if_false, Option.some.injEq, exists_eq_left', List.nil_append, inj]
  constructor
  · intro same
    rw [same]
    simp
  · intro clear
    refine (eq_of_getLsbD_eq fun i below => ?_).symm
    by_cases same : i = k
    · simp [same, clear]
    · simp [same, below]

end Block.ShardId

end TonStaking.Source.Shard
