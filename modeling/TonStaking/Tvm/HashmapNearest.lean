import TonStaking.Tvm.HashmapOrder

/-!
# Nearest-key searches in arbitrary cells

Facts about `dict_lookup_nearest` that need no well-formed dictionary: a search
upwards only returns keys above the pivot, and the returned slice is no longer
than the cells it was read from. Both hold for any key width, also for one the
cells were not written with.
-/
namespace Tvm.Hashmap

/-- A strict search upwards returns a key above the pivot. -/
theorem dictLookupNearest_gt {fuel : Nat} {cell : Cell} {key k : List Bool} {value : Slice}
    (h : dictLookupNearest false fuel cell key ⟨true, true⟩ = .ok (some (k, value))) :
    natOf key < natOf k := by
  obtain ⟨present, near⟩ := nearest_sound h
  rcases near.2.1 with further | ⟨impossible, -⟩
  · exact (further_natOf (valueAt_length present).symm).mp further
  · cases impossible

theorem udictGetNext?_gt {n : Nat} {root : Option Cell} {pivot : Int} {k : Nat} {value : Slice}
    (inRange : 0 ≤ pivot) (h : udictGetNext? n root pivot = .ok (some (k, value))) : pivot < k := by
  unfold udictGetNext? udictGetNear at h
  split at h
  · cases h
  split at h
  · next key stored =>
    obtain ⟨found, search, h⟩ := of_bind h
    cases found with
    | none => cases h
    | some e =>
      simp only [Option.map_some, Except.ok.injEq, Option.some.injEq, Prod.mk.injEq] at h
      have above := dictLookupNearest_gt search
      rw [natOf_uintBits] at above
      have := storeUint_success stored
      omega
  · simp [inRange] at h

section Size

/-- No cell of the tree has more than `b` bits. -/
inductive Within (b : Nat) : Cell → Prop
  | mk (bits : List Bool) (refs : List Cell) (here : bits.length ≤ b)
      (below : ∀ c ∈ refs, Within b c) : Within b (.mk bits refs)

variable {b : Nat}
variable {cell : Cell} {fuel n : Nat} {value : Slice}

section

variable (within : Within b cell)
include within

theorem Within.bits_le : cell.bits.length ≤ b := by
  cases within with
  | mk bits refs here below => exact here

theorem Within.child {c : Cell} (member : c ∈ cell.refs) : Within b c := by
  cases within with
  | mk bits refs here below => exact below c member

theorem Within.dictLookup {key : List Bool} (h : Hashmap.dictLookup fuel cell key = .ok (some value)) :
    value.bits.length ≤ b := by
  induction fuel generalizing cell key with
  | zero => cases h
  | succ fuel ih =>
    obtain ⟨⟨label, payload⟩, read, h⟩ := of_bind h
    obtain ⟨-, shorter, refs⟩ := readNode_success read
    simp only at h
    split at h
    · cases h
    split at h
    · cases h
      exact le_trans shorter within.bits_le
    · obtain ⟨next, taken, h⟩ := of_bind h
      exact ih (within.child (refs ▸ child_mem taken)) h

theorem Within.valueAt {key : List Bool} (found : Hashmap.valueAt fuel n cell key = some value) :
    value.bits.length ≤ b := by
  unfold Hashmap.valueAt at found
  split at found
  · split at found
    · next looked =>
      subst found
      exact within.dictLookup looked
    · cases found
  · cases found

theorem udictGetNear_length {up : Bool} {k : Nat} {pivot : Int}
    (h : udictGetNear up n (some cell) pivot = .ok (some (k, value))) :
    value.bits.length ≤ b := by
  simp only [udictGetNear] at h
  split at h
  · obtain ⟨found, search, h⟩ := of_bind h
    cases found with
    | none => cases h
    | some e =>
      obtain ⟨rfl, rfl⟩ := h
      exact within.valueAt (nearest_sound search).1
  · split at h
    · cases h
    obtain ⟨found, extreme, h⟩ := of_bind h
    obtain ⟨rfl, rfl⟩ := h
    exact within.valueAt (minmax_sound extreme).1

end

/-- Size of the cells of a trie, whatever width they are read with later. -/
theorem toCell_within {w : Nat} {t : Trie} (wf : t.WF n) {bound : Nat}
    (all : t.All fun v => v.bits.length ≤ w ∧ v.refs = []) (room : n + bitLen n + 3 + w ≤ bound)
    (mono : ∀ m ≤ n, bitLen m ≤ bitLen n) :
    Within bound (t.toCell n) := by
  induction wf with
  | leaf label value =>
    obtain ⟨bits, refs⟩ := all
    have encoded := appendLabel_length_le label label.length
    refine .mk _ _ ?_ (by simp [refs])
    rw [List.length_append]
    omega
  | @fork m label left right _ _ ihLeft ihRight =>
    have encoded := appendLabel_length_le label (label.length + 1 + m)
    have smaller := mono m (by omega)
    have below : ∀ j ≤ m, bitLen j ≤ bitLen m := by
      intro j le
      exact bitLen_le (lt_of_le_of_lt le (lt_two_pow_bitLen m))
    rw [toCell_fork]
    refine .mk _ _ (by omega) ?_
    intro c member
    simp only [List.mem_cons, List.not_mem_nil, or_false] at member
    rcases member with rfl | rfl
    · exact ihLeft all.1 (by omega) below
    · exact ihRight all.2 (by omega) below

end Size

end Tvm.Hashmap
