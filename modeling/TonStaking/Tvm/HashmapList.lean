import TonStaking.Tvm.HashmapDelete
import TonStaking.Tvm.HashmapOrder

/-!
# Lists in dictionaries

A dictionary whose keys are the first integers holds a list. Storing a value under the next
integer appends it, the greatest key is the place of the last value, and lookups read the list.
-/
namespace Tvm.Hashmap

section

variable {n : Nat} {root : Option Cell} {values : List Slice}

/-- The dictionary has the values of the list under the keys 0, 1, 2 and so on. -/
def HoldsList (n : Nat) (root : Option Cell) (values : List Slice) : Prop :=
  ∃ t : Option Trie, root = t.map (·.toCell n) ∧ (∀ r ∈ t, r.WF n) ∧ Trie.FitsRoot n t ∧
    ∀ k : List Bool, k.length = n → Trie.lookup t k = values[natOf k]?

theorem holdsList_empty (n : Nat) : HoldsList n none [] := by
  refine ⟨none, rfl, ?_, Trie.fitsRoot_none n, fun _ _ => rfl⟩
  intro r absent
  cases absent

theorem HoldsList.append {after : Option Cell} {value : Slice} (holds : HoldsList n root values)
    (h : udictSet n root values.length value = .ok after) : HoldsList n after (values ++ [value]) := by
  obtain ⟨t, rfl, wf, fits, entries⟩ := holds
  obtain ⟨key, stored, h⟩ := of_bind h
  have index := storeUint_success stored
  have place : natOf (Uint.bits key) = values.length := by
    rw [natOf_uintBits]
    exact_mod_cast index
  rw [dictSet_root wf fits .set value (Uint.bits_length key)] at h
  obtain ⟨cell, written, h⟩ := of_bind h
  cases h
  have wfNew := Trie.insertRoot_wf wf value (Uint.bits_length key)
  have fitsNew : (Trie.insertRoot value (Uint.bits key) t).Fits n := by
    by_contra large
    rw [written_large large] at written
    cases written
  rw [written_fits fitsNew] at written
  cases written
  refine ⟨some (Trie.insertRoot value (Uint.bits key) t), rfl, ?_, (Trie.fitsRoot_some n _).mpr fitsNew, ?_⟩
  · intro r present
    cases present
    exact wfNew
  · intro k len
    show (Trie.insertRoot value (Uint.bits key) t).get? k = _
    rw [Trie.get?_insertRoot wf value (Uint.bits_length key) len]
    by_cases same : k = Uint.bits key
    · rw [if_pos same, same, place, List.getElem?_concat_length]
    rw [if_neg same, entries k len]
    have other : natOf k ≠ values.length := by
      intro equal
      exact same (natOf_inj (by rw [len, Uint.bits_length]) (by rw [equal, place]))
    rcases Nat.lt_or_gt_of_ne other with below | above
    · rw [List.getElem?_append_left below]
    · rw [List.getElem?_eq_none (by omega), List.getElem?_eq_none (by simp; omega)]

theorem HoldsList.exists_root (holds : HoldsList n root values) (some_ : values ≠ []) (small : values.length ≤ 2 ^ n) :
    ∃ cell, root = some cell ∧
      (∀ i, i < 2 ^ n → dictLookup (n + 1) cell (bitsOf n i) = .ok values[i]?) ∧
      ∃ k v, dictLookupMinmax (n + 1) cell n ⟨true, true⟩ = .ok (k, v) ∧ natOf k + 1 = values.length := by
  obtain ⟨t, rfl, wf, fits, entries⟩ := holds
  have positive : 0 < values.length := List.length_pos_iff.mpr some_
  cases t with
  | none =>
    have first := entries (bitsOf n 0) (bitsOf_length n 0)
    rw [natOf_bitsOf, Nat.zero_mod, List.getElem?_eq_getElem positive] at first
    cases first
  | some t =>
    have reads := reads_toCell (wf t rfl)
    refine ⟨t.toCell n, rfl, ?_, ?_⟩
    · intro i bound
      rw [reads.dictLookup (bitsOf_length n i) (Nat.lt_succ_self n)]
      have entry := entries (bitsOf n i) (bitsOf_length n i)
      rw [natOf_bitsOf, Nat.mod_eq_of_lt bound] at entry
      exact congrArg Except.ok entry
    · obtain ⟨k, v, found⟩ := reads.minmax_ok ⟨true, true⟩ (Nat.lt_succ_self n)
      obtain ⟨value, furthest⟩ := minmax_sound found
      rw [reads.valueAt (Nat.lt_succ_self n)] at value furthest
      have len : k.length = n := by
        have looked := (minmax_sound found).1
        exact valueAt_length looked
      have here : values[natOf k]? = some v := by
        rw [← entries k len]
        exact value
      have inside := (List.getElem?_eq_some_iff.mp here).1
      refine ⟨k, v, found, ?_⟩
      -- the last place holds a value, so the greatest key is not below it
      by_contra other
      have width : (bitsOf n (values.length - 1)).length = n := bitsOf_length n _
      have last : natOf (bitsOf n (values.length - 1)) = values.length - 1 := by
        rw [natOf_bitsOf, Nat.mod_eq_of_lt (by omega)]
      have present : (t.get? (bitsOf n (values.length - 1))).isSome := by
        have entry : t.get? (bitsOf n (values.length - 1)) = values[natOf (bitsOf n (values.length - 1))]? :=
          entries _ width
        rw [entry, last, List.getElem?_eq_getElem (by omega)]
        rfl
      have different : bitsOf n (values.length - 1) ≠ k := by
        intro same
        rw [same] at last
        omega
      have order := furthest.2 _ present different
      have mode : (⟨true, true⟩ : Mode) = .ordered true false := rfl
      rw [mode, further_natOf (by rw [width, len]), last] at order
      omega

end

end Tvm.Hashmap
