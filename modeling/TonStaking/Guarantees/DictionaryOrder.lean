import TonStaking.Source.Dict

/-!
# Nearest and extreme keys

Searches in a dictionary should return the neighbour of a key, and the extreme
keys, in the order of unsigned or of signed integers. They do so for every
dictionary, also for one whose labels are not encoded in the shortest way.
Extraction of an extreme key removes exactly this key, unless what remains has
no tree of cells: then it throws and removes nothing.
-/
namespace TonStaking.Guarantees.DictionaryOrder

open Tvm Tvm.Hashmap TonStaking.Source.Dict Dictionary

/-- `a` comes before `b` on the way up or down. -/
def Precedes (up signed : Bool) (a b : List Bool) : Prop :=
  if up then keyValue signed a < keyValue signed b else keyValue signed b < keyValue signed a

/-- The keys that a search from `key` may return. -/
def Candidate (up signed allowEq : Bool) (key k : List Bool) : Prop :=
  Precedes up signed key k ∨ (allowEq = true ∧ k = key)

/-- The first candidate with its value, or nothing if there is no candidate. -/
def IsNearest (content : Content) (up signed allowEq : Bool) (key : List Bool) :
    Option (List Bool × Slice) → Prop
  | some (k, v) => content.lookup k = some v ∧ Candidate up signed allowEq key k ∧
    ∀ k' ∈ content, Candidate up signed allowEq key k' → k' = k ∨ Precedes up signed k k'
  | none => ∀ k ∈ content, ¬ Candidate up signed allowEq key k

/-- The last key on the way up or down with its value, or nothing if there is no key. -/
def IsExtreme (content : Content) (up signed : Bool) : Option (List Bool × Slice) → Prop
  | some (k, v) => content.lookup k = some v ∧ ∀ k' ∈ content, k' = k ∨ Precedes up signed k' k
  | none => content = ∅

/-- The key is removed with its value, unless the rest has no tree of cells. -/
def Removes (n : Nat) (root : Option Cell) (content : Content) (found : Option (List Bool × Slice))
    (out : Outcome (Option (List Bool × Slice) × Dictionary)) : Prop :=
  match found with
  | some (k, v) =>
    (Storable n (content.erase k) →
      ∃ rest, out = .ok (some (k, v), ⟨n, rest⟩) ∧ Holds n rest (content.erase k)) ∧
    (¬ Storable n (content.erase k) → out = .error .cellOv)
  | none => out = .ok (none, ⟨n, root⟩)

section Searches

variable {n : Nat} {content : Content} {t : Trie} {up signed allowEq : Bool} {key k : List Bool}
  {out : Option (List Bool × Slice)}

theorem precedes_iff {a b : List Bool} (len : a.length = b.length) :
    Precedes up signed a b ↔ Further (.ordered up signed) a b := (further_ordered up signed len).symm

section

variable (stands : Stands n (some t) content)
include stands

theorem mem_iff_get? : k ∈ content ↔ (t.get? k).isSome := by
  rw [← Finmap.lookup_isSome, ← stands.same, Trie.lookup_some]

theorem length_of_mem (mem : k ∈ content) : k.length = n :=
  (stands.wf t rfl).length_of_get? ((mem_iff_get? stands).mp mem)

omit stands in
theorem candidate_iff (len : key.length = k.length) :
    Candidate up signed allowEq key k ↔ Beyond allowEq (.ordered up signed) key k := by
  rw [Candidate, Beyond, precedes_iff len]

theorem isNearest_of_finds (len : key.length = n)
    (finds : Finds allowEq (.ordered up signed) t.get? key out) :
    IsNearest content up signed allowEq key out := by
  cases out with
  | none =>
    intro k mem candidate
    have width := length_of_mem stands mem
    exact finds k ((mem_iff_get? stands).mp mem) ((candidate_iff (len.trans width.symm)).mp candidate)
  | some found =>
    obtain ⟨k, v⟩ := found
    obtain ⟨value, present, beyond, nearest⟩ := finds
    have width := length_of_mem stands ((mem_iff_get? stands).mpr present)
    refine ⟨by rw [← stands.same]; exact value, (candidate_iff (len.trans width.symm)).mpr beyond, ?_⟩
    intro k' mem candidate
    have width' := length_of_mem stands mem
    by_cases same : k' = k
    · exact .inl same
    right
    rw [precedes_iff (width.trans width'.symm)]
    exact nearest k' ((mem_iff_get? stands).mp mem) ((candidate_iff (len.trans width'.symm)).mp candidate)
      same

theorem isExtreme_of_furthest {v : Slice}
    (value : t.get? k = some v) (furthest : Furthest (.ordered up signed) t.get? k) :
    IsExtreme content up signed (some (k, v)) := by
  have width := length_of_mem stands ((mem_iff_get? stands).mpr furthest.1)
  refine ⟨by rw [← stands.same]; exact value, fun k' mem => ?_⟩
  have width' := length_of_mem stands mem
  by_cases same : k' = k
  · exact .inl same
  right
  rw [precedes_iff (width'.trans width.symm)]
  exact furthest.2 k' ((mem_iff_get? stands).mp mem) same

end

theorem empty_of_stands (stands : Stands n none content) : content = ∅ := by
  refine Finmap.ext_lookup fun k => ?_
  rw [← stands.same, Finmap.lookup_empty]
  rfl

variable {root : Option Cell}

theorem valid_dictionary (valid : n ≤ maxKeyBits) (root : Option Cell) :
    (mk n root).forceValidate = .ok () := if_pos valid

theorem lookupNearestKey_finds (valid : n ≤ maxKeyBits) (holds : Holds n root content) {key : List Bool}
    (len : key.length = n) (up allowEq signed : Bool) :
    ∃ out, (mk n root).lookupNearestKey key up allowEq signed = .ok out ∧
      IsNearest content up signed allowEq key out := by
  obtain ⟨t, rel, stands⟩ := holds.stands
  rw [lookupNearestKey, valid_dictionary valid, ok_bind]
  cases rel with
  | none =>
    refine ⟨none, rfl, fun k mem => ?_⟩
    rw [empty_of_stands stands] at mem
    exact absurd mem Finmap.notMem_empty
  | some reads =>
    obtain ⟨out, found⟩ := reads.nearest_ok allowEq (.ordered up signed) len (Nat.lt_succ_self n)
    have finds := nearest_sound found
    rw [len, reads.valueAt (Nat.lt_succ_self n)] at finds
    refine ⟨out, ?_, isNearest_of_finds stands len finds⟩
    simp only [len, ne_eq]
    exact found

theorem getMinmaxKey_finds (valid : n ≤ maxKeyBits) (holds : Holds n root content) (up signed : Bool) :
    ∃ out, (mk n root).getMinmaxKey n up signed = .ok out ∧ IsExtreme content up signed out := by
  obtain ⟨t, rel, stands⟩ := holds.stands
  rw [getMinmaxKey, valid_dictionary valid, ok_bind]
  cases rel with
  | none => exact ⟨none, rfl, empty_of_stands stands⟩
  | some reads =>
    obtain ⟨k, v, found⟩ := reads.minmax_ok (.ordered up signed) (Nat.lt_succ_self n)
    obtain ⟨value, furthest⟩ := minmax_sound found
    rw [reads.valueAt (Nat.lt_succ_self n)] at value furthest
    refine ⟨some (k, v), ?_, isExtreme_of_furthest stands value furthest⟩
    simp [found]

theorem extractMinmaxKey_removes (holds : Holds n root content) (up signed : Bool)
    (got : (mk n root).getMinmaxKey n up signed = .ok out) (extreme : IsExtreme content up signed out) :
    Removes n root content out ((mk n root).extractMinmaxKey n up signed) := by
  rw [extractMinmaxKey, got, ok_bind]
  cases out with
  | none => rfl
  | some found =>
    obtain ⟨k, v⟩ := found
    obtain ⟨t, rel, stands⟩ := holds.stands
    have value : Trie.lookup t k = some v := by rw [stands.same, extreme.1]
    cases rel with
    | none => cases value
    | @some cell r reads =>
      have len := length_of_mem stands (Finmap.mem_iff.mpr ⟨v, extreme.1⟩)
      obtain ⟨written, refused⟩ := (reads.dictLookupDelete len (Nat.lt_succ_self n)).2 v value
      have room := (stands.erase len).storable_iff
      constructor
      · intro storable
        obtain ⟨rest, done, rel', -⟩ := written (room.mp storable)
        refine ⟨rest, ?_, r.erase k, rel', (stands.erase len).same⟩
        simp [done]
      · intro large
        simp only [refused (fun fits => large (room.mpr fits))]
        rfl

end Searches

/-- Searches are exact in both orders and directions; an extreme key is removed alone. -/
theorem searches_exact (n : Nat) (valid : n ≤ maxKeyBits) (root : Option Cell) (content : Content)
    (holds : Holds n root content) (up signed : Bool) :
    (∀ key, key.length = n → ∀ allowEq,
      ∃ out, (mk n root).lookupNearestKey key up allowEq signed = .ok out ∧
        IsNearest content up signed allowEq key out) ∧
    ∃ out, (mk n root).getMinmaxKey n up signed = .ok out ∧
      IsExtreme content up signed out ∧
      Removes n root content out ((mk n root).extractMinmaxKey n up signed) := by
  refine ⟨fun key len allowEq => lookupNearestKey_finds valid holds len up allowEq signed, ?_⟩
  obtain ⟨out, got, extreme⟩ := getMinmaxKey_finds valid holds up signed
  exact ⟨out, got, extreme, extractMinmaxKey_removes holds up signed got extreme⟩

/-- The keys 1 and 65535, the last of which is -1 in the signed order. -/
def forkTrie : Trie := .fork [] (.leaf (bitsOf 15 1) shortValue) (.leaf (bitsOf 15 32767) shortValue)

def forkContent : Content := ((∅ : Content).insert (bitsOf 16 1) shortValue).insert (bitsOf 16 65535) shortValue

theorem holds_fork : Holds 16 (some (forkTrie.toCell 16)) forkContent := by
  have empty : Stands 16 none (∅ : Content) := ⟨by simp, fun k => rfl⟩
  have stands : Stands 16 (some forkTrie) forkContent :=
    (empty.insert shortValue (bitsOf_length 16 1)).insert shortValue (bitsOf_length 16 65535)
  have fits : forkTrie.Fits 16 := by decide
  exact ⟨_, .some (reads_sized (stands.wf _ rfl) fits), stands.same⟩

theorem searches_exact_fork :
    Holds 16 (some (forkTrie.toCell 16)) forkContent ∧
    ∃ out, (mk 16 (some (forkTrie.toCell 16))).lookupNearestKey (bitsOf 16 65535) true false true = .ok out ∧
      IsNearest forkContent true true false (bitsOf 16 65535) out :=
  ⟨holds_fork, (searches_exact 16 (by decide) _ _ holds_fork true true).1 _ (bitsOf_length 16 65535) false⟩

set_option maxRecDepth 20000 in
/-- The greatest key is found, and its removal throws. -/
theorem extraction_overflows :
    ((empty 16).run lastBitOps).2.getMinmaxKey 16 true false =
        .ok (some (bitsOf 16 1, shortValue)) ∧
      ((empty 16).run lastBitOps).2.extractMinmaxKey 16 true false = .error .cellOv :=
  ⟨rfl, rfl⟩

end TonStaking.Guarantees.DictionaryOrder
