import TonStaking.Tvm.HashmapTrie

/-!
# Trees of cells that are dictionaries

A tree of cells is a dictionary with `n`-bit keys when every node parses as an
edge with a value or two subtrees behind it. Its labels may have any encoding
that `LabelParser` accepts; `append_dict_label` chooses a shortest one, so a trie
whose own cells overflow has no other dictionary tree either.
-/
namespace Tvm.Hashmap

section Encodings

variable {n : Nat}

theorem appendLabel_length_same {l : Nat} (le : l ≤ n) (same : Bool) :
    (appendLabel (List.replicate l same) n).length ≤ bitLen n + 3 := by
  cases l with
  | zero => simp [appendLabel]
  | succ l =>
    rw [List.replicate_succ, appendLabel_cons, if_pos (by simp), appendLabelSame, List.length_replicate]
    split
    · simp
    · split <;> simp <;> omega

/-- A label fits its key, and no accepted encoding of it is shorter than the one that is written. -/
theorem parseLabel_length {bits label rest : List Bool} (parsed : parseLabel n bits = some (label, rest)) :
    label.length ≤ n ∧ (appendLabel label n).length + rest.length ≤ bits.length := by
  have listed := appendLabel_length_le label n
  unfold parseLabel at parsed
  split at parsed
  · cases parsed
    simp [appendLabel]
    omega
  · simp only [] at parsed
    split at parsed
    · next fits =>
      cases parsed
      simp only [List.length_take, List.length_drop, List.length_cons] at fits listed ⊢
      omega
    · cases parsed
  · split at parsed
    · simp only [] at parsed
      split at parsed
      · next fits =>
        cases parsed
        simp only [List.length_take, List.length_drop, List.length_cons] at fits listed ⊢
        omega
      · cases parsed
    · cases parsed
  · next same tail =>
    split at parsed
    · simp only [] at parsed
      split at parsed
      · next le =>
        cases parsed
        have shortest := appendLabel_length_same le same
        simp only [List.length_replicate, List.length_drop, List.length_cons]
        omega
      · cases parsed
    · cases parsed
  · cases parsed

end Encodings

theorem readNode_ok {n : Nat} {cell : Cell} {label : List Bool} {payload : Slice}
    (read : readNode n cell = .ok (label, payload)) :
    ∃ rest, parseLabel n cell.bits = some (label, rest) ∧ payload = ⟨rest, cell.refs⟩ := by
  unfold readNode at read
  split at read
  · cases read
  rename_i label' rest parsed
  split at read
  · cases read
  · cases read
    exact ⟨rest, parsed, rfl⟩

theorem readNode_success {n : Nat} {cell : Cell} {label : List Bool} {payload : Slice}
    (h : readNode n cell = .ok (label, payload)) :
    label.length ≤ n ∧ payload.bits.length ≤ cell.bits.length ∧ payload.refs = cell.refs := by
  obtain ⟨rest, parsed, rfl⟩ := readNode_ok h
  obtain ⟨short, shortest⟩ := parseLabel_length parsed
  exact ⟨short, (Nat.le_add_left _ _).trans shortest, rfl⟩

theorem child_mem {refs : List Cell} {bit : Bool} {c : Cell} (h : child refs bit = .ok c) : c ∈ refs := by
  unfold child at h
  split at h
  · cases h
    simp
  · cases h
    simp
  · cases h

section Meaning

variable {P : Cell → Prop} {n : Nat} {cell : Cell} {t : Trie}

/-- The cells of a trie that fits are a dictionary of ordinary cells with its content. -/
theorem reads_sized (wf : t.WF n) (fits : t.Fits n) : Reads Sized n (t.toCell n) t := by
  induction wf with
  | leaf label value => exact .leaf fits (readNode_leaf label value)
  | @fork m label left right _ _ ihLeft ihRight =>
    obtain ⟨sized, fitsLeft, fitsRight⟩ := (Trie.fits_fork label left right).mp fits
    exact .fork sized (readNode_fork label left right) (ihLeft fitsLeft) (ihRight fitsRight)

/-- A node written anew is not larger. -/
theorem sized_rewrite {label : List Bool} {payload : Slice} (sized : Sized cell)
    (read : readNode n cell = .ok (label, payload)) :
    Sized (.mk (appendLabel label n ++ payload.bits) payload.refs) := by
  obtain ⟨rest, parsed, rfl⟩ := readNode_ok read
  have shortest := (parseLabel_length parsed).2
  refine ⟨?_, sized.2.1, ?_⟩
  · simp only [Cell.bits, List.length_append]
    exact le_trans shortest sized.1
  · exact le_of_eq_of_le cell.depth_eq.symm sized.2.2

/-- All dictionary trees of a trie have its depth. -/
theorem Reads.depth (reads : Reads P n cell t) : cell.depth = t.depth := by
  induction reads with
  | leaf good read => rw [Cell.depth_eq, ← (readNode_success read).2.2, Trie.depth]
  | fork good read readsLeft readsRight ihLeft ihRight =>
    rw [Cell.depth_eq, ← (readNode_success read).2.2]
    simp [refsDepth, Trie.depth, ihLeft, ihRight]

theorem Reads.sized_fork {m : Nat} {left right : Cell} {l r : Trie} (readsLeft : Reads P m left l)
    (readsRight : Reads P m right r) (bits : List Bool) :
    Sized (.mk bits [left, right]) ↔ Sized (.mk bits [l.toCell m, r.toCell m]) := by
  simp [Sized, Cell.bits, Cell.refs, Cell.depth, refsDepth, readsLeft.depth, readsRight.depth]

/-- A trie with any dictionary tree of ordinary cells has one with the cells of `toCell`. -/
theorem Reads.fits (reads : Reads Sized n cell t) : t.Fits n := by
  induction reads with
  | leaf good read => exact sized_rewrite good read
  | @fork m cell left right label l r good read readsLeft readsRight ihLeft ihRight =>
    refine (Trie.fits_fork label l r).mpr ⟨?_, ihLeft, ihRight⟩
    have anew := sized_rewrite good read
    rw [List.append_nil] at anew
    rw [toCell_fork]
    exact (readsLeft.sized_fork readsRight _).mp anew

end Meaning

end Tvm.Hashmap
