import TonStaking.Guarantees.MerkleProofs
import TonStaking.Source.Cells.StorageStat

/-!
# Storage statistics count every cell once

The totals of a search are those of the cells that can be reached, whatever is shared, and a tentative
addition answers what the addition changes.
-/
namespace TonStaking.Guarantees.StorageStatistics

open TonStaking.Source.Cells CellStorageStat NewCellStorageStat MerkleProofs

variable {Hash : Type} [DecidableEq Hash] {sha : Preimage Hash → Hash}

theorem addRefs_counts {roots : List (Cell Hash)} (apart : Apart sha fun x => ∃ root ∈ roots, Reaches root x) :
    Counts (fun x => ∃ root ∈ roots, Reaches root x) (addRefs sha true roots {}) := by
  have start : Visited sha (fun _ => False) {} := ⟨⟨∅, by simp, rfl, rfl⟩, by simp⟩
  have done : Visited sha (fun x => False ∨ ∃ root ∈ roots, Reaches root x) (addRefs sha true roots {}) :=
    addRefs_visits (fun root _ _ _ => addUsedStorage_visits) start (by simpa using apart)
      fun root member x y _ impossible => impossible.elim
  simpa using done.counts

/-- For one root, for several ones in any order, and for the differences that one cell makes. -/
theorem storage_counted_once {roots order : List (Cell Hash)}
    (apart : Apart sha fun x => ∃ root ∈ roots, Reaches root x) (same : order.Perm roots) :
    (∀ root ∈ roots, Counts (Reaches root) (computeUsedStorage sha true 0 root)) ∧
      Counts (fun x => ∃ root ∈ roots, Reaches root x) (addRefs sha true order {}) ∧
      ∀ (s : NewCellStorageStat Hash) (cell : Cell Hash),
        (addCell sha s cell).stat = s.stat + tentativeAddCell sha s cell := by
  refine ⟨fun root member => ?_, ?_, addCell_stat⟩
  · have one : Counts (fun x => ∃ r ∈ [root], Reaches r x) (addRefs sha true [root] {}) :=
      addRefs_counts (apart.mono fun x ⟨r, here, reached⟩ => ⟨r, List.mem_singleton.mp here ▸ member, reached⟩)
    simp only [List.mem_singleton, exists_eq_left] at one
    exact one
  · have all : Counts (fun x => ∃ root ∈ order, Reaches root x) (addRefs sha true order {}) :=
      addRefs_counts (by simpa only [same.mem_iff] using apart)
    simpa only [same.mem_iff] using all

/-- Two cells, one of which refers to the other. -/
theorem two_roots_counted :
    Apart Digest.of (fun x => ∃ root ∈ [chain 0, chain 1], Reaches root x) ∧
      [chain 1, chain 0].Perm [chain 0, chain 1] ∧
      Counts (fun x => ∃ root ∈ [chain 0, chain 1], Reaches root x) (addRefs Digest.of true [chain 1, chain 0] {}) := by
  have valid (x : Cell Digest) (reached : ∃ root ∈ [chain 0, chain 1], Reaches root x) : Cell.Valid Digest.of x := by
    obtain rfl | rfl : x = chain 0 ∨ x = chain 1 := by
      simp only [chain, List.mem_cons, List.not_mem_nil, or_false, exists_eq_or_imp, exists_eq_left, reaches_iff,
        false_and, exists_false] at reached
      tauto
    · exact chain_valid (by decide)
    · exact chain_valid (by decide)
  have apart : Apart Digest.of fun x => ∃ root ∈ [chain 0, chain 1], Reaches root x := fun x y left right =>
    (valid x left).eq_of_reprHash Digest.of Digest.of_injective (valid y right)
  have swapped := List.Perm.swap (chain 0) (chain 1) []
  exact ⟨apart, swapped, (storage_counted_once apart swapped).2.1⟩

/-- Along every sequence of additions both collectors have the same totals, and a tentative addition
answers by how much those of the old one will grow. -/
theorem collectors_agree (roots : List (Cell Hash)) (cell : Cell Hash) :
    counters (roots.foldl (addCell sha) {}) = addRefs sha true roots {} ∧
      (addRefs sha true (roots ++ [cell]) {}).cells =
        (addRefs sha true roots {}).cells + (tentativeAddCell sha (roots.foldl (addCell sha) {}) cell).cells ∧
      (addRefs sha true (roots ++ [cell]) {}).bits =
        (addRefs sha true roots {}).bits + (tentativeAddCell sha (roots.foldl (addCell sha) {}) cell).bits := by
  have agree (roots : List (Cell Hash)) (s : NewCellStorageStat Hash) :
      counters (roots.foldl (addCell sha) s) = addRefs sha true roots (counters s) := by
    induction roots generalizing s with
    | nil => rfl
    | cons root roots ih => rw [List.foldl_cons, ih, counters_addCell, addRefs]
  have all : ∀ roots, counters (roots.foldl (addCell sha) {}) = addRefs sha true roots {} := fun roots => agree roots {}
  refine ⟨all roots, ?_⟩
  rw [← all, ← all, List.foldl_append]
  have grown : (addCell sha (roots.foldl (addCell sha) {}) cell).stat = _ := addCell_stat _ cell
  exact ⟨congrArg Stat.cells grown, congrArg Stat.bits grown⟩

end TonStaking.Guarantees.StorageStatistics
