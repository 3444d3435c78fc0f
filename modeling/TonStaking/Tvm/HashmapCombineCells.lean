import TonStaking.Tvm.HashmapCombine

/-!
# Combination of dictionary cells

On the cells of two well-formed tries `dict_combine_with` writes the cells of
the combined trie and meets no exception of the machine; a trie is determined
by its values, so equal contents are equal cells.
-/
namespace Tvm.Hashmap

namespace Trie

section Cells

variable {n : Nat} {t : Trie}

/-- What follows the label in the cell of a node. -/
def payload (n : Nat) : Trie → Slice
  | .leaf _ value => value
  | .fork label left right =>
    ⟨[], [left.toCell (n - label.length - 1), right.toCell (n - label.length - 1)]⟩

theorem toCell_eq (n : Nat) (t : Trie) :
    t.toCell n = .mk (appendLabel t.label n ++ (t.payload n).bits) (t.payload n).refs := by
  cases t with
  | leaf l v => rfl
  | fork l a b => simp [toCell, payload]

theorem payload_fork {m : Nat} (l : List Bool) (a b : Trie) :
    (fork l a b).payload (l.length + 1 + m) = ⟨[], [a.toCell m, b.toCell m]⟩ := by
  have below : l.length + 1 + m - l.length - 1 = m := by omega
  simp [payload, below]

theorem payload_extend (p : List Bool) (t : Trie) (n : Nat) : (t.extend p).payload (n + p.length) = t.payload n := by
  cases t with
  | leaf l v => rfl
  | fork l a b =>
    have below : n + p.length - (p ++ l).length - 1 = n - l.length - 1 := by simp; omega
    simp only [extend_fork, payload, below]

theorem payload_extend_bit (p : List Bool) (b : Bool) (t : Trie) (m : Nat) :
    (t.extend (p ++ [b])).payload (p.length + 1 + m) = t.payload m := by
  have total : p.length + 1 + m = m + (p ++ [b]).length := by simp; omega
  rw [total, payload_extend]

theorem readNode_toCell (wf : WF n t) : readNode n (t.toCell n) = .ok (t.label, t.payload n) := by
  cases wf with
  | leaf l v => exact readNode_leaf l v
  | fork l wfLeft wfRight =>
    rw [readNode_fork, payload_fork]
    rfl

/-- The label of a node that is read together with `p` above it. -/
theorem readNode_extend (wf : WF n t) (p : List Bool) :
    readNode (n + p.length) ((t.extend p).toCell (n + p.length)) = .ok (p ++ t.label, t.payload n) := by
  have longer := wf.extend p
  rw [Nat.add_comm] at longer
  rw [readNode_toCell longer, label_extend, payload_extend]

theorem buildCell_payload (fits : t.Fits n) :
    buildCell (appendLabel t.label n ++ (t.payload n).bits) (t.payload n).refs = .ok (t.toCell n) := by
  rw [buildCell_eq, ← toCell_eq]
  exact if_pos fits.sized

theorem buildCell_fork {m : Nat} {l : List Bool} {a b : Trie} (fits : (fork l a b).Fits (l.length + 1 + m)) :
    buildCell (appendLabel l (l.length + 1 + m)) [a.toCell m, b.toCell m] =
      .ok ((fork l a b).toCell (l.length + 1 + m)) := by
  rw [buildCell_eq, ← toCell_fork]
  exact if_pos fits.sized

end Cells

end Trie

section Refinement

open Trie

variable {f : CombineFunc} {n fuel : Nat} {t1 t2 : Trie}

@[simp] theorem combining_ok {α : Type} (x : α) : combining (.ok x) = .ok x := rfl

@[simp] theorem combining_bind {α β : Type} (x : α) (next : α → Combining β) :
    ((Except.ok x : Combining α) >>= next) = next x := rfl

/-- The outcome on cells that an outcome on tries stands for. -/
def asCells (n : Nat) : Option (Option Trie) → Combining (Option Cell)
  | none => .error .refused
  | some r => .ok (r.map (toCell n))

@[simp] theorem asCells_none (n : Nat) : asCells n none = .error .refused := rfl

@[simp] theorem asCells_some (n : Nat) (r : Option Trie) : asCells n (some r) = .ok (r.map (toCell n)) := rfl

theorem mergeEdge_toCell {m : Nat} {t : Trie} (wf : WF m t) (l : List Bool) (b : Bool)
    (fits : (t.extend (l ++ [b])).Fits (l.length + 1 + m)) :
    mergeEdge l b (t.toCell m) (l.length + 1 + m) = .ok (some ((t.extend (l ++ [b])).toCell (l.length + 1 + m))) := by
  have below : l.length + 1 + m - l.length - 1 = m := by omega
  have built := buildCell_payload fits
  rw [payload_extend_bit, label_extend, List.append_assoc, List.singleton_append] at built
  simp [mergeEdge, below, readNode_toCell wf, built]

theorem joinChildren_toCell {m : Nat} (l : List Bool) {a b : Option Trie} (wfLeft : ∀ t ∈ a, WF m t)
    (wfRight : ∀ t ∈ b, WF m t) (fits : ∀ t ∈ join l a b, t.Fits (l.length + 1 + m)) :
    joinChildren l (l.length + 1 + m) (a.map (toCell m)) (b.map (toCell m)) =
      .ok ((join l a b).map (toCell (l.length + 1 + m))) := by
  cases a with
  | none =>
    cases b with
    | none => rfl
    | some right => simpa [joinChildren, join] using mergeEdge_toCell (wfRight right rfl) l true (fits _ rfl)
  | some left =>
    cases b with
    | none => simpa [joinChildren, join] using mergeEdge_toCell (wfLeft left rfl) l false (fits _ rfl)
    | some right => simp [joinChildren, join, buildCell_fork (fits _ rfl)]

/-- The cell of a node with an edge that runs on below `l` and starts above it. -/
theorem toCell_extend_bit (t : Trie) (l p : List Bool) (side : Bool) (m : Nat) :
    ((t.extend (l ++ [side])).extend p).toCell (l.length + 1 + m + p.length) =
      (t.extend (p ++ (l ++ [side]))).toCell (m + (p ++ (l ++ [side])).length) := by
  have total : l.length + 1 + m + p.length = m + (p ++ (l ++ [side])).length := by simp; omega
  rw [extend_extend, total]

/-- One side of a fork is changed by `next`, which comes to `done` on tries. -/
theorem descend_toCell {m : Nat} (l : List Bool) (side : Bool) {a b : Trie} (wfLeft : WF m a) (wfRight : WF m b)
    {done : Option (Option Trie)} (wf : ∀ r, done = some r → ∀ t ∈ r, WF m t)
    (fits : ∀ r, done = some r → ∀ t ∈ joinSide l side a b r, t.Fits (l.length + 1 + m))
    (next : Cell → Combining (Option Cell)) (changed : next ((if side then b else a).toCell m) = asCells m done) :
    (if side then do
        let c2 ← next (b.toCell m)
        joinChildren l (l.length + 1 + m) (some (a.toCell m)) c2
      else do
        let c1 ← next (a.toCell m)
        joinChildren l (l.length + 1 + m) c1 (some (b.toCell m))) =
      asCells (l.length + 1 + m) (done.bind fun r => some (joinSide l side a b r)) := by
  cases side with
  | true =>
    have step : next (b.toCell m) = asCells m done := changed
    rw [if_pos rfl, step]
    cases done with
    | none => rfl
    | some r => exact joinChildren_toCell l (a := some a) (by rintro t ⟨⟩; exact wfLeft) (wf r rfl) (fits r rfl)
  | false =>
    have step : next (a.toCell m) = asCells m done := changed
    rw [if_neg (by simp), step]
    cases done with
    | none => rfl
    | some r => exact joinChildren_toCell l (b := some b) (wf r rfl) (by rintro t ⟨⟩; exact wfRight) (fits r rfl)

/-- On the cells of two tries that are read together with `p1` and `p2` above them, the source computes the
combination of the tries. -/
def CombinesCells (f : CombineFunc) (fuel n : Nat) (mode : CombineMode) (t1 t2 : Trie) (p1 p2 : List Bool) : Prop :=
  dictCombineWith f fuel (some ((t1.extend p1).toCell (n + p1.length))) (some ((t2.extend p2).toCell (n + p2.length))) n
      mode p1.length p2.length =
    asCells n (combine f fuel mode t1 t2)

section Cases

variable {m : Nat} {l : List Bool} {mode : CombineMode} {p1 p2 : List Bool}

theorem combinesCells_diverge {p : List Bool} {b : Bool} (wf1 : WF m t1) (wf2 : WF m t2)
    (fits : (branch p (!b) t2 t1).Fits (p.length + 1 + m)) :
    CombinesCells f (fuel + 1) (p.length + 1 + m) mode (t1.extend (p ++ [b])) (t2.extend (p ++ [!b])) p1 p2 := by
  have common : commonLen (p ++ b :: t1.label) (p ++ (!b) :: t2.label) = p.length :=
    commonLen_diverge p b t1.label t2.label
  have tail (c : Bool) (l : List Bool) : (p ++ c :: l).drop (p.length + 1) = l := by simp
  have both : t1.Fits m ∧ t2.Fits m := by
    cases b with
    | true => exact ((fits_fork p t2 t1).mp fits).2.symm
    | false => exact ((fits_fork p t1 t2).mp fits).2
  have wide1 : WF (p.length + 1 + m) (t1.extend (p ++ [b])) := by simpa using wf1.extend (p ++ [b])
  have wide2 : WF (p.length + 1 + m) (t2.extend (p ++ [!b])) := by simpa using wf2.extend (p ++ [!b])
  rw [CombinesCells, dictCombineWith, readNode_extend wide1, readNode_extend wide2, combine_diverge]
  simp only [label_extend, List.append_assoc, List.singleton_append, combining_ok, combining_bind,
    List.drop_left, common, Nat.sub_sub, Nat.add_sub_cancel_left, payload_extend_bit]
  rw [if_pos ⟨by simp, by simp⟩]
  split
  · rfl
  rw [tail, tail, buildCell_payload both.1, buildCell_payload both.2]
  cases b with
  | true =>
    have fork := buildCell_fork (show (Trie.fork p t2 t1).Fits _ from fits)
    simp at fork ⊢
    rw [fork]
    rfl
  | false =>
    have fork := buildCell_fork (show (Trie.fork p t1 t2).Fits _ from fits)
    simp at fork ⊢
    rw [fork]
    rfl

theorem combinesCells_leaves {v1 v2 : Slice} (fits : ∀ v, f v1 v2 = some (some v) → (leaf l v).Fits l.length) :
    CombinesCells f (fuel + 1) l.length mode (leaf l v1) (leaf l v2) p1 p2 := by
  rw [CombinesCells, dictCombineWith, readNode_extend (.leaf l v1), readNode_extend (.leaf l v2), combine_leaves]
  simp only [label_leaf, combining_ok, combining_bind, List.drop_left, commonLen_self, payload]
  cases computed : f v1 v2 with
  | none => simp
  | some value =>
    cases value with
    | none => simp
    | some v =>
      have built : buildCell (appendLabel l l.length ++ v.bits) v.refs = _ := buildCell_payload (fits v computed)
      simp [built]

theorem combinesCells_forks {a1 b1 a2 b2 : Trie} (wf1 : WF (l.length + 1 + m) (fork l a1 b1))
    (wf2 : WF (l.length + 1 + m) (fork l a2 b2)) (left : CombinesCells f fuel m .default a1 a2 [] [])
    (right : CombinesCells f fuel m .default b1 b2 [] [])
    (wfLeft : ∀ r, combine f fuel .default a1 a2 = some r → ∀ t ∈ r, WF m t)
    (wfRight : ∀ r, combine f fuel .default b1 b2 = some r → ∀ t ∈ r, WF m t)
    (fits : ∀ r, combine f (fuel + 1) mode (fork l a1 b1) (fork l a2 b2) = some r →
      ∀ t ∈ r, t.Fits (l.length + 1 + m)) :
    CombinesCells f (fuel + 1) (l.length + 1 + m) mode (fork l a1 b1) (fork l a2 b2) p1 p2 := by
  have deeper : ¬ l.length = l.length + 1 + m := by omega
  simp only [CombinesCells, extend_nil, List.length_nil, Nat.add_zero] at left right
  rw [combine_forks] at fits
  rw [CombinesCells, dictCombineWith, readNode_extend wf1, readNode_extend wf2, combine_forks, payload_fork, payload_fork]
  simp only [label_fork, combining_ok, combining_bind, List.drop_left, commonLen_self, lt_irrefl,
    and_self, if_false, if_true, deeper, Nat.sub_sub, Nat.add_sub_cancel_left, child, left, right]
  cases doneLeft : combine f fuel .default a1 a2 with
  | none => rfl
  | some newLeft =>
    cases doneRight : combine f fuel .default b1 b2 with
    | none => rfl
    | some newRight =>
      rw [doneLeft, doneRight] at fits
      simpa using joinChildren_toCell l (wfLeft _ doneLeft) (wfRight _ doneRight) (fits _ rfl)

theorem combinesCells_below1 {a b : Trie} {side : Bool} (wfLeft : WF m a) (wfRight : WF m b)
    (wf2 : WF (l.length + 1 + m) (t2.extend (l ++ [side])))
    (changed : CombinesCells f fuel m mode (if side then b else a) t2 [] (p2 ++ (l ++ [side])))
    (wf : ∀ r, combine f fuel mode (if side then b else a) t2 = some r → ∀ t ∈ r, WF m t)
    (fits : ∀ r, combine f (fuel + 1) mode (fork l a b) (t2.extend (l ++ [side])) = some r →
      ∀ t ∈ r, t.Fits (l.length + 1 + m)) :
    CombinesCells f (fuel + 1) (l.length + 1 + m) mode (fork l a b) (t2.extend (l ++ [side])) p1 p2 := by
  have longer : p2.length + l.length + 1 = (p2 ++ (l ++ [side])).length := by simp; omega
  have common : commonLen l (l ++ side :: t2.label) = l.length := commonLen_append l _
  have apart : ¬ l.length = (l ++ side :: t2.label).length := by simp
  simp only [CombinesCells, extend_nil, List.length_nil, Nat.add_zero] at changed
  rw [combine_below1] at fits
  rw [CombinesCells, dictCombineWith, readNode_extend (.fork l wfLeft wfRight), readNode_extend wf2, combine_below1, payload_fork,
    toCell_extend_bit]
  simp only [label_extend, label_fork, List.append_assoc, List.singleton_append, combining_ok,
    combining_bind, List.drop_left, common, lt_irrefl, false_and, if_false, apart, and_false, if_true,
    Nat.sub_sub, Nat.add_sub_cancel_left, child, longer, List.head?_cons, Option.getD_some]
  split
  · rfl
  next passes =>
  rw [if_neg passes] at fits
  exact descend_toCell l side wfLeft wfRight wf (fun r done => fits _ (by rw [done]; rfl))
    (fun c => dictCombineWith f fuel (some c) _ m mode 0 _) changed

theorem combinesCells_below2 {a b : Trie} {side : Bool} (wfLeft : WF m a) (wfRight : WF m b)
    (wf1 : WF (l.length + 1 + m) (t1.extend (l ++ [side])))
    (changed : CombinesCells f fuel m mode t1 (if side then b else a) (p1 ++ (l ++ [side])) [])
    (wf : ∀ r, combine f fuel mode t1 (if side then b else a) = some r → ∀ t ∈ r, WF m t)
    (fits : ∀ r, combine f (fuel + 1) mode (t1.extend (l ++ [side])) (fork l a b) = some r →
      ∀ t ∈ r, t.Fits (l.length + 1 + m)) :
    CombinesCells f (fuel + 1) (l.length + 1 + m) mode (t1.extend (l ++ [side])) (fork l a b) p1 p2 := by
  have longer : p1.length + l.length + 1 = (p1 ++ (l ++ [side])).length := by simp; omega
  have common : commonLen (l ++ side :: t1.label) l = l.length := commonLen_longer l _
  have apart : ¬ l.length = (l ++ side :: t1.label).length := by simp
  simp only [CombinesCells, extend_nil, List.length_nil, Nat.add_zero] at changed
  rw [combine_below2] at fits
  rw [CombinesCells, dictCombineWith, readNode_extend wf1, readNode_extend (.fork l wfLeft wfRight), combine_below2, payload_fork,
    toCell_extend_bit]
  simp only [label_extend, label_fork, List.append_assoc, List.singleton_append, combining_ok,
    combining_bind, List.drop_left, common, lt_irrefl, and_false, if_false, apart, false_and,
    Nat.sub_sub, Nat.add_sub_cancel_left, child, longer, List.head?_cons, Option.getD_some]
  split
  · rfl
  next passes =>
  rw [if_neg passes] at fits
  exact descend_toCell l side wfLeft wfRight wf (fun r done => fits _ (by rw [done]; rfl))
    (fun c => dictCombineWith f fuel _ (some c) m mode _ 0) changed

end Cases

section Whole

variable {P : Slice → Prop} (small : ∀ v, P v → Small v)
  (keeps : ∀ v1 v2 v, P v1 → P v2 → f v1 v2 = some (some v) → P v)
include small keeps

/-- What a combination stores is small, so every node that is written fits. -/
theorem Trie.Pair.fits_combine (pair : Pair n t1 t2) (all1 : t1.All P) (all2 : t2.All P) (width : n ≤ 256)
    {mode : CombineMode} {r : Option Trie} (done : combine f fuel mode t1 t2 = some r) : ∀ t ∈ r, t.Fits n :=
  fun t member => fits_of_small ((pair.combines done).wf t member) width
    (((pair.combines done).all keeps all1 all2 t member).imp small)

theorem dictCombineWith_toCell (pair : Pair n t1 t2) (wf1 : WF n t1) (wf2 : WF n t2) (all1 : t1.All P)
    (all2 : t2.All P) (mode : CombineMode) (p1 p2 : List Bool) (width : n ≤ 256) (enough : n < fuel) :
    CombinesCells f fuel n mode t1 t2 p1 p2 := by
  induction pair generalizing fuel mode p1 p2 with
  | @diverge m p b t1 t2 wfInner1 wfInner2 =>
    obtain ⟨fuel, rfl⟩ := exists_fuel enough
    exact combinesCells_diverge wfInner1 wfInner2 (fits_of_small (.branch p (!b) wfInner2 wfInner1) width
      (.branch p (!b) (all2.of_extend.imp small) (all1.of_extend.imp small)))
  | leaves l v1 v2 =>
    obtain ⟨fuel, rfl⟩ := exists_fuel enough
    exact combinesCells_leaves fun v computed =>
      fits_of_small (.leaf l v) width (small v (keeps v1 v2 v all1 all2 computed))
  | @forks m l a1 b1 a2 b2 lefts rights ihLeft ihRight =>
    obtain ⟨fuel, rfl⟩ := exists_fuel enough
    obtain ⟨wfLeft1, wfRight1⟩ := wf1.children
    obtain ⟨wfLeft2, wfRight2⟩ := wf2.children
    exact combinesCells_forks wf1 wf2
      (ihLeft wfLeft1 wfLeft2 all1.1 all2.1 .default [] [] (by omega) (by omega : m < fuel))
      (ihRight wfRight1 wfRight2 all1.2 all2.2 .default [] [] (by omega) (by omega : m < fuel))
      (fun r done => (lefts.combines done).wf) (fun r done => (rights.combines done).wf)
      (fun r => (Pair.forks l lefts rights).fits_combine small keeps all1 all2 width)
  | @below1 m l side a b t2 wfLeft wfRight inner ih =>
    obtain ⟨fuel, rfl⟩ := exists_fuel enough
    have changed := ih (wfLeft.side wfRight side) wf2.of_extend_bit (all1.side side) all2.of_extend mode []
      (p2 ++ (l ++ [side])) (by omega) (by omega : m < fuel)
    exact combinesCells_below1 wfLeft wfRight wf2 changed (fun r done => (inner.combines done).wf)
      (fun r => (Pair.below1 l side wfLeft wfRight inner).fits_combine small keeps all1 all2 width)
  | @below2 m l side t1 a b wfLeft wfRight inner ih =>
    obtain ⟨fuel, rfl⟩ := exists_fuel enough
    have changed := ih wf1.of_extend_bit (wfLeft.side wfRight side) all1.of_extend (all2.side side) mode
      (p1 ++ (l ++ [side])) [] (by omega) (by omega : m < fuel)
    exact combinesCells_below2 wfLeft wfRight wf1 changed (fun r done => (inner.combines done).wf)
      (fun r => (Pair.below2 l side wfLeft wfRight inner).fits_combine small keeps all1 all2 width)

end Whole

end Refinement

end Tvm.Hashmap
