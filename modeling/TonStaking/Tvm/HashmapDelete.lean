import TonStaking.Tvm.HashmapCombine
import TonStaking.Tvm.HashmapReads

/-!
# Replacement and deletion of dictionary entries

`dict_lookup_set` (686-790) and `DictionaryFixed::dict_lookup_delete` (1117-1187)
of `crypto/vm/dict.cpp`. A deletion that leaves a fork with one child merges the
edges above and below it. The merged label can be longer than the two labels
were, so that the node of the kept child no longer fits into its cell.
-/
namespace Tvm.Hashmap

open Trie

/-- `dict_lookup_set`: the old value, and a new root unless the dictionary is left as it is. -/
def dictLookupSet (mode : SetMode) (value : Slice) :
    Nat → Option Cell → List Bool → Outcome (Option Slice × Option Cell)
  | 0, _, _ => .error .dictErr
  | _ + 1, none, key =>
    if mode = .replace then .ok (none, none)
    else do
      let leaf ← buildCell (appendLabel key key.length ++ value.bits) value.refs
      .ok (none, some leaf)
  | fuel + 1, some cell, key => do
    let n := key.length
    let (label, payload) ← readNode n cell
    let p := commonLen label key
    if p < label.length then
      if mode = .replace then .ok (none, none)
      else do
        let m := n - p - 1
        let c1 ← buildCell (appendLabel (key.drop (p + 1)) m ++ value.bits) value.refs
        let c2 ← buildCell (appendLabel (label.drop (p + 1)) m ++ payload.bits) payload.refs
        let refs := if key.drop p |>.head? |>.getD false then [c2, c1] else [c1, c2]
        let fork ← buildCell (appendLabel (key.take p) n) refs
        .ok (none, some fork)
    else if label.length = n then
      if mode = .add then .ok (some payload, none)
      else do
        let leaf ← buildCell (appendLabel key n ++ value.bits) value.refs
        .ok (some payload, some leaf)
    else do
      let bit := key.drop label.length |>.head? |>.getD false
      let c1 ← child payload.refs false
      let c2 ← child payload.refs true
      let (old, changed) ← dictLookupSet mode value fuel (some (if bit then c2 else c1))
        (key.drop (label.length + 1))
      match changed with
      | none => .ok (old, none)
      | some c =>
        let fork ← buildCell (appendLabel (key.take label.length) n)
          (if bit then [c1, c] else [c, c2])
        .ok (old, some fork)

/-- `dict_lookup_delete`: the deleted value and the new root. Without a value the dictionary
is left as it is. -/
def dictLookupDelete : Nat → Option Cell → List Bool → Outcome (Option Slice × Option Cell)
  | 0, _, _ => .error .dictErr
  | _ + 1, none, _ => .ok (none, none)
  | fuel + 1, some cell, key => do
    let n := key.length
    let (label, payload) ← readNode n cell
    if commonLen label key < label.length then .ok (none, none)
    else if label.length = n then .ok (some payload, none)
    else do
      let bit := key.drop label.length |>.head? |>.getD false
      let c1 ← child payload.refs false
      let c2 ← child payload.refs true
      let (old, changed) ← dictLookupDelete fuel (some (if bit then c2 else c1))
        (key.drop (label.length + 1))
      match old, changed with
      | none, _ => .ok (none, none)
      | some old, some c => do
        let fork ← buildCell (appendLabel (key.take label.length) n)
          (if bit then [c1, c] else [c, c2])
        .ok (some old, some fork)
      | some old, none => do
        -- the other child stays alone: its edge is merged with the one above the fork
        let (lower, rest) ← readNode (n - label.length - 1) (if bit then c1 else c2)
        let edge ← buildCell (appendLabel (key.take label.length ++ (!bit) :: lower) n ++ rest.bits)
          rest.refs
        .ok (some old, some edge)

namespace Trie

def erase : Trie → List Bool → Option Trie
  | .leaf label value, key => if key = label then none else some (.leaf label value)
  | .fork label left right, key =>
    if commonLen label key < label.length then some (.fork label left right)
    else
      match key.drop label.length with
      | [] => some (.fork label left right)
      | bit :: rest => joinSide label bit left right (if bit then right.erase rest else left.erase rest)

theorem erase_fork_through (label rest : List Bool) (bit : Bool) (left right : Trie) :
    (fork label left right).erase (label ++ bit :: rest) =
      joinSide label bit left right ((if bit then right else left).erase rest) := by
  cases bit <;> simp [erase, commonLen_append]

theorem erase_fork_diverge (shared : List Bool) (b : Bool) (l k : List Bool) (left right : Trie) :
    (fork (shared ++ b :: l) left right).erase (shared ++ (!b) :: k) = some (fork (shared ++ b :: l) left right) := by
  simp [erase, commonLen_diverge]

variable {n : Nat} {t : Trie}

theorem erase_wf (wf : WF n t) {key : List Bool} (len : key.length = n) : ∀ r ∈ t.erase key, WF n r := by
  induction wf generalizing key with
  | leaf label value =>
    intro r kept
    rw [erase] at kept
    split at kept
    · cases kept
    · cases kept
      exact .leaf label value
  | @fork m label left right wfLeft wfRight ihLeft ihRight =>
    rcases fork_cases len with ⟨bit, rest, rfl, below⟩ | ⟨shared, b, l, k, rfl, rfl⟩
    · rw [erase_fork_through]
      apply joinSide_wf label bit wfLeft wfRight
      cases bit with
      | true => exact ihRight below
      | false => exact ihLeft below
    · intro r kept
      rw [erase_fork_diverge] at kept
      cases kept
      exact .fork _ wfLeft wfRight

@[simp] theorem depth_extend (p : List Bool) (t : Trie) : (t.extend p).depth = t.depth := by
  cases t <;> rfl

/-- A deletion makes no trie deeper. -/
theorem erase_depth {key : List Bool} : ∀ r, t.erase key = some r → r.depth ≤ t.depth := by
  induction t generalizing key with
  | leaf label value =>
    intro r kept
    rw [erase] at kept
    split at kept
    · cases kept
    · cases kept
      exact le_rfl
  | fork label left right ihLeft ihRight =>
    intro r kept
    rw [erase] at kept
    split at kept
    · cases kept
      exact le_rfl
    split at kept
    · cases kept
      exact le_rfl
    next bit rest _ =>
    have side : ∀ x y : Option Trie, (∀ s ∈ x, s.depth ≤ left.depth) → (∀ s ∈ y, s.depth ≤ right.depth) →
        ∀ r ∈ join label x y, r.depth ≤ (fork label left right).depth := by
      intro x y below above
      refine join_cases (Q := fun s => s.depth + 1 ≤ (fork label left right).depth) (fun c s small => ?_)
        (fun s u small less => ?_) (fun s member => ?_) (fun s member => ?_)
      · rw [depth_extend]
        omega
      · simp only [depth] at small less ⊢
        omega
      · have := below s member
        simp only [depth]
        omega
      · have := above s member
        simp only [depth]
        omega
    unfold joinSide at kept
    split at kept
    · exact side _ _ (by simp) (fun s member => ihRight s (by simpa using member)) r kept
    · exact side _ _ (fun s member => ihLeft s (by simpa using member)) (by simp) r kept

/-- Lookup after deletion. -/
theorem lookup_erase (wf : WF n t) {key k : List Bool} (keyLen : key.length = n) (len : k.length = n) :
    lookup (t.erase key) k = if k = key then none else t.get? k := by
  induction wf generalizing key k with
  | leaf label value =>
    rw [erase, get?]
    by_cases equal : key = label
    · rw [if_pos equal, equal]
      by_cases same : k = label <;> simp
    · rw [if_neg equal]
      by_cases same : k = key
      · simp [same, get?, equal]
      · simp [same, get?]
  | @fork m label left right _ _ ihLeft ihRight =>
    rcases fork_cases keyLen with ⟨bit, rest, rfl, below⟩ | ⟨shared, b, l, r, rfl, rfl⟩
    · rw [erase_fork_through]
      rcases key_cases len with ⟨c, tail, rfl, tailLen⟩ | no
      · rw [lookup_joinSide, get?_side]
        cases bit <;> cases c <;> simp [ihLeft below tailLen, ihRight below tailLen]
      · rw [lookup_joinSide_none no, get?_eq_none (t := fork label left right) no]
        simp
    · rw [erase_fork_diverge, lookup_some]
      by_cases same : k = shared ++ (!b) :: r
      · rw [if_pos same, same, get?_fork_diverge]
      · rw [if_neg same]

def FitsRoot (n : Nat) (t : Option Trie) : Prop := ∀ r ∈ t, r.Fits n

@[simp] theorem fitsRoot_none (n : Nat) : FitsRoot n none := by
  intro r absent
  cases absent

@[simp] theorem fitsRoot_some (n : Nat) (t : Trie) : FitsRoot n (some t) ↔ t.Fits n := by
  simp [FitsRoot]

/-- Insertion, into a dictionary that may be empty. -/
def insertRoot (value : Slice) (key : List Bool) : Option Trie → Trie
  | none => .leaf key value
  | some t => t.insert value key

theorem insertRoot_wf {t : Option Trie} (wf : ∀ r ∈ t, WF n r) (value : Slice) {key : List Bool}
    (len : key.length = n) : WF n (insertRoot value key t) := by
  cases t with
  | none => exact len ▸ .leaf key value
  | some t => exact insert_wf (wf t rfl) value len

theorem get?_insertRoot {t : Option Trie} (wf : ∀ r ∈ t, WF n r) (value : Slice) {key k : List Bool}
    (keyLen : key.length = n) (len : k.length = n) :
    (insertRoot value key t).get? k = if k = key then some value else lookup t k := by
  cases t with
  | none => rfl
  | some t => exact get?_insert (wf t rfl) value keyLen len

end Trie

theorem dictSet_root {n : Nat} {t : Option Trie} (wf : ∀ r ∈ t, r.WF n) (fits : Trie.FitsRoot n t)
    (mode : SetMode) (value : Slice) {key : List Bool} (len : key.length = n) :
    dictSet mode value (n + 1) (t.map (·.toCell n)) key =
      updated mode n (lookup t key).isSome (Trie.insertRoot value key t) := by
  cases t with
  | none =>
    subst len
    exact dictSet_absent mode value key key.length
  | some t => exact dictSet_updated (wf t rfl) (fits t rfl) mode value len (Nat.lt_succ_self n)

section Replacement

variable {P : Cell → Prop} {n : Nat} {cell : Cell} {t : Trie}

/-- `dict_lookup_set` changes the dictionary as `dict_set` does, and returns the value before. -/
theorem Reads.dictLookupSet (reads : Reads P n cell t) (mode : SetMode) (value : Slice)
    {key : List Bool} (len : key.length = n) {fuel : Nat} (enough : n < fuel) :
    dictLookupSet mode value fuel (some cell) key =
      (do let changed ← dictSet mode value fuel (some cell) key
          .ok (t.get? key, changed)) := by
  induction reads generalizing key fuel with
  | @leaf cell label old _ read =>
    obtain ⟨fuel, rfl⟩ := exists_fuel enough
    rw [← len] at read
    rcases leaf_cases len with rfl | ⟨shared, b, l, k, rfl, rfl⟩
    · simp only [Hashmap.dictLookupSet, dictSet, read, ok_bind, commonLen_self, get?]
      cases mode <;> simp
    · simp only [Hashmap.dictLookupSet, dictSet, read, ok_bind, commonLen_diverge, get?]
      cases mode <;> simp
  | @fork m cell left right label l r _ read _ _ ihLeft ihRight =>
    obtain ⟨fuel, rfl⟩ := exists_fuel enough
    rw [← len] at read
    rcases fork_cases len with ⟨bit, rest, rfl, below⟩ | ⟨shared, b, s, k, rfl, rfl⟩
    · have more : ¬ label.length = (label ++ bit :: rest).length := by simp
      rw [Trie.get?_fork_through]
      simp only [Hashmap.dictLookupSet, dictSet, read, ok_bind, commonLen_append, lt_irrefl, if_false, more]
      cases bit with
      | true =>
        simp [child, ihRight below (by omega : m < fuel)]
        cases dictSet mode value fuel (some right) rest with
        | error e => rfl
        | ok changed => cases changed <;> simp
      | false =>
        simp [child, ihLeft below (by omega : m < fuel)]
        cases dictSet mode value fuel (some left) rest with
        | error e => rfl
        | ok changed => cases changed <;> simp
    · rw [get?_fork_diverge]
      simp only [Hashmap.dictLookupSet, dictSet, read, ok_bind, commonLen_diverge]
      cases mode <;> simp

theorem dictLookupSet_root {root : Option Cell} {t : Option Trie} (rel : Option.Rel (Reads P n) root t)
    (mode : SetMode) (value : Slice) {key : List Bool} (len : key.length = n) :
    dictLookupSet mode value (n + 1) root key =
      (do let changed ← dictSet mode value (n + 1) root key
          .ok (lookup t key, changed)) := by
  cases rel with
  | none => cases mode <;> simp [dictLookupSet, dictSet]
  | some reads => exact reads.dictLookupSet mode value len (Nat.lt_succ_self n)

end Replacement

section Deletion

variable {n m : Nat} {cell : Cell} {t : Trie} {label : List Bool}

theorem readNode_written (bits : List Bool) {refs : List Cell} (short : label.length ≤ n)
    (closed : label.length < n → bits = [] ∧ refs.length = 2) :
    readNode n (.mk (appendLabel label n ++ bits) refs) = .ok (label, ⟨bits, refs⟩) := by
  have whole : ¬ (label.length < n ∧ ¬ (bits = [] ∧ (Cell.mk (appendLabel label n ++ bits) refs).refs.length = 2)) := by
    rintro ⟨inner, bad⟩
    exact bad (closed inner)
  rw [readNode, Cell.bits, parseLabel_appendLabel short]
  exact if_neg whole

/-- The node of a child under the merged edge: it is written if it fits. -/
theorem Reads.merge (reads : Reads Sized m cell t) (p : List Bool) :
    ∃ rest, readNode m cell = .ok (t.label, rest) ∧
      ∃ root, buildCell (appendLabel (p ++ t.label) (p.length + m) ++ rest.bits) rest.refs =
          (if (t.extend p).Fits (p.length + m) then .ok root else .error .cellOv) ∧
        ((t.extend p).Fits (p.length + m) → Reads Sized (p.length + m) root (t.extend p)) ∧
        (cell = t.toCell m → root = (t.extend p).toCell (p.length + m)) := by
  cases reads with
  | @leaf _ label value good read =>
    have total : p.length + label.length = (p ++ label).length := by simp
    refine ⟨value, read, (Trie.leaf (p ++ label) value).toCell (p.length + label.length), ?_, ?_, fun _ => rfl⟩
    · exact written_leaf _ (p ++ label) value
    · intro fits
      rw [total] at fits ⊢
      exact .leaf fits (readNode_leaf (p ++ label) value)
  | @fork k _ left right label l r good read readsLeft readsRight =>
    have total : p.length + (label.length + 1 + k) = (p ++ label).length + 1 + k := by simp; omega
    have inner : (Trie.fork (p ++ label) l r).Fits ((p ++ label).length + 1 + k) ↔
        Sized (.mk (appendLabel (p ++ label) ((p ++ label).length + 1 + k)) [left, right]) := by
      rw [fits_fork, toCell_fork, readsLeft.sized_fork readsRight]
      simp only [readsLeft.fits, readsRight.fits, and_true]
    refine ⟨⟨[], [left, right]⟩, read,
      .mk (appendLabel (p ++ label) ((p ++ label).length + 1 + k)) [left, right], ?_, ?_, ?_⟩
    · simp only [extend_fork, total, inner, List.append_nil]
      exact buildCell_eq _ _
    · intro fits
      rw [extend_fork, total] at fits ⊢
      refine .fork (inner.mp fits) ?_ readsLeft readsRight
      simpa using readNode_written [] (by omega : (p ++ label).length ≤ _) (fun _ => ⟨rfl, rfl⟩)
    · intro canonical
      rw [canonical, readNode_fork] at read
      cases read
      rw [extend_fork, total, toCell_fork]

/-- What a deletion gives on the root `cell` of a dictionary with the content of `t`. -/
def Deletes (n : Nat) (cell : Cell) (t : Trie) (key : List Bool) (v : Slice)
    (out : Outcome (Option Slice × Option Cell)) : Prop :=
  (Trie.FitsRoot n (t.erase key) → ∃ root, out = .ok (some v, root) ∧
    Option.Rel (Reads Sized n) root (t.erase key) ∧
      (cell = t.toCell n → root = (t.erase key).map (·.toCell n))) ∧
  (¬ Trie.FitsRoot n (t.erase key) → out = .error .cellOv)

theorem dictLookupDelete_diverge {payload : Slice} {shared l k : List Bool} {b : Bool} (fuel : Nat)
    (read : readNode (shared ++ (!b) :: k).length cell = .ok (shared ++ b :: l, payload)) :
    dictLookupDelete (fuel + 1) (some cell) (shared ++ (!b) :: k) = .ok (none, none) := by
  simp only [dictLookupDelete, read, ok_bind, commonLen_diverge]
  simp

theorem dictLookupDelete_descend {c1 c2 : Cell} {rest : List Bool} {bit : Bool} (fuel : Nat)
    (read : readNode (label ++ bit :: rest).length cell = .ok (label, ⟨[], [c1, c2]⟩)) :
    dictLookupDelete (fuel + 1) (some cell) (label ++ bit :: rest) = (do
      let (old, changed) ← dictLookupDelete fuel (some (if bit then c2 else c1)) rest
      match old, changed with
      | none, _ => .ok (none, none)
      | some old, some c => do
        let fork ← buildCell (appendLabel label (label.length + 1 + rest.length))
          [if bit then c1 else c, if bit then c else c2]
        .ok (some old, some fork)
      | some old, none => do
        let (lower, below) ← readNode rest.length (if bit then c1 else c2)
        let edge ← buildCell (appendLabel (label ++ (!bit) :: lower) (label.length + 1 + rest.length) ++
          below.bits) below.refs
        .ok (some old, some edge)) := by
  have total : (label ++ bit :: rest).length = label.length + 1 + rest.length := by simp; omega
  have more : ¬ label.length = (label ++ bit :: rest).length := by omega
  have width : label.length + (rest.length + 1) = label.length + 1 + rest.length := by omega
  simp only [dictLookupDelete, read, ok_bind, commonLen_append, lt_irrefl, if_false, more]
  have below : label.length + 1 + rest.length - label.length - 1 = rest.length := by omega
  cases bit <;> simp [child, width, below]

theorem joinSide_some (label : List Bool) (bit : Bool) (l r changed : Trie) :
    joinSide label bit l r (some changed) =
      some (.fork label (if bit then l else changed) (if bit then changed else r)) := by
  cases bit <;> rfl

theorem joinSide_none (label : List Bool) (bit : Bool) (l r : Trie) :
    joinSide label bit l r none = some ((if bit then l else r).extend (label ++ [!bit])) := by
  cases bit <;> rfl

/-- A fork under a label that fits is written for any two children that are not too deep. -/
theorem Reads.rebuild {left right : Cell} {l r : Trie}
    (room : (appendLabel label (label.length + 1 + m)).length ≤ 1023) (shallow : (Trie.fork label l r).depth ≤ 1024)
    (readsLeft : Reads Sized m left l) (readsRight : Reads Sized m right r) :
    buildCell (appendLabel label (label.length + 1 + m)) [left, right] =
        .ok (.mk (appendLabel label (label.length + 1 + m)) [left, right]) ∧
      Reads Sized (label.length + 1 + m) (.mk (appendLabel label (label.length + 1 + m)) [left, right])
        (.fork label l r) := by
  have sized : Sized (.mk (appendLabel label (label.length + 1 + m)) [left, right]) := by
    refine (readsLeft.sized_fork readsRight _).mpr ⟨room, by simp [Cell.refs], ?_⟩
    rwa [← toCell_fork, depth_toCell]
  refine ⟨by rw [buildCell_eq, if_pos sized], .fork sized ?_ readsLeft readsRight⟩
  simpa using readNode_written [] (by omega : label.length ≤ _) (fun _ => ⟨rfl, rfl⟩)

section Descent

variable {left right : Cell} {label rest : List Bool} {bit : Bool} {l r : Trie} {v : Slice} {fuel : Nat}
variable (readsLeft : Reads Sized rest.length left l) (readsRight : Reads Sized rest.length right r)
  (read : readNode (label ++ bit :: rest).length cell = .ok (label, ⟨[], [left, right]⟩))
  (children : cell = (Trie.fork label l r).toCell (label.length + 1 + rest.length) →
    left = l.toCell rest.length ∧ right = r.toCell rest.length)
include readsLeft readsRight read children

/-- The deleted entry was the only one of the child: the other child stays alone. -/
theorem Deletes.merged (empty : (if bit then r else l).erase rest = none)
    (done : dictLookupDelete fuel (some (if bit then right else left)) rest = .ok (some v, none)) :
    Deletes (label.length + 1 + rest.length) cell (.fork label l r) (label ++ bit :: rest) v
      (dictLookupDelete (fuel + 1) (some cell) (label ++ bit :: rest)) := by
  have reads : Reads Sized rest.length (if bit then left else right) (if bit then l else r) := by
    cases bit with
    | true => exact readsLeft
    | false => exact readsRight
  obtain ⟨below, readOther, root, built, rebuilt, canonical⟩ := reads.merge (label ++ [!bit])
  have width : (label ++ [!bit]).length + rest.length = label.length + 1 + rest.length := by simp
  have edge (lower : List Bool) : label ++ [!bit] ++ lower = label ++ (!bit) :: lower := by simp
  rw [width, edge] at built
  rw [width] at rebuilt canonical
  rw [Deletes, erase_fork_through, empty, joinSide_none, fitsRoot_some, dictLookupDelete_descend fuel read, done]
  constructor
  · intro fits
    refine ⟨some root, by simp [readOther, built, fits], .some (rebuilt fits), ?_⟩
    intro whole
    have known : (if bit then left else right) = (if bit then l else r).toCell rest.length := by
      cases bit with
      | true => exact (children whole).1
      | false => exact (children whole).2
    rw [canonical known, Option.map_some]
  · intro large
    simp [readOther, built, large]

/-- The child keeps other entries: the fork is written with the changed child. -/
theorem Deletes.rebuilt {changed : Trie} (good : Sized cell)
    (kept : (if bit then r else l).erase rest = some changed)
    (deleted : Deletes rest.length (if bit then right else left) (if bit then r else l) rest v
      (dictLookupDelete fuel (some (if bit then right else left)) rest)) :
    Deletes (label.length + 1 + rest.length) cell (.fork label l r) (label ++ bit :: rest) v
      (dictLookupDelete (fuel + 1) (some cell) (label ++ bit :: rest)) := by
  have total : (label ++ bit :: rest).length = label.length + 1 + rest.length := by simp; omega
  have room : (appendLabel label (label.length + 1 + rest.length)).length ≤ 1023 := by
    have sized := (sized_rewrite good read).1
    rw [total] at sized
    simpa [Cell.bits] using sized
  have shallow : (Trie.fork label (if bit then l else changed) (if bit then changed else r)).depth ≤ 1024 := by
    have before := good.2.2
    rw [total] at read
    rw [(Reads.fork good read readsLeft readsRight).depth] at before
    have less := erase_depth changed kept
    cases bit <;> simp only [Trie.depth, Bool.false_eq_true, if_false, if_true] at before less ⊢ <;> omega
  have sides {c : Cell} (reads : Reads Sized rest.length c changed) :
      Reads Sized rest.length (if bit then left else c) (if bit then l else changed) ∧
        Reads Sized rest.length (if bit then c else right) (if bit then changed else r) := by
    cases bit with
    | true => exact ⟨readsLeft, reads⟩
    | false => exact ⟨reads, readsRight⟩
  have fits : (Trie.fork label (if bit then l else changed) (if bit then changed else r)).Fits
      (label.length + 1 + rest.length) ↔ changed.Fits rest.length := by
    have sized : Sized ((Trie.fork label (if bit then l else changed) (if bit then changed else r)).toCell
        (label.length + 1 + rest.length)) := ⟨room, by simp [toCell, Cell.refs], by rwa [depth_toCell]⟩
    rw [fits_fork]
    cases bit with
    | true => exact ⟨fun all => all.2.2, fun fits => ⟨sized, readsLeft.fits, fits⟩⟩
    | false => exact ⟨fun all => all.2.1, fun fits => ⟨sized, fits, readsRight.fits⟩⟩
  rw [Deletes, kept, fitsRoot_some] at deleted
  rw [Deletes, erase_fork_through, dictLookupDelete_descend fuel read, kept, joinSide_some, fitsRoot_some, fits]
  constructor
  · intro small
    obtain ⟨root, done, rel, canonical⟩ := deleted.1 small
    cases rel with
    | @some c _ reads =>
      obtain ⟨built, readsRoot⟩ := Reads.rebuild room shallow (sides reads).1 (sides reads).2
      refine ⟨_, by simp [done, built], .some readsRoot, ?_⟩
      intro whole
      obtain ⟨rfl, rfl⟩ := children whole
      have known := Option.some.inj (canonical (by cases bit <;> rfl))
      rw [Option.map_some, toCell_fork, known]
      cases bit <;> rfl
  · intro large
    rw [deleted.2 large]
    rfl

end Descent

/-- Deletion from a dictionary tree: the value under the key, and a tree without it unless one of
its cells overflows. -/
theorem Reads.dictLookupDelete (reads : Reads Sized n cell t) {key : List Bool} (len : key.length = n)
    {fuel : Nat} (enough : n < fuel) :
    (t.get? key = none → dictLookupDelete fuel (some cell) key = .ok (none, none)) ∧
      ∀ v, t.get? key = some v → Deletes n cell t key v (dictLookupDelete fuel (some cell) key) := by
  induction reads generalizing key fuel with
  | @leaf cell label value _ read =>
    obtain ⟨fuel, rfl⟩ := exists_fuel enough
    rw [← len] at read
    rcases leaf_cases len with rfl | ⟨shared, b, l, k, rfl, rfl⟩
    · have empty : (Trie.leaf label value).erase label = none := by simp [Trie.erase]
      refine ⟨by simp [get?], fun v found => ?_⟩
      obtain rfl : value = v := by simpa [get?] using found
      rw [Deletes, empty]
      simp [Hashmap.dictLookupDelete, read, commonLen_self]
    · exact ⟨fun _ => dictLookupDelete_diverge fuel read, by simp [get?]⟩
  | @fork m cell left right label l r good read readsLeft readsRight ihLeft ihRight =>
    obtain ⟨fuel, rfl⟩ := exists_fuel enough
    rcases fork_cases len with ⟨bit, rest, rfl, below⟩ | ⟨shared, b, s, k, rfl, rfl⟩
    · subst below
      have children (canonical : cell = (Trie.fork label l r).toCell (label.length + 1 + rest.length)) :
          left = l.toCell rest.length ∧ right = r.toCell rest.length := by
        rw [canonical, readNode_fork] at read
        cases read
        exact ⟨rfl, rfl⟩
      rw [← len] at read
      have child : ((if bit then r else l).get? rest = none →
          Hashmap.dictLookupDelete fuel (some (if bit then right else left)) rest = .ok (none, none)) ∧
          ∀ v, (if bit then r else l).get? rest = some v →
            Deletes rest.length (if bit then right else left) (if bit then r else l) rest v
              (Hashmap.dictLookupDelete fuel (some (if bit then right else left)) rest) := by
        cases bit with
        | true => exact ihRight rfl (by omega)
        | false => exact ihLeft rfl (by omega)
      rw [Trie.get?_side]
      constructor
      · intro absent
        rw [dictLookupDelete_descend fuel read, child.1 absent]
        rfl
      · intro v found
        have deleted := child.2 v found
        cases kept : (if bit then r else l).erase rest with
        | some changed => exact Deletes.rebuilt readsLeft readsRight read children good kept deleted
        | none =>
          rw [Deletes, kept] at deleted
          obtain ⟨root, done, rel, -⟩ := deleted.1 (Trie.fitsRoot_none _)
          cases rel
          exact Deletes.merged readsLeft readsRight read children kept done
    · rw [← len] at read
      rw [get?_fork_diverge]
      exact ⟨fun _ => dictLookupDelete_diverge fuel read, by simp⟩

end Deletion

end Tvm.Hashmap
