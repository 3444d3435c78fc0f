import TonStaking.Tvm.HashmapCombine

/-!
# Augmented dictionaries

`AugmentedDictionary` of `crypto/vm/dict.cpp` (2573-2730) with the operations of
`DictionaryFixed` that divide and unite dictionaries: `has_common_prefix`
(489-500), `cut_prefix_subdict` (1599-1663), `filter` (1665-1746) and
`combine_with` (1764-1995), on the tries that well-formed cells stand for. Every
fork holds an extra value, computed from those of its children; a leaf holds its
own in front of its value. A plain dictionary has extra values that say nothing.

An operation that throws or reports an error gives no result.
-/
namespace Tvm.Hashmap

open Trie

/-- `AugmentationData`, with `leafExtra` for `extract_extra`. -/
structure Augmentation (E : Type) where
  evalEmpty : E
  leafExtra : Slice → Option E
  evalFork : E → E → Option E

/-- A plain dictionary. -/
def Augmentation.plain : Augmentation Unit where
  evalEmpty := ()
  leafExtra _ := some ()
  evalFork _ _ := some ()

inductive AugTrie (E : Type) where
  | leaf (label : List Bool) (value : Slice)
  | fork (label : List Bool) (extra : E) (left right : AugTrie E)

namespace AugTrie

section Definitions

variable {E : Type} (aug : Augmentation E)

/-- The trie without its extra values. -/
def erase : AugTrie E → Trie
  | .leaf label value => .leaf label value
  | .fork label _ left right => .fork label left.erase right.erase

def label : AugTrie E → List Bool
  | .leaf label _ => label
  | .fork label _ _ _ => label

def relabel (label : List Bool) : AugTrie E → AugTrie E
  | .leaf _ value => .leaf label value
  | .fork _ extra left right => .fork label extra left right

/-- The node below the first `k` bits of its edge. -/
def drop (k : Nat) (t : AugTrie E) : AugTrie E := t.relabel (t.label.drop k)

/-- The node with an edge that is longer at its upper end. -/
def extend (above : List Bool) (t : AugTrie E) : AugTrie E := t.relabel (above ++ t.label)

/-- `get_node_extra` of a node. -/
def nodeExtra : AugTrie E → Option E
  | .leaf _ value => aug.leafExtra value
  | .fork _ extra _ _ => some extra

/-- `get_root_extra`. -/
def rootExtra : Option (AugTrie E) → Option E
  | none => some aug.evalEmpty
  | some t => t.nodeExtra aug

/-- The extra value of a fork. -/
def forkExtra (left right : AugTrie E) : Option E := do
  let extra1 ← left.nodeExtra aug
  let extra2 ← right.nodeExtra aug
  aug.evalFork extra1 extra2

/-- `finish_create_fork`. -/
def createFork (label : List Bool) (left right : AugTrie E) : Option (AugTrie E) :=
  (forkExtra aug left right).map fun extra => .fork label extra left right

/-- A fork whose children may have become empty. -/
def join (label : List Bool) : Option (AugTrie E) → Option (AugTrie E) → Option (Option (AugTrie E))
  | none, none => some none
  | some left, some right => (createFork aug label left right).map some
  | some left, none => some (some (left.extend (label ++ [false])))
  | none, some right => some (some (right.extend (label ++ [true])))

/-- `has_common_prefix` for keys of `n` bits. -/
def hasCommonPrefix (n : Nat) (dict : Option (AugTrie E)) (start : List Bool) : Bool :=
  match dict with
  | none => true
  | some t => if start = [] then true else if n < start.length then false else start.isPrefixOf t.label

/-- The loop of `extract_prefix_subdict_internal` below the bits `above`, with the bits of the prefix that are left. -/
def extractPrefix (above : List Bool) : AugTrie E → List Bool → Option (AugTrie E)
  | .leaf label value, rest =>
    if commonLen rest label < min rest.length label.length then none
    -- not for keys of one length, none shorter than the prefix
    else if label.length < rest.length then none
    else some (.leaf (above ++ label) value)
  | .fork label extra left right, rest =>
    if commonLen rest label < min rest.length label.length then none
    else
      match rest.drop label.length with
      | bit :: rest =>
        if bit then extractPrefix (above ++ label ++ [bit]) right rest
        else extractPrefix (above ++ label ++ [bit]) left rest
      | [] => some (.fork (above ++ label) extra left right)

/-- `cut_prefix_subdict` for keys of `n` bits. -/
def cutPrefixSubdict (n : Nat) (dict : Option (AugTrie E)) (start : List Bool) : Option (AugTrie E) :=
  match dict with
  | none => none
  | some t => if start = [] then some t else if n < start.length then none else extractPrefix [] t start

/-- `dict_filter` with the number of changes; a trie without changes is not returned. -/
def dictFilter (checkLeaf : Slice → List Bool → Option Bool) (above : List Bool) :
    AugTrie E → Option (Option (AugTrie E) × Nat)
  | .leaf label value =>
    (checkLeaf value (above ++ label)).map fun keep => (none, if keep then 0 else 1)
  | .fork label _ left right => do
    let leftRes ← dictFilter checkLeaf (above ++ label ++ [false]) left
    let rightRes ← dictFilter checkLeaf (above ++ label ++ [true]) right
    if leftRes.2 = 0 ∧ rightRes.2 = 0 then some rightRes
    else
      let left := if leftRes.2 ≠ 0 then leftRes.1 else some left
      let right := if rightRes.2 ≠ 0 then rightRes.1 else some right
      (join aug label left right).map fun t => (t, leftRes.2 + rightRes.2)

def filter (checkLeaf : Slice → List Bool → Option Bool) : Option (AugTrie E) → Option (Option (AugTrie E))
  | none => some none
  | some t => (dictFilter aug checkLeaf [] t).map fun res => if 0 < res.2 then res.1 else some t

/-- Two edges below a shared label; `bit` is the side of the second one. -/
def branch (shared : List Bool) (bit : Bool) (t2 t1 : AugTrie E) : Option (AugTrie E) :=
  if bit then createFork aug shared t1 t2 else createFork aug shared t2 t1

/-- `dict_combine_with` with the default mode. -/
def combine (f : CombineFunc) : Nat → AugTrie E → AugTrie E → Option (Option (AugTrie E))
  | 0, _, _ => none
  | fuel + 1, t1, t2 =>
    let c := commonLen t1.label t2.label
    if c < t1.label.length ∧ c < t2.label.length then
      (branch aug (t1.label.take c) (t2.label.drop c |>.head? |>.getD false) (t2.drop (c + 1))
        (t1.drop (c + 1))).map some
    else if c = t1.label.length ∧ c = t2.label.length then
      match t1, t2 with
      | .leaf label v1, .leaf _ v2 => (f v1 v2).map fun value => value.map (.leaf label)
      | .fork label _ left1 right1, .fork _ _ left2 right2 => do
        let left ← combine f fuel left1 left2
        let right ← combine f fuel right1 right2
        join aug label left right
      | _, _ => none
    else if c = t1.label.length then
      match t1 with
      | .fork label _ left right =>
        if t2.label.drop c |>.head? |>.getD false then do
          let right ← combine f fuel right (t2.drop (c + 1))
          join aug label (some left) right
        else do
          let left ← combine f fuel left (t2.drop (c + 1))
          join aug label left (some right)
      | .leaf _ _ => none
    else
      match t2 with
      | .fork label _ left right =>
        if t1.label.drop c |>.head? |>.getD false then do
          let right ← combine f fuel (t1.drop (c + 1)) right
          join aug label (some left) right
        else do
          let left ← combine f fuel (t1.drop (c + 1)) left
          join aug label left (some right)
      | .leaf _ _ => none

/-- `combine_with` for keys of `n` bits; a key of both dictionaries is a conflict. -/
def combineWith (n : Nat) : Option (AugTrie E) → Option (AugTrie E) → Option (Option (AugTrie E))
  | none, dict2 => some dict2
  | some t1, none => some (some t1)
  | some t1, some t2 => combine aug (fun _ _ => none) (n + 1) t1 t2

/-- The value under a key, with the extra value in front of it. -/
def lookup (dict : Option (AugTrie E)) (key : List Bool) : Option Slice := Trie.lookup (dict.map erase) key

/-- Every extra value is the one that belongs there. -/
def Sound : AugTrie E → Prop
  | .leaf _ value => (aug.leafExtra value).isSome
  | .fork _ extra left right => left.Sound ∧ right.Sound ∧ forkExtra aug left right = some extra

/-- A dictionary with keys of `n` bits and the extra values that belong to it. -/
def Valid (n : Nat) (dict : Option (AugTrie E)) : Prop := ∀ t ∈ dict, t.erase.WF n ∧ t.Sound aug

end Definitions

section Edges

variable {E : Type} {aug : Augmentation E} {n : Nat} {t t' : AugTrie E} {p l : List Bool}

@[simp] theorem label_leaf (l : List Bool) (v : Slice) : (leaf l v : AugTrie E).label = l := rfl

@[simp] theorem label_fork (l : List Bool) (e : E) (a b : AugTrie E) : (fork l e a b).label = l := rfl

@[simp] theorem erase_leaf (l : List Bool) (v : Slice) : (leaf l v : AugTrie E).erase = .leaf l v := rfl

@[simp] theorem erase_fork (l : List Bool) (e : E) (a b : AugTrie E) :
    (fork l e a b).erase = .fork l a.erase b.erase := rfl

@[simp] theorem extend_leaf (p l : List Bool) (v : Slice) : (leaf l v : AugTrie E).extend p = leaf (p ++ l) v := rfl

@[simp] theorem extend_fork (p l : List Bool) (e : E) (a b : AugTrie E) :
    (fork l e a b).extend p = fork (p ++ l) e a b := rfl

@[simp] theorem extend_nil (t : AugTrie E) : t.extend [] = t := by
  cases t <;> rfl

@[simp] theorem label_extend (p : List Bool) (t : AugTrie E) : (t.extend p).label = p ++ t.label := by
  cases t <;> rfl

@[simp] theorem label_erase (t : AugTrie E) : t.erase.label = t.label := by
  cases t <;> rfl

@[simp] theorem erase_extend (p : List Bool) (t : AugTrie E) : (t.extend p).erase = t.erase.extend p := by
  cases t <;> rfl

@[simp] theorem nodeExtra_extend (p : List Bool) (t : AugTrie E) : (t.extend p).nodeExtra aug = t.nodeExtra aug := by
  cases t <;> rfl

theorem drop_extend_bit (p : List Bool) (b : Bool) (t : AugTrie E) :
    (t.extend (p ++ [b])).drop (p.length + 1) = t := by
  have gone : (p ++ [b] ++ t.label).drop (p.length + 1) = t.label := List.drop_left' (by simp)
  rw [drop, label_extend, gone]
  cases t <;> rfl

theorem Sound.extend (sound : t.Sound aug) (p : List Bool) : (t.extend p).Sound aug := by
  cases t with
  | leaf l v | fork l e a b => exact sound

theorem Sound.of_extend (sound : (t.extend p).Sound aug) : t.Sound aug := by
  cases t with
  | leaf l v | fork l e a b => exact sound

/-- A trie over a longer edge is the extension of one over the rest of it. -/
theorem exists_extend {u : Trie} (erased : t.erase = u.extend p) : ∃ s : AugTrie E, t = s.extend p ∧ s.erase = u := by
  cases t with
  | leaf l v =>
    cases u with
    | leaf l' v' =>
      obtain ⟨rfl, rfl⟩ : l = p ++ l' ∧ v = v' := by simpa using erased
      exact ⟨leaf l' v, rfl, rfl⟩
    | fork l' a b => simp at erased
  | fork l e a b =>
    cases u with
    | leaf l' v' => simp at erased
    | fork l' a' b' =>
      obtain ⟨rfl, rfl, rfl⟩ : l = p ++ l' ∧ a.erase = a' ∧ b.erase = b' := by simpa using erased
      exact ⟨fork l' e a b, rfl, rfl⟩

theorem exists_fork {a b : Trie} (erased : t.erase = .fork l a b) :
    ∃ (e : E) (a' b' : AugTrie E), t = fork l e a' b' ∧ a'.erase = a ∧ b'.erase = b := by
  cases t with
  | leaf l' v => simp at erased
  | fork l' e a' b' =>
    obtain ⟨rfl, left, right⟩ : l' = l ∧ a'.erase = a ∧ b'.erase = b := by simpa using erased
    exact ⟨e, a', b', rfl, left, right⟩

/-- The extra values of a sound trie are determined by the rest of it. -/
theorem Sound.erase_inj (sound : t.Sound aug) (sound' : t'.Sound aug) (same : t.erase = t'.erase) : t = t' := by
  induction t generalizing t' with
  | leaf l v =>
    cases t' with
    | leaf l' v' =>
      obtain ⟨rfl, rfl⟩ : l = l' ∧ v = v' := by simpa using same
      rfl
    | fork l' e a b => simp at same
  | fork l e a b ihLeft ihRight =>
    obtain ⟨e', a', b', rfl, left, right⟩ := exists_fork same.symm
    have sameLeft : a = a' := ihLeft sound.1 sound'.1 left.symm
    have sameRight : b = b' := ihRight sound.2.1 sound'.2.1 right.symm
    subst sameLeft
    subst sameRight
    have extras : some e = some e' := sound.2.2.symm.trans sound'.2.2
    cases extras
    rfl

theorem Sound.ext (wf : t.erase.WF n) (wf' : t'.erase.WF n) (sound : t.Sound aug)
    (sound' : t'.Sound aug) (same : ∀ k, k.length = n → t.erase.get? k = t'.erase.get? k) : t = t' :=
  sound.erase_inj sound' ((wf.pair wf').ext same)

theorem nodeExtra_isSome (sound : t.Sound aug) : (t.nodeExtra aug).isSome := by
  cases t with
  | leaf l v => exact sound
  | fork l e a b => rfl

variable {d d1 d2 : Option (AugTrie E)} {start : List Bool} {t : AugTrie E}

@[simp] theorem lookup_none (k : List Bool) : lookup (none : Option (AugTrie E)) k = none := rfl

@[simp] theorem lookup_some (t : AugTrie E) (k : List Bool) : lookup (some t) k = t.erase.get? k := rfl

theorem Valid.none : Valid aug n none := nofun

theorem valid_some : Valid aug n (some t) ↔ t.erase.WF n ∧ t.Sound aug := by
  simp [Valid]

/-- Only keys of the right length have values. -/
theorem Valid.length_of_lookup (valid : Valid aug n d) {k : List Bool} (found : (lookup d k).isSome) :
    k.length = n := by
  cases d with
  | none => cases found
  | some t => exact (valid t rfl).1.length_of_get? found

/-- Dictionaries with the same entries are equal. -/
theorem Valid.ext (valid1 : Valid aug n d1) (valid2 : Valid aug n d2) (same : ∀ k, lookup d1 k = lookup d2 k) :
    d1 = d2 := by
  have occupied {t : AugTrie E} (valid : Valid aug n (some t)) : ∃ k, (lookup (some t) k).isSome := by
    obtain ⟨k, _, found⟩ := (valid t rfl).1.exists_key
    exact ⟨k, found⟩
  cases d1 with
  | none =>
    cases d2 with
    | none => rfl
    | some t2 =>
      obtain ⟨k, found⟩ := occupied valid2
      rw [← same] at found
      cases found
  | some t1 =>
    cases d2 with
    | none =>
      obtain ⟨k, found⟩ := occupied valid1
      rw [same] at found
      cases found
    | some t2 =>
      obtain ⟨wf1, sound1⟩ := valid_some.mp valid1
      obtain ⟨wf2, sound2⟩ := valid_some.mp valid2
      rw [Sound.ext wf1 wf2 sound1 sound2 fun k _ => same k]

/-- The prefix test reads the label of the root only; that says it for all keys. -/
theorem hasCommonPrefix_iff (valid : Valid aug n d) (short : start.length ≤ n) :
    hasCommonPrefix n d start = true ↔ ∀ k, (lookup d k).isSome → start <+: k := by
  cases d with
  | none => simp [hasCommonPrefix]
  | some t =>
    obtain ⟨wf, _⟩ := valid_some.mp valid
    by_cases trivial : start = []
    · subst trivial
      simp [hasCommonPrefix]
    have test : hasCommonPrefix n (some t) start = start.isPrefixOf t.label := by
      simp only [hasCommonPrefix]
      rw [if_neg trivial, if_neg (by omega)]
    rw [test, List.isPrefixOf_iff_prefix]
    constructor
    · intro starts k found
      have below := get?_of_isSome found
      rw [label_erase] at below
      exact starts.trans below
    · intro all
      cases t with
      | leaf l v => exact all l (by simp [get?])
      | fork l e a b =>
        -- both sides of the fork have keys, so that the prefix ends above it
        exact prefix_of_sides fun c => (wf.exists_side c).imp fun _ found => all _ found

variable {p r2 rest above : List Bool} {b : Bool}

theorem extractPrefix_diverge (label : t.label = p ++ (!b) :: r2) (above r1 : List Bool) :
    extractPrefix above t (p ++ b :: r1) = none := by
  cases t with
  | leaf l v =>
    rw [label_leaf] at label
    simp [extractPrefix, label, commonLen_diverge]
  | fork l e left right =>
    rw [label_fork] at label
    simp [extractPrefix, label, commonLen_diverge]

theorem extractPrefix_under (starts : rest <+: t.label) (above : List Bool) :
    extractPrefix above t rest = some (t.extend above) := by
  obtain ⟨tail, label⟩ := starts
  cases t with
  | leaf l v =>
    rw [label_leaf] at label
    simp [extractPrefix, ← label, commonLen_append]
  | fork l e left right =>
    rw [label_fork] at label
    have none : rest.drop (rest.length + tail.length) = [] := List.drop_eq_nil_of_le (by omega)
    simp [extractPrefix, ← label, commonLen_append, none]

theorem extractPrefix_below (above l r : List Bool) (e : E) (left right : AugTrie E) (bit : Bool) :
    extractPrefix above (fork l e left right) (l ++ bit :: r) =
      extractPrefix (above ++ (l ++ [bit])) (if bit then right else left) r := by
  cases bit <;> simp [extractPrefix, commonLen_longer]

/-- What stays of a trie when its keys are restricted to a prefix. -/
def Restricted (above rest : List Bool) (t : AugTrie E) (k : List Bool) : Option Slice :=
  if above ++ rest <+: k then (t.extend above).erase.get? k else none

theorem restricted_below {r k : List Bool} {e : E} {left right : AugTrie E} {bit : Bool} :
    Restricted above (l ++ bit :: r) (fork l e left right) k =
      Restricted (above ++ (l ++ [bit])) r (if bit then right else left) k := by
  unfold Restricted
  rw [show above ++ (l ++ bit :: r) = above ++ (l ++ [bit]) ++ r by simp]
  split
  · next inside =>
    obtain ⟨tail, rfl⟩ := inside
    rw [erase_extend, erase_extend, List.append_assoc _ r tail, get?_extend, List.append_assoc, get?_extend,
      List.append_assoc, List.singleton_append, erase_fork, get?_side]
    cases bit <;> rfl
  · rfl

theorem restricted_under (starts : rest <+: t.label) (k : List Bool) :
    Restricted above rest t k = (t.extend above).erase.get? k := by
  unfold Restricted
  split
  · rfl
  rename_i outside
  symm
  apply get?_eq_none
  rw [label_erase, label_extend]
  exact fun below => outside (((List.prefix_append_right_inj above).mpr starts).trans below)

theorem restricted_diverge {r1 : List Bool} (label : t.label = p ++ (!b) :: r2) (k : List Bool) :
    Restricted above (p ++ b :: r1) t k = none := by
  unfold Restricted
  split
  · next inside =>
    apply get?_eq_none
    rw [label_erase, label_extend, label]
    intro other
    rcases List.prefix_or_prefix_of_prefix inside other with one | two
    · have := (List.prefix_append_right_inj p).mp ((List.prefix_append_right_inj above).mp one)
      simp at this
    · have := (List.prefix_append_right_inj p).mp ((List.prefix_append_right_inj above).mp two)
      simp at this
  · rfl

/-- The loop ends at a node whose edge does not end above the prefix. -/
theorem extractPrefix_edge (wf : t.erase.WF n) (sound : t.Sound aug) (above : List Bool)
    (ends : ∀ b r, rest ≠ t.label ++ b :: r) :
    Valid aug (above.length + n) (extractPrefix above t rest) ∧
      ∀ k, lookup (extractPrefix above t rest) k = Restricted above rest t k := by
  have kept (starts : rest <+: t.label) : Valid aug (above.length + n) (extractPrefix above t rest) ∧
      ∀ k, lookup (extractPrefix above t rest) k = Restricted above rest t k := by
    rw [extractPrefix_under starts, valid_some, erase_extend]
    exact ⟨⟨wf.extend above, sound.extend above⟩, fun k => (restricted_under starts k).symm⟩
  rcases labels_cases rest t.label with ⟨p, b, r1, r2, rfl, label⟩ | same | ⟨b, r, label⟩ | ⟨b, r, longer⟩
  · rw [extractPrefix_diverge label]
    exact ⟨.none, fun k => (restricted_diverge label k).symm⟩
  · exact kept (same ▸ List.prefix_rfl)
  · exact kept (label ▸ List.prefix_append rest _)
  · exact absurd longer (ends b r)

/-- The loop keeps the keys with the prefix, and the extra values below it. -/
theorem extractPrefix_spec (wf : t.erase.WF n) (sound : t.Sound aug) (above : List Bool) (short : rest.length ≤ n) :
    Valid aug (above.length + n) (extractPrefix above t rest) ∧
      ∀ k, lookup (extractPrefix above t rest) k = Restricted above rest t k := by
  induction t generalizing above rest n with
  | leaf l v =>
    refine extractPrefix_edge wf sound above fun b r longer => ?_
    rw [longer, List.length_append, List.length_cons] at short
    cases wf
    simp only [label_leaf] at short
    omega
  | fork l e left right ihLeft ihRight =>
    by_cases below : ∃ b r, rest = l ++ b :: r
    · obtain ⟨bit, r, rfl⟩ := below
      cases wf with
      | @fork m _ _ _ wfLeft wfRight =>
        have width : above.length + (l.length + 1 + m) = (above ++ (l ++ [bit])).length + m := by simp; omega
        have shorter : r.length ≤ m := by simp at short; omega
        simp only [restricted_below]
        rw [extractPrefix_below, width]
        cases bit with
        | true => exact ihRight wfRight sound.2.1 _ shorter
        | false => exact ihLeft wfLeft sound.1 _ shorter
    · exact extractPrefix_edge wf sound above fun b r longer => below ⟨b, r, longer⟩

/-- The cut keeps exactly the entries whose keys have the prefix. -/
theorem cutPrefixSubdict_spec {d : Option (AugTrie E)} (valid : Valid aug n d)
    (short : start.length ≤ n) : Valid aug n (cutPrefixSubdict n d start) ∧
      ∀ k, lookup (cutPrefixSubdict n d start) k = if start <+: k then lookup d k else none := by
  cases d with
  | none => exact ⟨.none, fun k => by simp [cutPrefixSubdict]⟩
  | some t =>
    by_cases whole : start = []
    · subst whole
      exact ⟨by simpa [cutPrefixSubdict] using valid, fun k => by simp [cutPrefixSubdict]⟩
    have cut : cutPrefixSubdict n (some t) start = extractPrefix [] t start := by
      simp only [cutPrefixSubdict]
      rw [if_neg whole, if_neg (by omega)]
    obtain ⟨wf, sound⟩ := valid_some.mp valid
    have spec := extractPrefix_spec wf sound [] short
    simpa [cut, Restricted] using spec

variable {left right : AugTrie E} {m : Nat} {checkLeaf : Slice → List Bool → Option Bool}

variable (total : ∀ x y, (aug.evalFork x y).isSome)
include total

theorem forkExtra_total (soundLeft : left.Sound aug)
    (soundRight : right.Sound aug) : ∃ e, forkExtra aug left right = some e := by
  obtain ⟨x, extraLeft⟩ := Option.isSome_iff_exists.mp (nodeExtra_isSome soundLeft)
  obtain ⟨y, extraRight⟩ := Option.isSome_iff_exists.mp (nodeExtra_isSome soundRight)
  obtain ⟨e, extra⟩ := Option.isSome_iff_exists.mp (total x y)
  exact ⟨e, by simp [forkExtra, extraLeft, extraRight, extra]⟩

theorem join_total (l : List Bool) {a b : Option (AugTrie E)}
    (validLeft : Valid aug m a) (validRight : Valid aug m b) :
    ∃ r, join aug l a b = some r ∧ Valid aug (l.length + 1 + m) r ∧
      r.map erase = Trie.join l (a.map erase) (b.map erase) := by
  have lifted (c : Bool) {t : AugTrie E} (valid : Valid aug m (some t)) :
      Valid aug (l.length + 1 + m) (some (t.extend (l ++ [c]))) := by
    obtain ⟨wf, sound⟩ := valid_some.mp valid
    rw [valid_some, erase_extend]
    exact ⟨by simpa using wf.extend (l ++ [c]), sound.extend _⟩
  cases a with
  | none =>
    cases b with
    | none => exact ⟨none, rfl, .none, rfl⟩
    | some right => exact ⟨_, rfl, lifted true validRight, by simp [Trie.join]⟩
  | some left =>
    cases b with
    | none => exact ⟨_, rfl, lifted false validLeft, by simp [Trie.join]⟩
    | some right =>
      obtain ⟨wfLeft, soundLeft⟩ := valid_some.mp validLeft
      obtain ⟨wfRight, soundRight⟩ := valid_some.mp validRight
      obtain ⟨e, extra⟩ := forkExtra_total total soundLeft soundRight
      refine ⟨some (fork l e left right), by simp [join, createFork, extra], ?_, rfl⟩
      rw [valid_some]
      exact ⟨.fork l wfLeft wfRight, soundLeft, soundRight, extra⟩

/-- What a filter leaves of a trie. -/
def kept (t : AugTrie E) (res : Option (AugTrie E) × Nat) : Option (AugTrie E) := if res.2 ≠ 0 then res.1 else some t

/-- An entry stays when the callback says so. -/
def passes (checkLeaf : Slice → List Bool → Option Bool) (above k : List Bool) (v : Slice) : Bool :=
  checkLeaf v (above ++ k) = some true

omit total in
/-- The entries of a fork that stay are those that stay below its children. -/
theorem filter_fork {above : List Bool} {e : E} {r a b : Option (AugTrie E)}
    (joined : r.map erase = Trie.join l (a.map erase) (b.map erase)) (keysLeft : ∀ k, k.length = m →
      lookup a k = (left.erase.get? k).filter (passes checkLeaf (above ++ l ++ [false]) k))
    (keysRight : ∀ k, k.length = m →
      lookup b k = (right.erase.get? k).filter (passes checkLeaf (above ++ l ++ [true]) k)) {k : List Bool}
    (len : k.length = l.length + 1 + m) :
    lookup r k = ((fork l e left right).erase.get? k).filter (passes checkLeaf above k) := by
  unfold lookup at *
  rw [joined, erase_fork]
  rcases key_cases len with ⟨c, rest, rfl, below⟩ | no
  · have deeper : passes checkLeaf (above ++ l ++ [c]) rest = passes checkLeaf above (l ++ c :: rest) := by
      funext v
      simp [passes]
    rw [Trie.lookup_join, get?_side, ← deeper]
    cases c with
    | true => simpa using keysRight rest below
    | false => simpa using keysLeft rest below
  · rw [Trie.lookup_join_none no, get?_eq_none (t := Trie.fork l left.erase right.erase) no]
    rfl

/-- A filter whose callback reports no error keeps the entries that pass. -/
theorem dictFilter_spec (wf : t.erase.WF n)
    (sound : t.Sound aug) (above : List Bool)
    (defined : ∀ k v, t.erase.get? k = some v → (checkLeaf v (above ++ k)).isSome) :
    ∃ res, dictFilter aug checkLeaf above t = some res ∧ Valid aug n (kept t res) ∧
      ∀ k, k.length = n → lookup (kept t res) k = (t.erase.get? k).filter (passes checkLeaf above k) := by
  induction t generalizing n above with
  | leaf l v =>
    obtain ⟨keep, checked⟩ := Option.isSome_iff_exists.mp (defined l v (by simp [get?]))
    refine ⟨(none, if keep then 0 else 1), by simp [dictFilter, checked], ?_, fun k _ => ?_⟩
    · cases keep with
      | true => exact valid_some.mpr ⟨wf, sound⟩
      | false => exact .none
    by_cases here : k = l
    · subst here
      cases keep <;> simp [kept, get?, Option.filter, passes, checked]
    · cases keep <;> simp [kept, get?, here]
  | fork l e left right ihLeft ihRight =>
    have whole : Valid aug n (some (fork l e left right)) := valid_some.mpr ⟨wf, sound⟩
    cases wf with
    | @fork m _ _ _ wfLeft wfRight =>
      have below (c : Bool) (k : List Bool) (v : Slice)
          (found : (if c then right.erase else left.erase).get? k = some v) :
          (checkLeaf v (above ++ l ++ [c] ++ k)).isSome := by
        have checked := defined (l ++ c :: k) v (by rw [erase_fork, get?_side]; exact found)
        simpa using checked
      obtain ⟨resLeft, doneLeft, validLeft, keysLeft⟩ := ihLeft wfLeft sound.1 (above ++ l ++ [false]) (below false)
      obtain ⟨resRight, doneRight, validRight, keysRight⟩ := ihRight wfRight sound.2.1 (above ++ l ++ [true]) (below true)
      by_cases unchanged : resLeft.2 = 0 ∧ resRight.2 = 0
      · have same : kept (fork l e left right) resRight = some (fork l e left right) := by simp [kept, unchanged]
        refine ⟨resRight, ?_, ?_⟩
        · simp only [dictFilter, doneLeft, doneRight, Option.bind_eq_bind, Option.bind_some]
          exact if_pos unchanged
        rw [same]
        refine ⟨whole, fun k len => filter_fork ?_ keysLeft keysRight len⟩
        simp [kept, unchanged, Trie.join]
      · obtain ⟨r, done, valid, joined⟩ := join_total total l validLeft validRight
        have changed : resLeft.2 + resRight.2 ≠ 0 := by omega
        have same : kept (fork l e left right) (r, resLeft.2 + resRight.2) = r := if_pos changed
        refine ⟨(r, resLeft.2 + resRight.2), ?_, ?_⟩
        · simp only [dictFilter, doneLeft, doneRight, Option.bind_eq_bind, Option.bind_some]
          rw [if_neg unchanged]
          simp only [kept] at done
          rw [done]
          rfl
        · rw [same]
          exact ⟨valid, fun k len => filter_fork joined keysLeft keysRight len⟩

theorem filter_spec {d : Option (AugTrie E)} (valid : Valid aug n d)
    (defined : ∀ k v, lookup d k = some v → (checkLeaf v k).isSome) :
    ∃ r, filter aug checkLeaf d = some r ∧ Valid aug n r ∧
      ∀ k, lookup r k = (lookup d k).filter fun v => checkLeaf v k = some true := by
  cases d with
  | none => exact ⟨none, rfl, .none, fun k => rfl⟩
  | some t =>
    obtain ⟨wf, sound⟩ := valid_some.mp valid
    obtain ⟨res, done, validKept, keys⟩ := dictFilter_spec total wf sound [] defined
    refine ⟨kept t res, ?_, validKept, fun k => ?_⟩
    · simp [filter, done, kept, Nat.pos_iff_ne_zero]
    · by_cases len : k.length = n
      · exact keys k len
      have outside {d : Option (AugTrie E)} (valid : Valid aug n d) : lookup d k = none := by
        by_contra some
        exact len (valid.length_of_lookup (Option.isSome_iff_ne_none.mpr some))
      rw [outside validKept, outside valid]
      rfl

end Edges

section Combining

variable {E : Type} {aug : Augmentation E} {n fuel : Nat} (f : CombineFunc)
variable {m : Nat} {p l : List Bool} {t left right a b : AugTrie E} {u1 u2 : Trie} {c : Bool}

theorem combine_diverge (p : List Bool) (b : Bool) (t1 t2 : AugTrie E) :
    combine aug f (fuel + 1) (t1.extend (p ++ [b])) (t2.extend (p ++ [!b])) = (branch aug p (!b) t2 t1).map some := by
  have common : commonLen (t1.extend (p ++ [b])).label (t2.extend (p ++ [!b])).label = p.length := by
    simpa using commonLen_diverge p b t1.label t2.label
  simp only [combine, common, drop_extend_bit]
  simp

theorem combine_forks (l : List Bool) (e1 e2 : E) (a1 b1 a2 b2 : AugTrie E) :
    combine aug f (fuel + 1) (fork l e1 a1 b1) (fork l e2 a2 b2) =
      (combine aug f fuel a1 a2).bind fun left =>
        (combine aug f fuel b1 b2).bind fun right => join aug l left right := by
  simp [combine, commonLen_self]

/-- The child of a fork on one side, after a combination of the other operand with it. -/
def joinSide (aug : Augmentation E) (l : List Bool) (side : Bool) (left right : AugTrie E)
    (changed : Option (AugTrie E)) : Option (Option (AugTrie E)) :=
  if side then join aug l (some left) changed else join aug l changed (some right)

theorem combine_below1 (l : List Bool) (side : Bool) (e : E) (a b t2 : AugTrie E) :
    combine aug f (fuel + 1) (fork l e a b) (t2.extend (l ++ [side])) =
      (combine aug f fuel (if side then b else a) t2).bind fun changed => joinSide aug l side a b changed := by
  have common : commonLen (fork l e a b).label (t2.extend (l ++ [side])).label = l.length := by
    simpa using commonLen_append l (side :: t2.label)
  simp only [combine, common, drop_extend_bit]
  cases side <;> simp [joinSide]

theorem combine_below2 (l : List Bool) (side : Bool) (e : E) (t1 a b : AugTrie E) :
    combine aug f (fuel + 1) (t1.extend (l ++ [side])) (fork l e a b) =
      (combine aug f fuel t1 (if side then b else a)).bind fun changed => joinSide aug l side a b changed := by
  have common : commonLen (t1.extend (l ++ [side])).label (fork l e a b).label = l.length := by
    simpa using commonLen_longer l (side :: t1.label)
  simp only [combine, common, drop_extend_bit]
  cases side <;> simp [joinSide]

/-- A fork whose sides are known. -/
structure Parted (aug : Augmentation E) (m : Nat) (l : List Bool) (t : AugTrie E) (left right : AugTrie E) : Prop where
  shape : createFork aug l left right = some t
  wf : ∀ c : Bool, (if c then right else left).erase.WF m
  sound : ∀ c : Bool, (if c then right else left).Sound aug
  keys : ∀ c k, (if c then right else left).erase.get? k = t.erase.get? (l ++ c :: k)

theorem Sound.side {e : E} (sound : (fork l e a b).Sound aug) (c : Bool) : (if c then b else a).Sound aug := by
  cases c with
  | true => exact sound.2.1
  | false => exact sound.1

theorem erase_side (a b : AugTrie E) (c : Bool) : (if c then b else a).erase = if c then b.erase else a.erase := by
  cases c <;> rfl

theorem exists_parted (wf : t.erase.WF (p.length + 1 + m)) (sound : t.Sound aug)
    (under : ∀ k, (t.erase.get? k).isSome → p <+: k) (sides : ∀ c, ∃ k, (t.erase.get? (p ++ c :: k)).isSome) :
    ∃ left right, Parted aug m p t left right := by
  obtain ⟨a, b, shape⟩ := Trie.fork_of_parting wf under sides
  obtain ⟨e, left, right, rfl, rfl, rfl⟩ := exists_fork shape
  obtain ⟨wfLeft, wfRight⟩ := wf.children
  refine ⟨left, right, by simp [createFork, sound.2.2], ?_, sound.side, ?_⟩
  · intro c
    rw [erase_side]
    exact wfLeft.side wfRight c
  · intro c k
    rw [erase_fork, get?_side, erase_side]

/-- The entries of `t` are those of two tries without a common key. -/
structure Union (n : Nat) (t t1 t2 : Trie) : Prop where
  keys : ∀ k, k.length = n → t.get? k = (t1.get? k).or (t2.get? k)
  apart : ∀ k, t1.get? k = none ∨ t2.get? k = none

/-- The union of two tries that lie below `p` on both sides together is a fork with the label `p`. -/
theorem Union.parted (union : Union (p.length + 1 + m) t.erase u1 u2) (wf : t.erase.WF (p.length + 1 + m))
    (sound : t.Sound aug) (under : ∀ k, (u1.get? k).isSome ∨ (u2.get? k).isSome → p <+: k)
    (sides : ∀ c, ∃ k, k.length = m ∧ ((u1.get? (p ++ c :: k)).isSome ∨ (u2.get? (p ++ c :: k)).isSome)) :
    ∃ left right, Parted aug m p t left right ∧
      ∀ c k, k.length = m →
        (if c then right else left).erase.get? k = (u1.get? (p ++ c :: k)).or (u2.get? (p ++ c :: k)) := by
  have occupied {k : List Bool} (len : k.length = p.length + 1 + m) :
      (t.erase.get? k).isSome ↔ (u1.get? k).isSome ∨ (u2.get? k).isSome := by
    rw [union.keys k len]
    cases u1.get? k <;> simp
  obtain ⟨left, right, parted⟩ := exists_parted wf sound
    (fun k found => under k ((occupied (wf.length_of_get? found)).mp found))
    (fun c => by
      obtain ⟨k, len, found⟩ := sides c
      exact ⟨k, (occupied (by simp; omega)).mpr found⟩)
  refine ⟨left, right, parted, fun c k len => ?_⟩
  rw [parted.keys, union.keys _ (by simp; omega)]

theorem under_extend {t : Trie} {k : List Bool} (found : ((t.extend (l ++ [c])).get? k).isSome) : l <+: k := by
  by_contra no
  rw [get?_extend_bit_none no] at found
  cases found

theorem join_parted (parted : Parted aug m l t left right) : join aug l (some left) (some right) = some (some t) := by
  simp [join, parted.shape]

theorem joinSide_parted {side : Bool} (parted : Parted aug m l t left right)
    (other : (if !side then right else left) = if !side then b else a) :
    joinSide aug l side a b (some (if side then right else left)) = some (some t) := by
  cases side with
  | true =>
    obtain rfl : left = a := other
    exact join_parted parted
  | false =>
    obtain rfl : right = b := other
    exact join_parted parted

theorem Union.symm {t t1 t2 : Trie} (union : Union n t t1 t2) : Union n t t2 t1 where
  keys k len := by
    rw [union.keys k len]
    rcases union.apart k with none | none <;> simp [none]
  apart k := (union.apart k).symm

/-- The union of a fork and a trie below one of its sides is the fork with that side changed. -/
theorem Union.beside {side : Bool} {e : E} {s : Trie} (union : Union (l.length + 1 + m) t.erase
      (.fork l a.erase b.erase) (s.extend (l ++ [side]))) (wf : t.erase.WF (l.length + 1 + m)) (sound : t.Sound aug)
    (wfLeft : a.erase.WF m) (wfRight : b.erase.WF m) (soundFork : (fork l e a b).Sound aug) :
    ∃ changed : AugTrie E, changed.erase.WF m ∧ changed.Sound aug ∧
      Union m changed.erase (if side then b.erase else a.erase) s ∧
      joinSide aug l side a b (some changed) = some (some t) := by
  obtain ⟨left, right, parted, keys⟩ := union.parted wf sound
    (fun k found => found.elim get?_of_isSome under_extend)
    (fun c => by
      obtain ⟨k, len, found⟩ := (wfLeft.side wfRight c).exists_key
      exact ⟨k, len, .inl (by rw [get?_side]; exact found)⟩)
  refine ⟨if side then right else left, parted.wf side, parted.sound side, ⟨fun k len => ?_, fun k => ?_⟩,
    joinSide_parted parted ?_⟩
  · rw [keys side k len, get?_side, get?_extend_bit, if_pos rfl]
  · have apart := union.apart (l ++ side :: k)
    rwa [get?_side, get?_extend_bit, if_pos rfl] at apart
  · refine Sound.ext (parted.wf !side) ?_ (parted.sound !side) (soundFork.side !side) fun k len => ?_
    · rw [erase_side]
      exact wfLeft.side wfRight !side
    · rw [keys (!side) k len, get?_side, get?_extend_bit,
        if_neg (show ¬ (!side) = side by cases side <;> simp), Option.or_none, erase_side]

/-- A combination gives back the dictionary whose entries are those of both operands. -/
theorem combine_eq (pair : Trie.Pair n u1 u2) (wf1 : u1.WF n) (wf2 : u2.WF n) {t1 t2 : AugTrie E}
    (over1 : t1.erase = u1) (over2 : t2.erase = u2) (sound1 : t1.Sound aug) (sound2 : t2.Sound aug) (wf : t.erase.WF n)
    (sound : t.Sound aug) (union : Union n t.erase u1 u2) (enough : n < fuel) :
    combine aug f fuel t1 t2 = some (some t) := by
  induction pair generalizing fuel t t1 t2 with
  | @diverge m p b v1 v2 inner1 inner2 =>
    obtain ⟨fuel, rfl⟩ := exists_fuel enough
    obtain ⟨s1, rfl, rfl⟩ := exists_extend over1
    obtain ⟨s2, rfl, rfl⟩ := exists_extend over2
    obtain ⟨left, right, parted, keys⟩ := union.parted wf sound
      (fun k found => found.elim under_extend under_extend)
      (fun c => by
        by_cases here : c = b
        · obtain ⟨k, len, found⟩ := inner1.exists_key
          exact ⟨k, len, .inl (by rw [get?_extend_bit, if_pos here]; exact found)⟩
        · obtain ⟨k, len, found⟩ := inner2.exists_key
          have there : c = !b := Bool.eq_not_iff.mpr here
          exact ⟨k, len, .inr (by rw [get?_extend_bit, if_pos there]; exact found)⟩)
    have first : (if b then right else left) = s1 := by
      refine Sound.ext (parted.wf b) inner1 (parted.sound b) sound1.of_extend fun k len => ?_
      rw [keys b k len, get?_extend_bit, get?_extend_bit, if_pos rfl, if_neg (by cases b <;> simp)]
      simp
    have second : (if (!b) then right else left) = s2 := by
      refine Sound.ext (parted.wf (!b)) inner2 (parted.sound (!b)) sound2.of_extend fun k len => ?_
      rw [keys (!b) k len, get?_extend_bit, get?_extend_bit, if_pos rfl, if_neg (by cases b <;> simp)]
      simp
    subst first
    subst second
    rw [combine_diverge]
    cases b <;> simp [branch, parted.shape]
  | leaves l v1 v2 =>
    have apart := union.apart l
    simp [get?] at apart
  | @forks m l a1 b1 a2 b2 lefts rights ihLeft ihRight =>
    obtain ⟨fuel, rfl⟩ := exists_fuel enough
    obtain ⟨e1, s1, r1, rfl, rfl, rfl⟩ := exists_fork over1
    obtain ⟨e2, s2, r2, rfl, rfl, rfl⟩ := exists_fork over2
    obtain ⟨left, right, parted, keys⟩ := union.parted wf sound
      (fun k found => found.elim get?_of_isSome get?_of_isSome)
      (fun c => by
        obtain ⟨k, len, found⟩ := (wf1.children.1.side wf1.children.2 c).exists_key
        exact ⟨k, len, .inl (by rw [get?_side]; exact found)⟩)
    have below (c : Bool) : Union m (if c then right else left).erase (if c then r1.erase else s1.erase)
        (if c then r2.erase else s2.erase) := by
      refine ⟨fun k len => ?_, fun k => ?_⟩
      · rw [keys c k len, get?_side, get?_side]
      · have apart := union.apart (l ++ c :: k)
        rwa [get?_side, get?_side] at apart
    have doneLeft := ihLeft wf1.children.1 wf2.children.1 rfl rfl sound1.1 sound2.1 (parted.wf false)
      (parted.sound false) (below false) (by omega : m < fuel)
    have doneRight := ihRight wf1.children.2 wf2.children.2 rfl rfl sound1.2.1 sound2.2.1 (parted.wf true)
      (parted.sound true) (below true) (by omega : m < fuel)
    rw [combine_forks, doneLeft, doneRight]
    exact join_parted parted
  | @below1 m l side a b v2 wfLeft wfRight inner ih =>
    obtain ⟨fuel, rfl⟩ := exists_fuel enough
    obtain ⟨e, s1, r1, rfl, rfl, rfl⟩ := exists_fork over1
    obtain ⟨s2, rfl, rfl⟩ := exists_extend over2
    obtain ⟨changed, wfChanged, soundChanged, below, joined⟩ := union.beside wf sound wfLeft wfRight sound1
    have done := ih (wfLeft.side wfRight side) wf2.of_extend_bit (erase_side s1 r1 side) rfl (sound1.side side)
      sound2.of_extend wfChanged soundChanged below (by omega : m < fuel)
    rw [combine_below1, done]
    exact joined
  | @below2 m l side v1 a b wfLeft wfRight inner ih =>
    obtain ⟨fuel, rfl⟩ := exists_fuel enough
    obtain ⟨s1, rfl, rfl⟩ := exists_extend over1
    obtain ⟨e, s2, r2, rfl, rfl, rfl⟩ := exists_fork over2
    obtain ⟨changed, wfChanged, soundChanged, below, joined⟩ := union.symm.beside wf sound wfLeft wfRight sound2
    have done := ih wf1.of_extend_bit (wfLeft.side wfRight side) rfl (erase_side s2 r2 side) sound1.of_extend
      (sound2.side side) wfChanged soundChanged below.symm (by omega : m < fuel)
    rw [combine_below2, done]
    exact joined

/-- Two dictionaries that share no key combine to the one with the entries of both. -/
theorem combineWith_eq {d d1 d2 : Option (AugTrie E)} (valid : Valid aug n d) (valid1 : Valid aug n d1)
    (valid2 : Valid aug n d2) (keys : ∀ k, lookup d k = (lookup d1 k).or (lookup d2 k))
    (apart : ∀ k, lookup d1 k = none ∨ lookup d2 k = none) : combineWith aug n d1 d2 = some d := by
  cases d1 with
  | none =>
    refine congrArg some (valid2.ext valid fun k => ?_)
    rw [keys, lookup_none, Option.none_or]
  | some t1 =>
    cases d2 with
    | none =>
      refine congrArg some (valid1.ext valid fun k => ?_)
      rw [keys, lookup_none, Option.or_none]
    | some t2 =>
      obtain ⟨wf1, sound1⟩ := valid_some.mp valid1
      obtain ⟨wf2, sound2⟩ := valid_some.mp valid2
      cases d with
      | none =>
        obtain ⟨k, _, found⟩ := wf1.exists_key
        obtain ⟨gone, _⟩ := Option.or_eq_none_iff.mp (keys k).symm
        rw [lookup_some] at gone
        rw [gone] at found
        cases found
      | some t =>
        obtain ⟨wf, sound⟩ := valid_some.mp valid
        exact combine_eq _ (wf1.pair wf2) wf1 wf2 rfl rfl sound1 sound2 wf sound
          ⟨fun k _ => keys k, apart⟩ (Nat.lt_succ_self n)

theorem half_eq (parted : Parted aug m p t left right) {half : Option (AugTrie E)}
    (valid : Valid aug (p.length + 1 + m) half)
    (keys : ∀ k, lookup half k = if p ++ [c] <+: k then t.erase.get? k else none) :
    half = some ((if c then right else left).extend (p ++ [c])) := by
  refine valid.ext ?_ fun k => ?_
  · rw [valid_some, erase_extend]
    exact ⟨by simpa using (parted.wf c).extend (p ++ [c]), (parted.sound c).extend _⟩
  · rw [keys, lookup_some, erase_extend]
    split
    · next below =>
      obtain ⟨rest, rfl⟩ := below
      rw [get?_extend, parted.keys]
      simp
    · next outside => exact (get?_extend_none outside).symm

/-- The extra value of a dictionary whose keys have the prefix `p`, from those of its halves. -/
theorem rootExtra_halves {d : Option (AugTrie E)} {half : Bool → Option (AugTrie E)} (valid : Valid aug n d)
    (under : ∀ k, (lookup d k).isSome → p <+: k) (room : p.length < n) (halves : ∀ c, Valid aug n (half c))
    (keys : ∀ c k, lookup (half c) k = if p ++ [c] <+: k then lookup d k else none) :
    (∃ c, half c = none ∧ half (!c) = d) ∨
      ∃ x y, rootExtra aug (half false) = some x ∧ rootExtra aug (half true) = some y ∧
        rootExtra aug d = aug.evalFork x y := by
  obtain ⟨m, rfl⟩ : ∃ m, n = p.length + 1 + m := ⟨n - p.length - 1, by omega⟩
  have side {k : List Bool} (found : (lookup d k).isSome) : ∃ c, p ++ [c] <+: k := by
    rcases key_cases (valid.length_of_lookup found) with ⟨c, rest, rfl, _⟩ | no
    · exact ⟨c, by simp⟩
    · exact absurd (under k found) no
  by_cases empty : ∃ c, half c = none
  · obtain ⟨c, gone⟩ := empty
    refine .inl ⟨c, gone, (halves !c).ext valid fun k => ?_⟩
    rw [keys]
    split
    · rfl
    rename_i outside
    by_contra occupied
    have found := Option.isSome_iff_ne_none.mpr (Ne.symm occupied)
    obtain ⟨c', below⟩ := side found
    obtain rfl : c' = c := by
      by_contra other
      exact outside (Bool.eq_not_iff.mpr other ▸ below)
    have lost := keys c' k
    rw [if_pos below, gone, lookup_none] at lost
    exact occupied lost
  · right
    have occupied (c : Bool) : ∃ k, (lookup d (p ++ c :: k)).isSome := by
      obtain ⟨t, some⟩ := Option.ne_none_iff_exists'.mp fun gone => empty ⟨c, gone⟩
      have wf : t.erase.WF _ := (halves c t some).1
      obtain ⟨k, _, found⟩ := wf.exists_key
      have entry := keys c k
      rw [some, lookup_some] at entry
      rw [entry] at found
      split at found
      · next below =>
        obtain ⟨rest, rfl⟩ := below
        exact ⟨rest, by simpa using found⟩
      · cases found
    cases d with
    | none =>
      obtain ⟨k, found⟩ := occupied false
      cases found
    | some t =>
      obtain ⟨wf, sound⟩ := valid_some.mp valid
      obtain ⟨left, right, parted⟩ := exists_parted wf sound under occupied
      have first := half_eq parted (halves false) (keys false)
      have second := half_eq parted (halves true) (keys true)
      obtain ⟨e, extra, rfl⟩ := Option.map_eq_some_iff.mp parted.shape
      obtain ⟨x, extraLeft, rest⟩ := Option.bind_eq_some_iff.mp extra
      obtain ⟨y, extraRight, forked⟩ := Option.bind_eq_some_iff.mp rest
      refine ⟨x, y, ?_, ?_, forked.symm⟩
      · rw [first]
        exact (nodeExtra_extend _ _).trans extraLeft
      · rw [second]
        exact (nodeExtra_extend _ _).trans extraRight

end Combining

end AugTrie

namespace Trie

section Sizes

variable {n : Nat} {t1 t2 : Trie}

/-- The number of cells of a dictionary, counted at every visit. -/
def nodes : Trie → Nat
  | .leaf _ _ => 1
  | .fork _ left right => 1 + left.nodes + right.nodes

theorem nodes_extend (p : List Bool) (t : Trie) : (t.extend p).nodes = t.nodes := by
  cases t <;> rfl

/-- A dictionary with fewer keys takes no more cells. -/
theorem nodes_le_of_keys (pair : Pair n t1 t2) (keys : ∀ k, (t1.get? k).isSome → (t2.get? k).isSome) :
    t1.nodes ≤ t2.nodes := by
  induction pair with
  | @diverge m p b t1 t2 wf1 =>
    obtain ⟨k, _, found⟩ := wf1.exists_key
    have other := keys (p ++ b :: k) (by rw [get?_extend_bit, if_pos rfl]; exact found)
    rw [get?_extend_bit, if_neg (by cases b <;> simp)] at other
    cases other
  | leaves l v1 v2 => exact Nat.le_refl 1
  | @forks _ l a1 b1 a2 b2 _ _ ihLeft ihRight =>
    have children (c : Bool) (k : List Bool) (found : ((if c then b1 else a1).get? k).isSome) :
        ((if c then b2 else a2).get? k).isSome := by
      have := keys (l ++ c :: k) (by rwa [get?_side])
      rwa [get?_side] at this
    have left := ihLeft (children false)
    have right := ihRight (children true)
    simp only [nodes]
    omega
  | @below1 m l side a b t2 wfLeft wfRight inner ih =>
    obtain ⟨k, _, found⟩ := (wfLeft.side wfRight !side).exists_key
    have other := keys (l ++ (!side) :: k) (by rw [get?_side]; exact found)
    rw [get?_extend_bit, if_neg (show ¬ (!side) = side by cases side <;> simp)] at other
    cases other
  | @below2 m l side t1 a b _ _ inner ih =>
    have below := ih fun k found => by
      have := keys (l ++ side :: k) (by rw [get?_extend_bit, if_pos rfl]; exact found)
      rwa [get?_side] at this
    rw [nodes_extend]
    cases side with
    | true =>
      simp only [if_true] at below
      simp only [nodes]
      omega
    | false =>
      simp only [Bool.false_eq_true, if_false] at below
      simp only [nodes]
      omega

end Sizes

end Trie

end Tvm.Hashmap
