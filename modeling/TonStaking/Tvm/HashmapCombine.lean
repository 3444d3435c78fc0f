import TonStaking.Tvm.HashmapTrie

/-!
# Combination of two dictionaries

`DictionaryFixed::dict_combine_with` of `crypto/vm/dict.cpp` (1764-1962), on
cells and on the tries that well-formed cells stand for. The first `skip` bits
of a label lie above the node that is combined; on tries they are cut off. The
two recursive calls below a common fork are made with the default mode.
-/
namespace Tvm.Hashmap

/-- A combination is refused (`CombineError`) or meets an exception of the machine. -/
inductive CombineExc where
  | refused
  | vm (e : Exc)

abbrev Combining (α : Type) := Except CombineExc α

def combining {α : Type} : Outcome α → Combining α
  | .ok x => .ok x
  | .error e => .error (.vm e)

/-- `mode`: +1 forbids keys that only the second dictionary has, +2 those that only the
first one has. -/
structure CombineMode where
  forbid1 : Bool
  forbid2 : Bool

def CombineMode.default : CombineMode := ⟨false, false⟩

/-- The mode of a subtraction: no key may stand in the second dictionary only. -/
def CombineMode.strict : CombineMode := ⟨true, false⟩

@[simp] theorem CombineMode.default_forbid1 : CombineMode.default.forbid1 = false := rfl

@[simp] theorem CombineMode.default_forbid2 : CombineMode.default.forbid2 = false := rfl

@[simp] theorem CombineMode.strict_forbid1 : CombineMode.strict.forbid1 = true := rfl

@[simp] theorem CombineMode.strict_forbid2 : CombineMode.strict.forbid2 = false := rfl

/-- The only child of a fork is merged with the edge above it. -/
def mergeEdge (label : List Bool) (bit : Bool) (c : Cell) (n : Nat) : Combining (Option Cell) := do
  let (rest, payload) ← combining (readNode (n - label.length - 1) c)
  let edge ← combining (buildCell (appendLabel (label ++ bit :: rest) n ++ payload.bits) payload.refs)
  .ok (some edge)

/-- A fork whose children may have become empty. -/
def joinChildren (label : List Bool) (n : Nat) : Option Cell → Option Cell → Combining (Option Cell)
  | none, none => .ok none
  | some c1, some c2 => do
    let fork ← combining (buildCell (appendLabel label n) [c1, c2])
    .ok (some fork)
  | some c1, none => mergeEdge label false c1 n
  | none, some c2 => mergeEdge label true c2 n

/-- A value for a pair of leaves: refused, dropped or stored. -/
abbrev CombineFunc := Slice → Slice → Option (Option Slice)

def dictCombineWith (combine : CombineFunc) :
    Nat → Option Cell → Option Cell → Nat → CombineMode → Nat → Nat → Combining (Option Cell)
  | 0, _, _, _, _, _, _ => .error (.vm .dictErr)
  | _ + 1, none, dict2, _, mode, _, _ =>
    if mode.forbid1 ∧ dict2.isNone then .error .refused else .ok dict2
  | _ + 1, some dict1, none, _, mode, _, _ => if mode.forbid2 then .error .refused else .ok (some dict1)
  | fuel + 1, some dict1, some dict2, n, mode, skip1, skip2 => do
    let (label1, rest1) ← combining (readNode (n + skip1) dict1)
    let (label2, rest2) ← combining (readNode (n + skip2) dict2)
    let key1 := label1.drop skip1
    let key2 := label2.drop skip2
    let c := commonLen key1 key2
    if c < key1.length ∧ c < key2.length then
      if mode.forbid1 ∨ mode.forbid2 then .error .refused
      else do
        let c1 ← combining (buildCell (appendLabel (key1.drop (c + 1)) (n - c - 1) ++ rest1.bits) rest1.refs)
        let c2 ← combining (buildCell (appendLabel (key2.drop (c + 1)) (n - c - 1) ++ rest2.bits) rest2.refs)
        let fork ← combining (buildCell (appendLabel (key1.take c) n)
          (if key2.drop c |>.head? |>.getD false then [c1, c2] else [c2, c1]))
        .ok (some fork)
    else if c = key1.length ∧ c = key2.length then
      if c = n then
        match combine rest1 rest2 with
        | none => .error .refused
        | some none => .ok none
        | some (some value) => do
          let leaf ← combining (buildCell (appendLabel key1 n ++ value.bits) value.refs)
          .ok (some leaf)
      else do
        let left1 ← combining (child rest1.refs false)
        let left2 ← combining (child rest2.refs false)
        let c1 ← dictCombineWith combine fuel (some left1) (some left2) (n - c - 1) .default 0 0
        let right1 ← combining (child rest1.refs true)
        let right2 ← combining (child rest2.refs true)
        let c2 ← dictCombineWith combine fuel (some right1) (some right2) (n - c - 1) .default 0 0
        joinChildren key1 n c1 c2
    else if c = key1.length then
      if mode.forbid2 then .error .refused
      else do
        let c1 ← combining (child rest1.refs false)
        let c2 ← combining (child rest1.refs true)
        if key2.drop c |>.head? |>.getD false then do
          let c2 ← dictCombineWith combine fuel (some c2) (some dict2) (n - c - 1) mode 0 (skip2 + c + 1)
          joinChildren key1 n (some c1) c2
        else do
          let c1 ← dictCombineWith combine fuel (some c1) (some dict2) (n - c - 1) mode 0 (skip2 + c + 1)
          joinChildren key1 n c1 (some c2)
    else
      if mode.forbid1 then .error .refused
      else do
        let c1 ← combining (child rest2.refs false)
        let c2 ← combining (child rest2.refs true)
        if key1.drop c |>.head? |>.getD false then do
          let c2 ← dictCombineWith combine fuel (some dict1) (some c2) (n - c - 1) mode (skip1 + c + 1) 0
          joinChildren key2 n (some c1) c2
        else do
          let c1 ← dictCombineWith combine fuel (some dict1) (some c1) (n - c - 1) mode (skip1 + c + 1) 0
          joinChildren key2 n c1 (some c2)

namespace Trie

def label : Trie → List Bool
  | .leaf label _ => label
  | .fork label _ _ => label

def relabel (label : List Bool) : Trie → Trie
  | .leaf _ value => .leaf label value
  | .fork _ left right => .fork label left right

/-- The node below the first `k` bits of its edge. -/
def drop (k : Nat) (t : Trie) : Trie := t.relabel (t.label.drop k)

/-- The node with an edge that is longer at its upper end. -/
def extend (above : List Bool) (t : Trie) : Trie := t.relabel (above ++ t.label)

def join (label : List Bool) : Option Trie → Option Trie → Option Trie
  | none, none => none
  | some left, some right => some (.fork label left right)
  | some left, none => some (left.extend (label ++ [false]))
  | none, some right => some (right.extend (label ++ [true]))

/-- `dict_combine_with` on tries with keys of one width. -/
def combine (f : CombineFunc) : Nat → CombineMode → Trie → Trie → Option (Option Trie)
  | 0, _, _, _ => none
  | fuel + 1, mode, t1, t2 =>
    let c := commonLen t1.label t2.label
    if c < t1.label.length ∧ c < t2.label.length then
      if mode.forbid1 ∨ mode.forbid2 then none
      else some (some (branch (t1.label.take c) (t2.label.drop c |>.head? |>.getD false) (t2.drop (c + 1))
        (t1.drop (c + 1))))
    else if c = t1.label.length ∧ c = t2.label.length then
      match t1, t2 with
      | .leaf label v1, .leaf _ v2 => (f v1 v2).map fun value => value.map (.leaf label)
      | .fork label left1 right1, .fork _ left2 right2 => do
        let left ← combine f fuel .default left1 left2
        let right ← combine f fuel .default right1 right2
        some (join label left right)
      | _, _ => none
    else if c = t1.label.length then
      match t1 with
      | .fork label left right =>
        if mode.forbid2 then none
        else if t2.label.drop c |>.head? |>.getD false then do
          let right ← combine f fuel mode right (t2.drop (c + 1))
          some (join label (some left) right)
        else do
          let left ← combine f fuel mode left (t2.drop (c + 1))
          some (join label left (some right))
      | .leaf _ _ => none
    else
      match t2 with
      | .fork label left right =>
        if mode.forbid1 then none
        else if t1.label.drop c |>.head? |>.getD false then do
          let right ← combine f fuel mode (t1.drop (c + 1)) right
          some (join label (some left) right)
        else do
          let left ← combine f fuel mode (t1.drop (c + 1)) left
          some (join label left (some right))
      | .leaf _ _ => none

def lookup (t : Option Trie) (key : List Bool) : Option Slice := t.bind (·.get? key)

/-- The child of a fork on one side, after a combination of the other operand with it. -/
def joinSide (label : List Bool) (side : Bool) (left right : Trie) (changed : Option Trie) :
    Option Trie :=
  if side then join label (some left) changed else join label changed (some right)

section Edges

variable {n : Nat} {t : Trie}
variable {p l k : List Bool} {m : Nat} {a b : Option Trie} {P : Slice → Prop}

@[simp] theorem label_leaf (l : List Bool) (v : Slice) : (leaf l v).label = l := rfl

@[simp] theorem label_fork (l : List Bool) (a b : Trie) : (fork l a b).label = l := rfl

@[simp] theorem label_extend (p : List Bool) (t : Trie) : (t.extend p).label = p ++ t.label := by
  cases t <;> rfl

@[simp] theorem extend_leaf (p l : List Bool) (v : Slice) : (leaf l v).extend p = leaf (p ++ l) v := rfl

@[simp] theorem extend_fork (p l : List Bool) (a b : Trie) :
    (fork l a b).extend p = fork (p ++ l) a b := rfl

@[simp] theorem extend_nil (t : Trie) : t.extend [] = t := by
  cases t <;> rfl

theorem extend_extend (p q : List Bool) (t : Trie) : (t.extend q).extend p = t.extend (p ++ q) := by
  cases t <;> simp

@[simp] theorem drop_extend (p : List Bool) (t : Trie) : (t.extend p).drop p.length = t := by
  cases t <;> simp [drop, relabel]

theorem drop_extend_bit (p : List Bool) (b : Bool) (t : Trie) : (t.extend (p ++ [b])).drop (p.length + 1) = t := by
  simpa using drop_extend (p ++ [b]) t

theorem exists_extend {rest : List Bool} (starts : t.label = p ++ rest) : t = (t.relabel rest).extend p := by
  cases t with
  | leaf l v =>
    rw [label_leaf] at starts
    rw [starts]
    rfl
  | fork l a b =>
    rw [label_fork] at starts
    rw [starts]
    rfl

theorem WF.label_le (wf : WF n t) : t.label.length ≤ n := by
  cases wf with
  | leaf l v => exact le_rfl
  | fork l wfLeft wfRight => simp; omega

theorem WF.extend (wf : WF n t) (p : List Bool) : WF (p.length + n) (t.extend p) := by
  cases wf with
  | leaf l v =>
    rw [← List.length_append]
    exact .leaf (p ++ l) v
  | @fork m l a b wfLeft wfRight =>
    have total : p.length + (l.length + 1 + m) = (p ++ l).length + 1 + m := by simp; omega
    rw [total]
    exact .fork (p ++ l) wfLeft wfRight

theorem WF.of_extend (wf : WF n (t.extend p)) : ∃ m, n = p.length + m ∧ WF m t := by
  cases t with
  | leaf l v =>
    cases wf with
    | leaf => exact ⟨l.length, by simp, .leaf l v⟩
  | fork l a b =>
    cases wf with
    | @fork m _ _ _ wfLeft wfRight => exact ⟨l.length + 1 + m, by simp; omega, .fork l wfLeft wfRight⟩

theorem WF.children {a b : Trie} (wf : WF (l.length + 1 + m) (Trie.fork l a b)) : WF m a ∧ WF m b := by
  generalize total : l.length + 1 + m = width at wf
  cases wf with
  | @fork k _ _ _ wfLeft wfRight =>
    obtain rfl : m = k := by omega
    exact ⟨wfLeft, wfRight⟩

theorem commonLen_lt (no : ¬ l <+: k) : commonLen l k < l.length := by
  induction l generalizing k with
  | nil => exact absurd (List.nil_prefix) no
  | cons b l ih =>
    cases k with
    | nil => simp [commonLen]
    | cons c k =>
      by_cases equal : b = c
      · subst equal
        have below := ih (fun starts => no (List.cons_prefix_cons.mpr ⟨rfl, starts⟩))
        simpa [commonLen] using below
      · simp [commonLen, equal]

theorem get?_eq_none (no : ¬ t.label <+: k) : t.get? k = none := by
  cases t with
  | leaf l v =>
    have other : k ≠ l := by
      rintro rfl
      exact no (List.prefix_rfl)
    simp [get?, other]
  | fork l a b =>
    rw [label_fork] at no
    simp [get?, commonLen_lt no]

theorem get?_extend (p : List Bool) (t : Trie) (k : List Bool) : (t.extend p).get? (p ++ k) = t.get? k := by
  cases t with
  | leaf l v => simp [get?]
  | fork l a b =>
    simp [get?, commonLen_shared]

theorem get?_extend_none (no : ¬ p <+: k) : (t.extend p).get? k = none := by
  apply get?_eq_none
  rw [label_extend]
  exact fun starts => no ((List.prefix_append p t.label).trans starts)

/-- Keys of an edge that leaves a label at the bit `b`. -/
theorem get?_extend_bit (p : List Bool) (b c : Bool) (t : Trie) (k : List Bool) :
    (t.extend (p ++ [b])).get? (p ++ c :: k) = if c = b then t.get? k else none := by
  split
  · next equal =>
    subst equal
    simpa using get?_extend (p ++ [c]) t k
  · next other =>
    apply get?_extend_none
    intro starts
    have : [b] <+: c :: k := (List.prefix_append_right_inj p).mp starts
    exact other (List.cons_prefix_cons.mp this).1.symm

theorem key_cases (len : k.length = p.length + 1 + m) :
    (∃ b rest, k = p ++ b :: rest ∧ rest.length = m) ∨ ¬ p <+: k := by
  by_cases starts : p <+: k
  · obtain ⟨tail, rfl⟩ := starts
    cases tail with
    | nil => simp at len; omega
    | cons b rest => exact .inl ⟨b, rest, rfl, by simp at len; omega⟩
  · exact .inr starts

@[simp] theorem lookup_some (t : Trie) (k : List Bool) : lookup (some t) k = t.get? k := rfl

@[simp] theorem lookup_none (k : List Bool) : lookup none k = none := rfl

/-- Lookup below a joined pair of children. -/
theorem lookup_join (l : List Bool) (a b : Option Trie) (c : Bool) (k : List Bool) :
    lookup (join l a b) (l ++ c :: k) = if c then lookup b k else lookup a k := by
  cases a with
  | none =>
    cases b with
    | none => simp [join]
    | some right => cases c <;> simp [join, get?_extend_bit]
  | some left =>
    cases b with
    | none => cases c <;> simp [join, get?_extend_bit]
    | some right => cases c <;> simp [join, get?_fork_through]

theorem get?_extend_bit_none {t : Trie} {side : Bool} (no : ¬ l <+: k) : (t.extend (l ++ [side])).get? k = none :=
  get?_extend_none fun starts => no ((List.prefix_append l [side]).trans starts)

theorem lookup_join_none (no : ¬ l <+: k) (a b : Option Trie) : lookup (join l a b) k = none := by
  cases a with
  | none =>
    cases b with
    | none => rfl
    | some right => exact get?_extend_bit_none no
  | some left =>
    cases b with
    | none => exact get?_extend_bit_none no
    | some right => exact get?_eq_none no

/-- A joined pair of children is a fork, or the only child below a longer edge. -/
theorem join_cases {Q R : Trie → Prop} (one : ∀ c t, Q t → R (t.extend (l ++ [c])))
    (both : ∀ x y, Q x → Q y → R (fork l x y)) (left : ∀ t ∈ a, Q t) (right : ∀ t ∈ b, Q t) :
    ∀ t ∈ join l a b, R t := by
  intro t member
  cases a with
  | none =>
    cases b with
    | none => cases member
    | some y =>
      cases member
      exact one true y (right y rfl)
  | some x =>
    cases b with
    | none =>
      cases member
      exact one false x (left x rfl)
    | some y =>
      cases member
      exact both x y (left x rfl) (right y rfl)

theorem join_wf (l : List Bool) :
    (∀ t ∈ a, WF m t) → (∀ t ∈ b, WF m t) → ∀ t ∈ join l a b, WF (l.length + 1 + m) t :=
  join_cases (fun c _ wf => by simpa using wf.extend (l ++ [c])) (fun _ _ wfLeft wfRight => .fork l wfLeft wfRight)

theorem All.extend (all : t.All P) (p : List Bool) : (t.extend p).All P := by
  cases t with
  | leaf l v | fork l a b => exact all

theorem All.of_extend (all : (t.extend p).All P) : t.All P := by
  cases t with
  | leaf l v | fork l a b => exact all

theorem join_all (l : List Bool) :
    (∀ t ∈ a, t.All P) → (∀ t ∈ b, t.All P) → ∀ t ∈ join l a b, t.All P :=
  join_cases (fun _ _ all => all.extend _) (fun _ _ allLeft allRight => ⟨allLeft, allRight⟩)

/-- Two labels leave each other at a bit, are equal, or one runs on below the other. -/
theorem labels_cases (l1 l2 : List Bool) :
    (∃ p b r1 r2, l1 = p ++ b :: r1 ∧ l2 = p ++ (!b) :: r2) ∨ l1 = l2 ∨
      (∃ b r, l2 = l1 ++ b :: r) ∨ ∃ b r, l1 = l2 ++ b :: r := by
  rcases Nat.le_total l1.length l2.length with le | le
  · rcases label_cases l1 l2 le with ⟨rest, rfl⟩ | ⟨p, b, r1, r2, rfl, rfl⟩
    · cases rest with
      | nil => exact .inr (.inl (List.append_nil l1).symm)
      | cons b r => exact .inr (.inr (.inl ⟨b, r, rfl⟩))
    · exact .inl ⟨p, b, r1, r2, rfl, rfl⟩
  · rcases label_cases l2 l1 le with ⟨rest, rfl⟩ | ⟨p, b, r2, r1, rfl, rfl⟩
    · cases rest with
      | nil => exact .inr (.inl (List.append_nil l2))
      | cons b r => exact .inr (.inr (.inr ⟨b, r, rfl⟩))
    · exact .inl ⟨p, !b, r1, r2, rfl, by simp⟩

/-- What all keys on both sides of a fork start with ends above it. -/
theorem prefix_of_sides (starts : ∀ c, ∃ k, p <+: l ++ c :: k) : p <+: l := by
  obtain ⟨k0, left⟩ := starts false
  obtain ⟨k1, right⟩ := starts true
  rcases List.prefix_or_prefix_of_prefix left (List.prefix_append l _) with done | ⟨rest, rfl⟩
  · exact done
  rw [List.prefix_append_right_inj] at left right
  cases rest with
  | nil => simp
  | cons c rest =>
    rw [List.cons_prefix_cons] at left right
    cases left.1.symm.trans right.1

/-- How two tries of one width lie to each other; the recursion of `dict_combine_with`. -/
inductive Pair : Nat → Trie → Trie → Prop
  | diverge {m : Nat} (p : List Bool) (b : Bool) {t1 t2 : Trie} (wf1 : WF m t1) (wf2 : WF m t2) :
    Pair (p.length + 1 + m) (t1.extend (p ++ [b])) (t2.extend (p ++ [!b]))
  | leaves (l : List Bool) (v1 v2 : Slice) : Pair l.length (leaf l v1) (leaf l v2)
  | forks {m : Nat} (l : List Bool) {a1 b1 a2 b2 : Trie} (lefts : Pair m a1 a2) (rights : Pair m b1 b2) :
    Pair (l.length + 1 + m) (fork l a1 b1) (fork l a2 b2)
  | below1 {m : Nat} (l : List Bool) (side : Bool) {a b t2 : Trie} (wfLeft : WF m a) (wfRight : WF m b)
    (inner : Pair m (if side then b else a) t2) :
    Pair (l.length + 1 + m) (fork l a b) (t2.extend (l ++ [side]))
  | below2 {m : Nat} (l : List Bool) (side : Bool) {t1 a b : Trie} (wfLeft : WF m a) (wfRight : WF m b)
    (inner : Pair m t1 (if side then b else a)) :
    Pair (l.length + 1 + m) (t1.extend (l ++ [side])) (fork l a b)

variable {t1 t2 : Trie}

theorem extend_bit {t : Trie} {p r : List Bool} {b : Bool} (starts : t.label = p ++ b :: r)
    (wf : WF n t) : ∃ u m, t = u.extend (p ++ [b]) ∧ n = p.length + 1 + m ∧ WF m u := by
  have shape : t = (t.relabel r).extend (p ++ [b]) := exists_extend (by simpa using starts)
  rw [shape] at wf
  obtain ⟨m, total, inner⟩ := wf.of_extend
  exact ⟨t.relabel r, m, shape, by simpa using total, inner⟩

theorem WF.of_extend_bit {t : Trie} {l : List Bool} {c : Bool} {m : Nat} (wf : WF (l.length + 1 + m) (t.extend (l ++ [c]))) :
    WF m t := by
  obtain ⟨m', total, inner⟩ := wf.of_extend
  obtain rfl : m = m' := by simp at total; omega
  exact inner

theorem WF.side {m : Nat} {a b : Trie} (wfLeft : WF m a) (wfRight : WF m b) (side : Bool) :
    WF m (if side then b else a) := by
  cases side with
  | true => exact wfRight
  | false => exact wfLeft

theorem WF.pair (wf1 : WF n t1) (wf2 : WF n t2) : Pair n t1 t2 := by
  induction n using Nat.strong_induction_on generalizing t1 t2 with
  | _ n ih =>
    rcases labels_cases t1.label t2.label with
      ⟨p, b, r1, r2, same1, same2⟩ | same | ⟨b, r, longer⟩ | ⟨b, r, longer⟩
    · obtain ⟨u1, m, rfl, rfl, inner1⟩ := extend_bit same1 wf1
      obtain ⟨u2, m2, rfl, total, inner2⟩ := extend_bit same2 wf2
      obtain rfl : m = m2 := by omega
      exact .diverge p b inner1 inner2
    · -- equal labels end both edges at the same depth
      cases wf1 with
      | leaf l v1 =>
        generalize width : l.length = n at wf2
        cases wf2 with
        | leaf l2 v2 =>
          obtain rfl : l = l2 := same
          exact .leaves l v1 v2
        | fork l2 => simp at same; subst same; omega
      | @fork m l a1 b1 wfLeft1 wfRight1 =>
        generalize width : l.length + 1 + m = n at wf2
        cases wf2 with
        | leaf l2 v2 => simp at same; subst same; omega
        | @fork m2 l2 a2 b2 wfLeft2 wfRight2 =>
          obtain rfl : l = l2 := same
          obtain rfl : m = m2 := by omega
          exact .forks l (ih m (by omega) wfLeft1 wfLeft2) (ih m (by omega) wfRight1 wfRight2)
    · obtain ⟨u2, m, rfl, rfl, inner2⟩ := extend_bit longer wf2
      generalize width : t1.label.length + 1 + m = n at wf1
      cases wf1 with
      | leaf l v1 => simp at width; omega
      | @fork m1 l a1 b1 wfLeft wfRight =>
        rw [label_fork] at width
        obtain rfl : m1 = m := by omega
        exact .below1 l b wfLeft wfRight (ih m1 (by simp) (wfLeft.side wfRight b) inner2)
    · obtain ⟨u1, m, rfl, rfl, inner1⟩ := extend_bit longer wf1
      generalize width : t2.label.length + 1 + m = n at wf2
      cases wf2 with
      | leaf l v1 => simp at width; omega
      | @fork m2 l a2 b2 wfLeft wfRight =>
        rw [label_fork] at width
        obtain rfl : m2 = m := by omega
        exact .below2 l b wfLeft wfRight (ih m2 (by simp) inner1 (wfLeft.side wfRight b))

end Edges

section Steps

variable (f : CombineFunc) (fuel : Nat) (mode : CombineMode)

theorem commonLen_longer (l rest : List Bool) : commonLen (l ++ rest) l = l.length := by
  have := commonLen_shared l rest []
  rw [List.append_nil] at this
  rw [this]
  cases rest <;> simp [commonLen]

theorem combine_diverge (p : List Bool) (b : Bool) (t1 t2 : Trie) :
    combine f (fuel + 1) mode (t1.extend (p ++ [b])) (t2.extend (p ++ [!b])) =
      if mode.forbid1 ∨ mode.forbid2 then none else some (some (branch p (!b) t2 t1)) := by
  have common : commonLen (t1.extend (p ++ [b])).label (t2.extend (p ++ [!b])).label = p.length := by
    simpa using commonLen_diverge p b t1.label t2.label
  simp only [combine, common, drop_extend_bit]
  simp

variable (l : List Bool)
include l

theorem combine_leaves (v1 v2 : Slice) :
    combine f (fuel + 1) mode (leaf l v1) (leaf l v2) = (f v1 v2).map fun value => value.map (leaf l) := by
  simp [combine, commonLen_self]

theorem combine_forks (a1 b1 a2 b2 : Trie) :
    combine f (fuel + 1) mode (fork l a1 b1) (fork l a2 b2) =
      (combine f fuel .default a1 a2).bind fun left =>
        (combine f fuel .default b1 b2).bind fun right => some (join l left right) := by
  simp [combine, commonLen_self]

theorem combine_below1 (side : Bool) (a b t2 : Trie) :
    combine f (fuel + 1) mode (fork l a b) (t2.extend (l ++ [side])) =
      if mode.forbid2 then none
      else (combine f fuel mode (if side then b else a) t2).bind fun changed =>
        some (joinSide l side a b changed) := by
  have common : commonLen (fork l a b).label (t2.extend (l ++ [side])).label = l.length := by
    simpa using commonLen_append l (side :: t2.label)
  simp only [combine, common, drop_extend_bit]
  cases side <;> simp [joinSide]

theorem combine_below2 (side : Bool) (t1 a b : Trie) :
    combine f (fuel + 1) mode (t1.extend (l ++ [side])) (fork l a b) =
      if mode.forbid1 then none
      else (combine f fuel mode t1 (if side then b else a)).bind fun changed =>
        some (joinSide l side a b changed) := by
  have common : commonLen (t1.extend (l ++ [side])).label (fork l a b).label = l.length := by
    simpa using commonLen_longer l (side :: t1.label)
  simp only [combine, common, drop_extend_bit]
  cases side <;> simp [joinSide]

end Steps

section Meaning

variable {f : CombineFunc} {n fuel : Nat} {t1 t2 : Trie}
variable {l k : List Bool} {a b : Trie} {mode : CombineMode} {r changed : Option Trie} {P : Slice → Prop}

/-- The values under one key in a union. -/
def merged (f : CombineFunc) : Option Slice → Option Slice → Option Slice
  | some v1, some v2 => (f v1 v2).getD none
  | some v1, none => some v1
  | none, v2 => v2

/-- No pair of values under one key is refused. -/
def Agree (f : CombineFunc) (t1 t2 : Trie) : Prop :=
  ∀ k v1 v2, t1.get? k = some v1 → t2.get? k = some v2 → f v1 v2 ≠ none

/-- Everywhere the second trie ends or forks, the first one has keys. -/
def Reaches (t1 : Trie) : Trie → Prop
  | .leaf l _ => (t1.get? l).isSome
  | .fork l _ _ => ∀ b, ∃ k, (t1.get? (l ++ b :: k)).isSome

theorem get?_side (a b : Trie) (l k : List Bool) (side : Bool) :
    (fork l a b).get? (l ++ side :: k) = (if side then b else a).get? k := by
  rw [get?_fork_through]
  cases side <;> rfl

theorem WF.exists_key (wf : WF n t1) : ∃ k, k.length = n ∧ (t1.get? k).isSome := by
  induction wf with
  | leaf l v => exact ⟨l, rfl, by simp [get?]⟩
  | fork l _ _ ihLeft ihRight =>
    obtain ⟨k, len, found⟩ := ihLeft
    exact ⟨l ++ false :: k, by simp; omega, by simpa [get?_fork_through] using found⟩

/-- A fork has keys on both sides. -/
theorem WF.exists_side (wf : WF n (Trie.fork l a b)) (c : Bool) :
    ∃ k, ((Trie.fork l a b).get? (l ++ c :: k)).isSome := by
  cases wf with
  | fork l wfLeft wfRight =>
    obtain ⟨k, -, found⟩ := (wfLeft.side wfRight c).exists_key
    exact ⟨k, by rwa [get?_side]⟩

theorem get?_of_isSome (found : (t1.get? k).isSome) : t1.label <+: k := by
  by_contra no
  rw [get?_eq_none no] at found
  cases found

theorem lookup_joinSide (l : List Bool) (side : Bool) (a b : Trie) (changed : Option Trie) (c : Bool)
    (k : List Bool) : lookup (joinSide l side a b changed) (l ++ c :: k) =
      if c = side then lookup changed k else (if c then b else a).get? k := by
  cases side with
  | true | false => cases c <;> simp [joinSide, lookup_join]

theorem lookup_joinSide_none (no : ¬ l <+: k) (side : Bool) (a b : Trie) (changed : Option Trie) :
    lookup (joinSide l side a b changed) k = none := by
  unfold joinSide
  split
  · exact lookup_join_none no _ _
  · exact lookup_join_none no _ _

/-- Only the side of a fork on which the other operand lies is combined with it. -/
theorem lookup_joinSide_eq {m : Nat} {side : Bool} {t : Trie} {g : Option Slice → Option Slice → Option Slice}
    (alone : ∀ v, g v none = v) (len : k.length = l.length + 1 + m)
    (inner : ∀ rest, rest.length = m → lookup changed rest = g ((if side then b else a).get? rest) (t.get? rest)) :
    lookup (joinSide l side a b changed) k = g ((fork l a b).get? k) ((t.extend (l ++ [side])).get? k) := by
  rcases key_cases len with ⟨c, rest, rfl, below⟩ | no
  · rw [lookup_joinSide, get?_side, get?_extend_bit]
    by_cases equal : c = side
    · subst equal
      simpa using inner rest below
    · rw [if_neg equal, if_neg equal, alone]
  · rw [lookup_joinSide_none no, get?_eq_none (t := fork l a b) no,
      get?_extend_bit_none no, alone]

/-- The union has under every key what the operands have under it. -/
theorem combine_union (pair : Pair n t1 t2) (enough : n < fuel) (agree : Agree f t1 t2) :
    ∃ r, combine f fuel .default t1 t2 = some r ∧
      ∀ k, k.length = n → lookup r k = merged f (t1.get? k) (t2.get? k) := by
  induction pair generalizing fuel with
  | @diverge m p b t1 t2 =>
    obtain ⟨fuel, rfl⟩ := exists_fuel enough
    refine ⟨some (branch p (!b) t2 t1), by simp [combine_diverge], ?_⟩
    intro k len
    rcases key_cases len with ⟨c, rest, rfl, -⟩ | no
    · rw [get?_extend_bit, get?_extend_bit]
      cases b <;> cases c <;> simp [lookup, branch, get?_fork_through, merged]
      · cases t1.get? rest <;> rfl
      · cases t1.get? rest <;> rfl
    · rw [get?_extend_bit_none no, get?_extend_bit_none no]
      have outside : (branch p (!b) t2 t1).get? k = none := by
        apply get?_eq_none
        cases b <;> simpa [branch] using no
      simpa [merged] using outside
  | leaves l v1 v2 =>
    obtain ⟨fuel, rfl⟩ := exists_fuel enough
    have fine : f v1 v2 ≠ none := agree l v1 v2 (by simp [get?]) (by simp [get?])
    obtain ⟨value, computed⟩ := Option.ne_none_iff_exists'.mp fine
    refine ⟨value.map (leaf l), by simp [combine_leaves, computed], ?_⟩
    intro k len
    by_cases equal : k = l
    · subst equal
      cases value <;> simp [get?, merged, computed]
    · cases value <;> simp [get?, merged, equal]
  | @forks m l a1 b1 a2 b2 _ _ ihLeft ihRight =>
    obtain ⟨fuel, rfl⟩ := exists_fuel enough
    have children (c : Bool) : Agree f (if c then b1 else a1) (if c then b2 else a2) := fun k v1 v2 found1 found2 =>
      agree (l ++ c :: k) v1 v2 (by rwa [get?_side]) (by rwa [get?_side])
    obtain ⟨left, doneLeft, unionLeft⟩ := ihLeft (by omega : m < fuel) (children false)
    obtain ⟨right, doneRight, unionRight⟩ := ihRight (by omega : m < fuel) (children true)
    refine ⟨join l left right, by simp [combine_forks, doneLeft, doneRight], ?_⟩
    intro k len
    rcases key_cases len with ⟨c, rest, rfl, below⟩ | no
    · rw [lookup_join, get?_fork_through, get?_fork_through]
      cases c with
      | true => simpa using unionRight rest below
      | false => simpa using unionLeft rest below
    · rw [lookup_join_none no, get?_eq_none (t := fork l a1 b1) no, get?_eq_none (t := fork l a2 b2) no]
      rfl
  | @below1 m l side a b t2 _ _ _ ih =>
    obtain ⟨fuel, rfl⟩ := exists_fuel enough
    obtain ⟨changed, done, union⟩ := ih (by omega : m < fuel) (fun k v1 v2 found1 found2 =>
      agree (l ++ side :: k) v1 v2 (by rwa [get?_side]) (by rwa [get?_extend_bit, if_pos rfl]))
    refine ⟨joinSide l side a b changed, by simp [combine_below1, done], ?_⟩
    intro k len
    exact lookup_joinSide_eq (fun v => by cases v <;> rfl) len union
  | @below2 m l side t1 a b _ _ _ ih =>
    obtain ⟨fuel, rfl⟩ := exists_fuel enough
    obtain ⟨changed, done, union⟩ := ih (by omega : m < fuel) (fun k v1 v2 found1 found2 =>
      agree (l ++ side :: k) v1 v2 (by rwa [get?_extend_bit, if_pos rfl]) (by rwa [get?_side]))
    refine ⟨joinSide l side a b changed, by simp [combine_below2, done], ?_⟩
    intro k len
    exact lookup_joinSide_eq (g := fun v2 v1 => merged f v1 v2) (fun _ => rfl) len union

theorem exists_fuel_of_combine (done : combine f fuel mode t1 t2 = some r) : ∃ k, fuel = k + 1 := by
  cases fuel with
  | zero => cases done
  | succ k => exact ⟨k, rfl⟩

/-- What a combination that goes through has done. -/
inductive Combines (f : CombineFunc) : Nat → Trie → Trie → Option Trie → Prop
  | diverge {m : Nat} (p : List Bool) (b : Bool) {t1 t2 : Trie} (wf1 : WF m t1) (wf2 : WF m t2) :
    Combines f (p.length + 1 + m) (t1.extend (p ++ [b])) (t2.extend (p ++ [!b])) (some (branch p (!b) t2 t1))
  | leaves (l : List Bool) {v1 v2 : Slice} {value : Option Slice} (computed : f v1 v2 = some value) :
    Combines f l.length (leaf l v1) (leaf l v2) (value.map (leaf l))
  | forks {m : Nat} (l : List Bool) {a1 b1 a2 b2 : Trie} {left right : Option Trie} (lefts : Combines f m a1 a2 left)
    (rights : Combines f m b1 b2 right) :
    Combines f (l.length + 1 + m) (fork l a1 b1) (fork l a2 b2) (join l left right)
  | below1 {m : Nat} (l : List Bool) (side : Bool) {a b t2 : Trie} {changed : Option Trie} (wfLeft : WF m a)
    (wfRight : WF m b) (inner : Combines f m (if side then b else a) t2 changed) :
    Combines f (l.length + 1 + m) (fork l a b) (t2.extend (l ++ [side])) (joinSide l side a b changed)
  | below2 {m : Nat} (l : List Bool) (side : Bool) {t1 a b : Trie} {changed : Option Trie} (wfLeft : WF m a)
    (wfRight : WF m b) (inner : Combines f m t1 (if side then b else a) changed) :
    Combines f (l.length + 1 + m) (t1.extend (l ++ [side])) (fork l a b) (joinSide l side a b changed)

theorem Pair.combines (pair : Pair n t1 t2) (done : combine f fuel mode t1 t2 = some r) : Combines f n t1 t2 r := by
  induction pair generalizing fuel mode r with
  | diverge p b wf1 wf2 =>
    obtain ⟨fuel, rfl⟩ := exists_fuel_of_combine done
    rw [combine_diverge] at done
    split at done
    · cases done
    · cases done
      exact .diverge p b wf1 wf2
  | leaves l v1 v2 =>
    obtain ⟨fuel, rfl⟩ := exists_fuel_of_combine done
    rw [combine_leaves] at done
    obtain ⟨value, computed, rfl⟩ := Option.map_eq_some_iff.mp done
    exact .leaves l computed
  | forks l _ _ ihLeft ihRight =>
    obtain ⟨fuel, rfl⟩ := exists_fuel_of_combine done
    rw [combine_forks] at done
    obtain ⟨left, doneLeft, rest⟩ := Option.bind_eq_some_iff.mp done
    obtain ⟨right, doneRight, joined⟩ := Option.bind_eq_some_iff.mp rest
    cases joined
    exact .forks l (ihLeft doneLeft) (ihRight doneRight)
  | below1 l side wfLeft wfRight _ ih =>
    obtain ⟨fuel, rfl⟩ := exists_fuel_of_combine done
    rw [combine_below1] at done
    split at done
    · cases done
    obtain ⟨changed, doneInner, joined⟩ := Option.bind_eq_some_iff.mp done
    cases joined
    exact .below1 l side wfLeft wfRight (ih doneInner)
  | below2 l side wfLeft wfRight _ ih =>
    obtain ⟨fuel, rfl⟩ := exists_fuel_of_combine done
    rw [combine_below2] at done
    split at done
    · cases done
    obtain ⟨changed, doneInner, joined⟩ := Option.bind_eq_some_iff.mp done
    cases joined
    exact .below2 l side wfLeft wfRight (ih doneInner)

theorem get?_extend_some {v : Slice} {side : Bool} {t : Trie} (found : (t.extend (l ++ [side])).get? k = some v) :
    ∃ tail, k = l ++ side :: tail ∧ t.get? tail = some v := by
  by_cases starts : l ++ [side] <+: k
  · obtain ⟨tail, rfl⟩ := starts
    rw [get?_extend] at found
    exact ⟨tail, by simp, found⟩
  · rw [get?_extend_none starts] at found
    cases found

/-- A combination that goes through has refused no pair of values. -/
theorem Combines.agree (done : Combines f n t1 t2 r) : Agree f t1 t2 := by
  induction done with
  | diverge p b =>
    intro k v1 v2 found1 found2
    obtain ⟨tail, rfl, -⟩ := get?_extend_some found1
    rw [get?_extend_bit, if_neg (by cases b <;> simp)] at found2
    cases found2
  | leaves l computed =>
    intro k w1 w2 found1 found2 refused
    obtain ⟨rfl, rfl⟩ : k = l ∧ _ = w1 := by simpa [get?] using found1
    obtain rfl : _ = w2 := by simpa [get?] using found2
    rw [computed] at refused
    cases refused
  | forks l _ _ ihLeft ihRight =>
    intro k v1 v2 found1 found2
    obtain ⟨tail, rfl⟩ : l <+: k := get?_of_isSome (Option.isSome_iff_exists.mpr ⟨v1, found1⟩)
    cases tail with
    | nil => simp [get?] at found1
    | cons c rest =>
      rw [get?_fork_through] at found1 found2
      cases c with
      | true => exact ihRight rest v1 v2 found1 found2
      | false => exact ihLeft rest v1 v2 found1 found2
  | below1 l side _ _ _ ih =>
    intro k v1 v2 found1 found2
    obtain ⟨tail, rfl, below⟩ := get?_extend_some found2
    rw [get?_side] at found1
    exact ih tail v1 v2 found1 below
  | below2 l side _ _ _ ih =>
    intro k v1 v2 found1 found2
    obtain ⟨tail, rfl, below⟩ := get?_extend_some found1
    rw [get?_side] at found2
    exact ih tail v1 v2 below found2

/-- Below a bit of the first trie the second one is reached on the same side. -/
theorem reaches_below1 (l : List Bool) (side : Bool) (a b t2 : Trie) :
    Reaches (fork l a b) (t2.extend (l ++ [side])) ↔ Reaches (if side then b else a) t2 := by
  cases t2 with
  | leaf l2 v | fork l2 a2 b2 =>
    simp [Reaches, get?_side]

theorem not_reaches_diverge (p : List Bool) (b : Bool) (t1 t2 : Trie) :
    ¬ Reaches (t1.extend (p ++ [b])) (t2.extend (p ++ [!b])) := by
  have nowhere (k : List Bool) : (t1.extend (p ++ [b])).get? (p ++ (!b) :: k) = none := by
    rw [get?_extend_bit, if_neg (by cases b <;> simp)]
  cases t2 with
  | leaf l v | fork l a2 b2 =>
    simp [Reaches, nowhere]

theorem not_reaches_below2 (l : List Bool) (side : Bool) (t1 a b : Trie) :
    ¬ Reaches (t1.extend (l ++ [side])) (fork l a b) := by
  intro reached
  obtain ⟨k, found⟩ := reached (!side)
  rw [get?_extend_bit, if_neg (by cases side <;> simp)] at found
  cases found

/-- A subtraction goes on as a union once every node of the second trie above the first
common fork is reached; below that fork the mode is lost. -/
theorem combine_strict_of_reaches (pair : Pair n t1 t2) (reached : Reaches t1 t2) :
    combine f fuel .strict t1 t2 = combine f fuel .default t1 t2 := by
  induction pair generalizing fuel with
  | diverge p b => exact absurd reached (not_reaches_diverge p b _ _)
  | leaves l v1 v2 =>
    cases fuel with
    | zero => rfl
    | succ fuel => rw [combine_leaves, combine_leaves]
  | forks l =>
    cases fuel with
    | zero => rfl
    | succ fuel => rw [combine_forks, combine_forks]
  | below1 l side _ _ _ ih =>
    cases fuel with
    | zero => rfl
    | succ fuel =>
      rw [combine_below1, combine_below1, ih ((reaches_below1 ..).mp reached)]
      simp
  | below2 l side => exact absurd reached (not_reaches_below2 l side _ _ _)

theorem combine_strict_of_not_reaches (wf : WF n t1) (pair : Pair n t1 t2) (missed : ¬ Reaches t1 t2) :
    combine f fuel .strict t1 t2 = none := by
  induction pair generalizing fuel with
  | diverge p b =>
    cases fuel with
    | zero => rfl
    | succ fuel => simp [combine_diverge]
  | leaves l v1 v2 => exact absurd (by simp [Reaches, get?]) missed
  | forks l => exact absurd (fun c => wf.exists_side c) missed
  | below1 l side wfLeft wfRight _ ih =>
    cases fuel with
    | zero => rfl
    | succ fuel =>
      have deeper := mt (reaches_below1 ..).mpr missed
      rw [combine_below1, ih (wfLeft.side wfRight side) deeper]
      simp
  | below2 l side =>
    cases fuel with
    | zero => rfl
    | succ fuel => simp [combine_below2]

theorem joinSide_wf {m : Nat} (l : List Bool) (side : Bool) (wfLeft : WF m a) (wfRight : WF m b)
    (wf : ∀ t ∈ changed, WF m t) :
    ∀ t ∈ joinSide l side a b changed, WF (l.length + 1 + m) t := by
  unfold joinSide
  split
  · exact join_wf l (by rintro t ⟨⟩; exact wfLeft) wf
  · exact join_wf l wf (by rintro t ⟨⟩; exact wfRight)

theorem Combines.wf (done : Combines f n t1 t2 r) : ∀ t ∈ r, WF n t := by
  induction done with
  | diverge p b wf1 wf2 =>
    rintro t ⟨⟩
    exact .branch p (!b) wf2 wf1
  | leaves l =>
    intro t member
    obtain ⟨v, -, rfl⟩ := Option.map_eq_some_iff.mp member
    exact .leaf l v
  | forks l _ _ ihLeft ihRight => exact join_wf l ihLeft ihRight
  | below1 l side wfLeft wfRight _ ih | below2 l side wfLeft wfRight _ ih =>
    exact joinSide_wf l side wfLeft wfRight ih

theorem joinSide_all (l : List Bool) (side : Bool) (all : (fork l a b).All P) (allChanged : ∀ t ∈ changed, t.All P) :
    ∀ t ∈ joinSide l side a b changed, t.All P := by
  unfold joinSide
  split
  · exact join_all l (by rintro t ⟨⟩; exact all.1) allChanged
  · exact join_all l allChanged (by rintro t ⟨⟩; exact all.2)

theorem All.side (all : (fork l a b).All P) (side : Bool) : (if side then b else a).All P := by
  cases side with
  | true => exact all.2
  | false => exact all.1

/-- The values of a combination come from the operands and from `f`. -/
theorem Combines.all (done : Combines f n t1 t2 r) (keeps : ∀ v1 v2 v, P v1 → P v2 → f v1 v2 = some (some v) → P v)
    (all1 : t1.All P) (all2 : t2.All P) : ∀ t ∈ r, t.All P := by
  induction done with
  | diverge p b =>
    rintro t ⟨⟩
    exact .branch p (!b) all2.of_extend all1.of_extend
  | leaves l computed =>
    intro t member
    obtain ⟨v, rfl, rfl⟩ := Option.map_eq_some_iff.mp member
    exact keeps _ _ v all1 all2 computed
  | forks l _ _ ihLeft ihRight => exact join_all l (ihLeft all1.1 all2.1) (ihRight all1.2 all2.2)
  | below1 l side _ _ _ ih => exact joinSide_all l side all1 (ih (all1.side side) all2.of_extend)
  | below2 l side _ _ _ ih => exact joinSide_all l side all2 (ih all1.of_extend (all2.side side))

theorem WF.length_of_get? (wf : WF n t1) (found : (t1.get? k).isSome) : k.length = n := by
  induction wf generalizing k with
  | leaf l v =>
    by_cases equal : k = l
    · rw [equal]
    · simp [get?, equal] at found
  | @fork m l a b _ _ ihLeft ihRight =>
    obtain ⟨tail, rfl⟩ : l <+: k := get?_of_isSome found
    cases tail with
    | nil => simp [get?] at found
    | cons c rest =>
      have below : rest.length = m := by
        rw [get?_side] at found
        cases c with
        | true => exact ihRight found
        | false => exact ihLeft found
      simp
      omega

theorem reaches_of_keys (wf : WF n t2) (keys : ∀ k, (t2.get? k).isSome → (t1.get? k).isSome) : Reaches t1 t2 := by
  cases t2 with
  | leaf l v => exact keys l (by simp [get?])
  | fork l a b =>
    intro c
    obtain ⟨k, found⟩ := wf.exists_side c
    exact ⟨k, keys _ found⟩

/-- A trie whose keys part for the first time behind `p` is a fork with the label `p`. -/
theorem fork_of_parting {p : List Bool} (wf : WF n t1) (under : ∀ k, (t1.get? k).isSome → p <+: k)
    (sides : ∀ c, ∃ k, (t1.get? (p ++ c :: k)).isSome) : ∃ a b, t1 = fork p a b := by
  cases t1 with
  | leaf l v =>
    have only (c : Bool) : ∃ k, p ++ c :: k = l := by
      obtain ⟨k, found⟩ := sides c
      exact ⟨k, by simpa [get?] using found⟩
    obtain ⟨k0, left⟩ := only false
    obtain ⟨k1, right⟩ := only true
    have impossible := left.trans right.symm
    simp at impossible
  | fork l a b =>
    have above : p <+: l := prefix_of_sides fun c => (wf.exists_side c).imp fun _ found => under _ found
    have below : l <+: p := prefix_of_sides fun c => (sides c).imp fun k found =>
      show (fork l a b).label <+: p ++ c :: k from get?_of_isSome found
    exact ⟨a, b, by rw [above.eq_of_length_le below.length_le]⟩

/-- A trie is determined by its values. -/
theorem Pair.ext (pair : Pair n t1 t2) (same : ∀ k, k.length = n → t1.get? k = t2.get? k) : t1 = t2 := by
  induction pair with
  | @diverge m p b t1 t2 wf1 =>
    obtain ⟨k, len, found⟩ := wf1.exists_key
    have equal := same (p ++ b :: k) (by simp; omega)
    rw [get?_extend_bit, get?_extend_bit, if_pos rfl, if_neg (by cases b <;> simp)] at equal
    rw [equal] at found
    cases found
  | leaves l v1 v2 =>
    have equal := same l rfl
    simp only [get?, if_true, Option.some.injEq] at equal
    rw [equal]
  | @forks m l a1 b1 a2 b2 _ _ ihLeft ihRight =>
    have children (c : Bool) (k : List Bool) (len : k.length = m) :
        (if c then b1 else a1).get? k = (if c then b2 else a2).get? k := by
      have equal := same (l ++ c :: k) (by simp; omega)
      rwa [get?_side, get?_side] at equal
    rw [ihLeft (children false), ihRight (children true)]
  | @below1 m l side a b t2 wfLeft wfRight inner ih =>
    obtain ⟨k, len, found⟩ := (wfLeft.side wfRight (!side)).exists_key
    have equal := same (l ++ (!side) :: k) (by simp; omega)
    rw [get?_side, get?_extend_bit, if_neg (show ¬ (!side) = side by cases side <;> simp)] at equal
    rw [equal] at found
    cases found
  | @below2 m l side t1 a b wfLeft wfRight inner ih =>
    obtain ⟨k, len, found⟩ := (wfLeft.side wfRight (!side)).exists_key
    have equal := same (l ++ (!side) :: k) (by simp; omega)
    rw [get?_side, get?_extend_bit, if_neg (show ¬ (!side) = side by cases side <;> simp)] at equal
    rw [← equal] at found
    cases found

end Meaning

end Trie

end Tvm.Hashmap
