import TonStaking.Tvm.HashmapCombine
import TonStaking.Tvm.HashmapReads

/-!
# Extreme and nearest keys of a dictionary

`dict_lookup_minmax` and `dict_lookup_nearest` (1205-1265) of `crypto/vm/dict.cpp`.
The mode word gives a direction for every bit of a key: its lowest bit belongs to
the first bit of the key, all others to the rest. Of two keys the one with the
bit of the mode, where they differ first, is the further one; the four modes in
use are the two directions of the unsigned and of the signed order. What a
search returns is right in any cell; in a dictionary it always returns.
-/
namespace Tvm.Hashmap

section Direction

/-- `b` is further than `a` in the direction of the mode. -/
def Further (m : Mode) : List Bool → List Bool → Prop
  | a :: as, b :: bs => if a = b then Further m.shift as bs else b = m.first
  | _, _ => False

/-- The mode below a label. -/
def Mode.after (m : Mode) (label : List Bool) : Mode := if label = [] then m else m.shift

theorem Mode.flip_shift (m : Mode) : m.flip.shift = m.shift.flip := rfl

theorem Mode.after_first (m : Mode) (label : List Bool) :
    (m.after label).first = if label.length = 0 then m.first else m.others := by
  cases label <;> rfl

variable {m : Mode}

theorem further_cons (b : Bool) (x y : List Bool) : Further m (b :: x) (b :: y) ↔ Further m.shift x y := by
  simp [Further]

theorem further_append (p x y : List Bool) : Further m (p ++ x) (p ++ y) ↔ Further (m.after p) x y := by
  induction p generalizing m with
  | nil => rfl
  | cons b p ih =>
    rw [List.cons_append, List.cons_append, further_cons, ih]
    cases p <;> rfl

theorem further_bit (p : List Bool) {b c : Bool} (differ : b ≠ c) (x y : List Bool) :
    Further m (p ++ b :: x) (p ++ c :: y) ↔ c = (m.after p).first := by
  rw [further_append, Further, if_neg differ]

theorem further_side (p : List Bool) (b : Bool) (x y : List Bool) :
    Further m (p ++ b :: x) (p ++ b :: y) ↔ Further (m.after p).shift x y := by
  rw [further_append, further_cons]

theorem further_flip (x y : List Bool) : Further m.flip x y ↔ Further m y x := by
  induction x generalizing m y with
  | nil => cases y <;> simp [Further]
  | cons b x ih =>
    cases y with
    | nil => simp [Further]
    | cons c y =>
      by_cases equal : b = c
      · rw [equal, further_cons, further_cons, Mode.flip_shift, ih]
      · rw [Further, Further, if_neg equal, if_neg (Ne.symm equal), Mode.flip]
        cases b <;> cases c <;> cases m.first <;> simp_all

theorem not_further_self (x : List Bool) : ¬ Further m x x := by
  induction x generalizing m with
  | nil => simp [Further]
  | cons b x ih =>
    rw [further_cons]
    exact ih

end Direction

section Keys

variable {allowEq : Bool} {m : Mode} {f : List Bool → Option Slice} {g : Bool → List Bool → Option Slice}
  {label key : List Bool}

/-- `k` is the key that is furthest in the direction of the mode, for the entries `f`. -/
def Furthest (m : Mode) (f : List Bool → Option Slice) (k : List Bool) : Prop :=
  (f k).isSome ∧ ∀ k', (f k').isSome → k' ≠ k → Further m k' k

/-- The keys that a search from `key` may return. -/
def Beyond (allowEq : Bool) (m : Mode) (key k : List Bool) : Prop :=
  Further m key k ∨ (allowEq = true ∧ k = key)

/-- `k` is the first key beyond `key`. -/
def Nearest (allowEq : Bool) (m : Mode) (f : List Bool → Option Slice) (key k : List Bool) : Prop :=
  (f k).isSome ∧ Beyond allowEq m key k ∧
    ∀ k', (f k').isSome → Beyond allowEq m key k' → k' ≠ k → Further m k k'

/-- What a search from `key` should return. -/
def Finds (allowEq : Bool) (m : Mode) (f : List Bool → Option Slice) (key : List Bool) :
    Option (List Bool × Slice) → Prop
  | some (k, v) => f k = some v ∧ Nearest allowEq m f key k
  | none => ∀ k, (f k).isSome → ¬ Beyond allowEq m key k

/-- The entries `f` are those of two children behind a label. -/
structure Forks (label : List Bool) (f : List Bool → Option Slice) (g : Bool → List Bool → Option Slice) :
    Prop where
  below : ∀ c rest, f (label ++ c :: rest) = g c rest
  all : ∀ k, (f k).isSome → ∃ c rest, k = label ++ c :: rest

theorem Forks.exists_child (forks : Forks label f g) {k : List Bool} (found : (f k).isSome) :
    ∃ c rest, k = label ++ c :: rest ∧ (g c rest).isSome := by
  obtain ⟨c, rest, rfl⟩ := forks.all k found
  exact ⟨c, rest, rfl, by rwa [forks.below] at found⟩

theorem Furthest.single (only : ∀ k, (f k).isSome ↔ k = label) : Furthest m f label :=
  ⟨(only label).mpr rfl, fun k' found other => absurd ((only k').mp found) other⟩

theorem Furthest.fork {k : List Bool} (forks : Forks label f g)
    (furthest : Furthest (m.after label).shift (g (m.after label).first) k) :
    Furthest m f (label ++ (m.after label).first :: k) := by
  refine ⟨by rw [forks.below]; exact furthest.1, fun k' found other => ?_⟩
  obtain ⟨c, rest, rfl, below⟩ := forks.exists_child found
  by_cases side : c = (m.after label).first
  · subst side
    rw [further_side]
    refine furthest.2 rest below ?_
    rintro rfl
    exact other rfl
  · exact (further_bit label side rest k).mpr rfl

theorem beyond_side (p : List Bool) (b : Bool) (x y : List Bool) :
    Beyond allowEq m (p ++ b :: x) (p ++ b :: y) ↔ Beyond allowEq (m.after p).shift x y := by
  simp [Beyond, further_side]

theorem beyond_bit (p : List Bool) {b c : Bool} (differ : b ≠ c) (x y : List Bool) :
    Beyond allowEq m (p ++ b :: x) (p ++ c :: y) ↔ c = (m.after p).first := by
  simp [Beyond, further_bit p differ, Ne.symm differ]

/-- Where the key leaves the root edge, all keys lie on one side of it. -/
theorem beyond_diverge {shared rest k k' : List Bool} {b : Bool} (starts : shared ++ b :: rest <+: k') :
    Beyond allowEq m (shared ++ (!b) :: k) k' ↔ b = (m.after shared).first := by
  obtain ⟨tail, rfl⟩ := starts
  rw [List.append_assoc, List.cons_append]
  exact beyond_bit shared (by cases b <;> simp) _ _

theorem Finds.furthest {k : List Bool} {v : Slice} (value : f k = some v) (furthest : Furthest m.flip f k)
    (beyond : ∀ k', (f k').isSome → Beyond allowEq m key k') : Finds allowEq m f key (some (k, v)) := by
  refine ⟨value, furthest.1, beyond k furthest.1, fun k' found _ other => ?_⟩
  rw [← further_flip]
  exact furthest.2 k' found other

section Fork

variable {bit : Bool} (forks : Forks label f g)

include forks

/-- The child on the side of the key has a key beyond it. -/
theorem Finds.same_side {k : List Bool} {v : Slice}
    (found : Finds allowEq (m.after label).shift (g bit) key (some (k, v))) :
    Finds allowEq m f (label ++ bit :: key) (some (label ++ bit :: k, v)) := by
  obtain ⟨value, present, beyond, nearest⟩ := found
  refine ⟨by rwa [forks.below], by rwa [forks.below], (beyond_side label bit key k).mpr beyond, ?_⟩
  intro k' found' beyond' other
  obtain ⟨c, rest, rfl, below⟩ := forks.exists_child found'
  by_cases side : c = bit
  · subst side
    rw [further_side]
    refine nearest rest below ((beyond_side label c key rest).mp beyond') ?_
    rintro rfl
    exact other rfl
  · rw [further_bit label (Ne.symm side)]
    exact (beyond_bit label (Ne.symm side) key rest).mp beyond'

variable (missed : Finds allowEq (m.after label).shift (g bit) key none)
include missed

/-- Neither child has a key beyond the key. -/
theorem Finds.neither_side
    (last : bit = (m.after label).first) : Finds allowEq m f (label ++ bit :: key) none := by
  intro k' found beyond
  obtain ⟨c, rest, rfl, below⟩ := forks.exists_child found
  by_cases side : c = bit
  · subst side
    exact missed rest below ((beyond_side label c key rest).mp beyond)
  · exact side (((beyond_bit label (Ne.symm side) key rest).mp beyond).trans last.symm)

/-- The other child begins with the nearest key. -/
theorem Finds.other_side {k : List Bool} {v : Slice}
    (more : ¬ bit = (m.after label).first) (value : g (m.after label).first k = some v)
    (furthest : Furthest (m.after label).shift.flip (g (m.after label).first) k) :
    Finds allowEq m f (label ++ bit :: key) (some (label ++ (m.after label).first :: k, v)) := by
  refine ⟨by rwa [forks.below], by rw [forks.below]; exact furthest.1,
    (beyond_bit label more key k).mpr rfl, ?_⟩
  intro k' found beyond other
  obtain ⟨c, rest, rfl, below⟩ := forks.exists_child found
  by_cases side : c = bit
  · subst side
    exact absurd ((beyond_side label c key rest).mp beyond) (missed rest below)
  have target : c = (m.after label).first := (beyond_bit label (Ne.symm side) key rest).mp beyond
  subst target
  rw [further_side, ← further_flip]
  refine furthest.2 rest below ?_
  rintro rfl
  exact other rfl

end Fork

end Keys

section Nodes

variable {fuel n w : Nat} {cell left right : Cell} {label : List Bool} {payload : Slice}

/-- The entry under a key of `n` bits that a lookup reaches, in any cell. -/
def valueAt (fuel n : Nat) (cell : Cell) (k : List Bool) : Option Slice :=
  if k.length = n then
    match dictLookup fuel cell k with
    | .ok value => value
    | .error _ => none
  else none

theorem valueAt_length {k : List Bool} {v : Slice} (found : valueAt fuel n cell k = some v) : k.length = n := by
  by_contra other
  rw [valueAt, if_neg other] at found
  cases found

theorem Reads.valueAt {P : Cell → Prop} {t : Trie} (reads : Reads P n cell t) (enough : n < fuel) :
    valueAt fuel n cell = t.get? := by
  funext k
  by_cases len : k.length = n
  · rw [Hashmap.valueAt, if_pos len, reads.dictLookup len enough]
  rw [Hashmap.valueAt, if_neg len]
  by_contra found
  exact len (reads.wf.length_of_get? (Option.isSome_iff_ne_none.mpr (Ne.symm found)))

/-- What stands behind a label: a value, or two children. -/
theorem readNode_cases (read : readNode n cell = .ok (label, payload)) :
    label.length = n ∨ ∃ left right m, payload = ⟨[], [left, right]⟩ ∧ n = label.length + 1 + m := by
  have short := (readNode_success read).1
  by_cases full : label.length = n
  · exact .inl full
  right
  unfold readNode at read
  split at read
  · cases read
  split at read
  · cases read
  rename_i label' rest parsed inner
  cases read
  have two : rest = [] ∧ cell.refs.length = 2 := by
    by_contra other
    exact inner ⟨by omega, other⟩
  obtain ⟨left, right, both⟩ : ∃ left right, cell.refs = [left, right] := by
    match refs : cell.refs, two.2 with
    | [left, right], _ => exact ⟨left, right, rfl⟩
  exact ⟨left, right, n - label.length - 1, by rw [two.1, both], by omega⟩

theorem valueAt_leaf {value : Slice} (read : readNode label.length cell = .ok (label, value)) (k : List Bool) :
    valueAt (fuel + 1) label.length cell k = if k = label then some value else none := by
  unfold valueAt
  by_cases len : k.length = label.length
  · rw [if_pos len, dictLookup, len, read, ok_bind]
    rcases leaf_cases len with rfl | ⟨shared, b, l, k, rfl, rfl⟩
    · simp [commonLen_self]
    · simp [commonLen_diverge]
  · have other : k ≠ label := by
      rintro rfl
      exact len rfl
    rw [if_neg len, if_neg other]

theorem valueAt_fork (read : readNode (label.length + 1 + w) cell = .ok (label, ⟨[], [left, right]⟩)) :
    Forks label (valueAt (fuel + 1) (label.length + 1 + w) cell)
      (fun c => valueAt fuel w (if c then right else left)) where
  below := by
    intro c rest
    have width : (label ++ c :: rest).length = label.length + 1 + w ↔ rest.length = w := by
      simp
      omega
    unfold valueAt
    by_cases len : rest.length = w
    · rw [if_pos len, if_pos (width.mpr len), dictLookup, width.mpr len, read, ok_bind]
      cases c <;> simp [commonLen_append, child]
    · rw [if_neg len, if_neg (fun full => len (width.mp full))]
  all := by
    intro k found
    unfold valueAt at found
    split at found
    · next len =>
      rcases fork_cases len with ⟨c, rest, rfl, -⟩ | ⟨shared, b, l, k, rfl, rfl⟩
      · exact ⟨c, rest, rfl⟩
      · rw [dictLookup, len, read, ok_bind] at found
        simp [commonLen_diverge] at found
    · cases found

/-- The keys in a node start with its label. -/
theorem valueAt_under_label (read : readNode n cell = .ok (label, payload)) {k : List Bool}
    (found : (valueAt (fuel + 1) n cell k).isSome) : label <+: k := by
  rcases readNode_cases read with rfl | ⟨left, right, w, rfl, rfl⟩
  · rw [valueAt_leaf read] at found
    split at found
    · next same =>
      subst same
      exact List.prefix_rfl
    · cases found
  · obtain ⟨c, rest, rfl⟩ := (valueAt_fork read).all k found
    exact List.prefix_append _ _

variable {allowEq : Bool} {m : Mode}
variable {value payload : Slice} {k shared rest key : List Bool} {b : Bool} {out : Option (List Bool × Slice)}

theorem child_side (left right : Cell) (c : Bool) : child [left, right] c = .ok (if c then right else left) := by
  cases c <;> rfl

theorem dictLookupMinmax_leaf (read : readNode label.length cell = .ok (label, value)) :
    dictLookupMinmax (fuel + 1) cell label.length m = .ok (label, value) := by
  simp [dictLookupMinmax, read]

theorem dictLookupMinmax_descend
    (read : readNode (label.length + 1 + w) cell = .ok (label, ⟨[], [left, right]⟩)) :
    dictLookupMinmax (fuel + 1) cell (label.length + 1 + w) m = (do
      let (key, value) ← dictLookupMinmax fuel (if (m.after label).first then right else left) w
        (m.after label).shift
      .ok (label ++ (m.after label).first :: key, value)) := by
  have more : ¬ label.length + 1 + w - label.length = 0 := by omega
  have rest : label.length + 1 + w - label.length - 1 = w := by omega
  simp only [dictLookupMinmax, read, ok_bind, more, rest, if_false, child_side, Mode.after]
  rfl

/-- Whatever `dict_lookup_minmax` returns is the furthest entry. -/
theorem minmax_sound {v : Slice} (h : dictLookupMinmax fuel cell n m = .ok (k, v)) :
    valueAt fuel n cell k = some v ∧ Furthest m (valueAt fuel n cell) k := by
  induction fuel generalizing cell n m k v with
  | zero => cases h
  | succ fuel ih =>
    have search := h
    obtain ⟨⟨label, payload⟩, read, -⟩ := of_bind search
    rcases readNode_cases read with rfl | ⟨left, right, w, rfl, rfl⟩
    · rw [dictLookupMinmax_leaf read] at h
      cases h
      have entries := @valueAt_leaf fuel _ _ _ read
      refine ⟨by rw [entries, if_pos rfl], .single fun x => ?_⟩
      rw [entries]
      by_cases same : x = k <;> simp
    · rw [dictLookupMinmax_descend read] at h
      obtain ⟨⟨k', v'⟩, found, h⟩ := of_bind h
      cases h
      have forks := @valueAt_fork fuel _ _ _ _ _ read
      obtain ⟨value, furthest⟩ := ih found
      exact ⟨by rw [forks.below]; exact value, .fork forks furthest⟩

theorem dictLookupNearest_leaf (read : readNode label.length cell = .ok (label, value)) :
    dictLookupNearest allowEq (fuel + 1) cell label m = .ok (if allowEq then some (label, value) else none) := by
  simp only [dictLookupNearest, read, ok_bind, commonLen_self, lt_irrefl, List.drop_length]
  cases allowEq <;> rfl

theorem dictLookupNearest_diverge
    (read : readNode (shared ++ (!b) :: k).length cell = .ok (shared ++ b :: rest, payload)) :
    dictLookupNearest allowEq (fuel + 1) cell (shared ++ (!b) :: k) m =
      if (!b) = (m.after shared).first then .ok none
      else (do
        let found ← dictLookupMinmax (fuel + 1) cell (shared ++ (!b) :: k).length m.flip
        .ok (some found)) := by
  rw [dictLookupNearest, read, ok_bind]
  simp only [commonLen_diverge]
  rw [if_pos (by simp)]
  simp only [List.drop_left, List.head?_cons, Option.getD_some, ← Mode.after_first]

theorem dictLookupNearest_descend {bit : Bool}
    (read : readNode (label ++ bit :: rest).length cell = .ok (label, ⟨[], [left, right]⟩)) :
    dictLookupNearest allowEq (fuel + 1) cell (label ++ bit :: rest) m = (do
      let found ← dictLookupNearest allowEq fuel (if bit then right else left) rest (m.after label).shift
      match found with
      | some (k, value) => .ok (some (label ++ bit :: k, value))
      | none =>
        if bit = (m.after label).first then .ok none
        else do
          let (k, value) ← dictLookupMinmax fuel (if (m.after label).first then right else left) rest.length
            (m.after label).shift.flip
          .ok (some (label ++ (m.after label).first :: k, value))) := by
  simp only [dictLookupNearest, read, ok_bind, commonLen_append, lt_irrefl, if_false, List.drop_left, child_side,
    Mode.after, Mode.flip_shift]
  rfl

theorem finds_diverge (read : readNode (shared ++ (!b) :: k).length cell = .ok (shared ++ b :: rest, payload))
    (h : dictLookupNearest allowEq (fuel + 1) cell (shared ++ (!b) :: k) m = .ok out) :
    Finds allowEq m (valueAt (fuel + 1) (shared ++ (!b) :: k).length cell) (shared ++ (!b) :: k) out := by
  rw [dictLookupNearest_diverge read] at h
  split at h
  · next last =>
    cases h
    intro k' found beyond
    have same := (beyond_diverge (valueAt_under_label read found)).mp beyond
    rw [← same] at last
    cases b <;> simp at last
  · next last =>
    obtain ⟨⟨k', v⟩, extreme, h⟩ := of_bind h
    cases h
    obtain ⟨value, furthest⟩ := minmax_sound extreme
    refine .furthest value furthest fun k'' present => ?_
    rw [beyond_diverge (valueAt_under_label read present)]
    revert last
    cases b <;> cases (m.after shared).first <;> simp

theorem finds_leaf (read : readNode label.length cell = .ok (label, value)) :
    Finds allowEq m (valueAt (fuel + 1) label.length cell) label
      (if allowEq then some (label, value) else none) := by
  have only (k : List Bool) (found : (valueAt (fuel + 1) label.length cell k).isSome) : k = label := by
    rw [valueAt_leaf read] at found
    by_contra other
    rw [if_neg other] at found
    cases found
  have here : valueAt (fuel + 1) label.length cell label = some value := by
    rw [valueAt_leaf read, if_pos rfl]
  cases allowEq with
  | true =>
    refine ⟨here, by rw [here]; rfl, .inr ⟨rfl, rfl⟩, fun k' found _ other => ?_⟩
    exact absurd (only k' found) other
  | false =>
    intro k' found beyond
    rw [only k' found] at beyond
    rcases beyond with further | ⟨impossible, -⟩
    · exact not_further_self label further
    · cases impossible

/-- Whatever `dict_lookup_nearest` returns is the first entry beyond the key. -/
theorem nearest_sound (h : dictLookupNearest allowEq fuel cell key m = .ok out) :
    Finds allowEq m (valueAt fuel key.length cell) key out := by
  induction fuel generalizing cell key m out with
  | zero => cases h
  | succ fuel ih =>
    have search := h
    obtain ⟨⟨label, payload⟩, read, -⟩ := of_bind search
    rcases label_cases label key (readNode_success read).1 with ⟨rest, rfl⟩ | ⟨shared, b, l, k, rfl, rfl⟩
    · rcases readNode_cases read with full | ⟨left, right, w, rfl, width⟩
      · have : rest = [] := by simpa using full
        subst this
        rw [List.append_nil] at read h ⊢
        rw [dictLookupNearest_leaf read] at h
        cases h
        exact finds_leaf read
      cases rest with
      | nil => simp at width; omega
      | cons bit rest =>
        have below : rest.length = w := by simp at width; omega
        subst below
        have forks := @valueAt_fork fuel _ _ _ _ _ (width ▸ read)
        rw [← width] at forks
        rw [dictLookupNearest_descend read] at h
        obtain ⟨found, inner, h⟩ := of_bind h
        have finds := ih inner
        cases found with
        | some e =>
          cases h
          exact .same_side forks finds
        | none =>
          simp only at h
          split at h
          · next last =>
            cases h
            exact .neither_side forks finds last
          · next more =>
            obtain ⟨⟨k, v⟩, extreme, h⟩ := of_bind h
            cases h
            obtain ⟨value, furthest⟩ := minmax_sound extreme
            exact .other_side forks finds more value furthest
    · exact finds_diverge read h

variable {P : Cell → Prop} {t : Trie}

theorem Reads.minmax_ok (reads : Reads P n cell t) (m : Mode) (enough : n < fuel) :
    ∃ k v, dictLookupMinmax fuel cell n m = .ok (k, v) := by
  induction reads generalizing m fuel with
  | @leaf cell label value _ read =>
    obtain ⟨fuel, rfl⟩ := exists_fuel enough
    exact ⟨label, value, dictLookupMinmax_leaf read⟩
  | @fork w cell left right label _ _ _ read _ _ ihLeft ihRight =>
    obtain ⟨fuel, rfl⟩ := exists_fuel enough
    rw [dictLookupMinmax_descend read]
    have below : ∃ k v, dictLookupMinmax fuel (if (m.after label).first then right else left) w
        (m.after label).shift = .ok (k, v) := by
      cases (m.after label).first with
      | true => exact ihRight _ (by omega)
      | false => exact ihLeft _ (by omega)
    obtain ⟨k, v, found⟩ := below
    exact ⟨_, _, by rw [found, ok_bind]⟩

theorem Reads.diverge_ok (reads : Reads P n cell t) (allowEq : Bool) (m : Mode) (len : (shared ++ (!b) :: k).length = n)
    (read : readNode n cell = .ok (shared ++ b :: rest, payload)) (enough : n < fuel + 1) :
    ∃ out, dictLookupNearest allowEq (fuel + 1) cell (shared ++ (!b) :: k) m = .ok out := by
  obtain ⟨k', v, found⟩ := reads.minmax_ok m.flip enough
  subst len
  rw [dictLookupNearest_diverge read, found]
  split
  · exact ⟨none, rfl⟩
  · exact ⟨_, rfl⟩

theorem Reads.nearest_ok (reads : Reads P n cell t) (allowEq : Bool) (m : Mode)
    (len : key.length = n) (enough : n < fuel) :
    ∃ out, dictLookupNearest allowEq fuel cell key m = .ok out := by
  induction reads generalizing m key fuel with
  | @leaf cell label value good read =>
    obtain ⟨fuel, rfl⟩ := exists_fuel enough
    rcases leaf_cases len with rfl | ⟨shared, b, l, k, rfl, rfl⟩
    · exact ⟨_, dictLookupNearest_leaf read⟩
    exact (Reads.leaf good read).diverge_ok allowEq m len read enough
  | @fork w cell left right label l r good read readsLeft readsRight ihLeft ihRight =>
    obtain ⟨fuel, rfl⟩ := exists_fuel enough
    rcases fork_cases len with ⟨bit, rest, rfl, below⟩ | ⟨shared, b, s, k, rfl, rfl⟩
    · have inner : ∃ out, dictLookupNearest allowEq fuel (if bit then right else left) rest
          (m.after label).shift = .ok out := by
        cases bit with
        | true => exact ihRight _ below (by omega)
        | false => exact ihLeft _ below (by omega)
      have other : ∃ k v, dictLookupMinmax fuel (if (m.after label).first then right else left) w
          (m.after label).shift.flip = .ok (k, v) := by
        cases (m.after label).first with
        | true => exact readsRight.minmax_ok _ (by omega)
        | false => exact readsLeft.minmax_ok _ (by omega)
      obtain ⟨out, found⟩ := inner
      obtain ⟨k, v, extreme⟩ := other
      rw [dictLookupNearest_descend (by rw [len]; exact read), found, ok_bind, below]
      cases out with
      | some e => exact ⟨_, rfl⟩
      | none =>
        simp only
        split
        · exact ⟨none, rfl⟩
        · exact ⟨_, by rw [extreme, ok_bind]⟩
    · exact (Reads.fork good read readsLeft readsRight).diverge_ok allowEq m len read enough

variable {x y : List Bool}

/-- A key as an unsigned integer, or as a signed one in two's complement. -/
def keyValue (signed : Bool) (k : List Bool) : Int :=
  if signed ∧ k.head? = some true then (natOf k : Int) - 2 ^ k.length else natOf k

/-- The mode word `-up ^ signed`. -/
def Mode.ordered (up signed : Bool) : Mode := ⟨up ^^ signed, up⟩

theorem Mode.ordered_flip (up signed : Bool) : (Mode.ordered up signed).flip = .ordered (!up) signed := by
  cases up <;> cases signed <;> rfl

/-- The upward modes order the keys as integers. -/
theorem further_up (signed : Bool) (len : x.length = y.length) :
    Further (.ordered true signed) x y ↔ keyValue signed x < keyValue signed y := by
  induction x generalizing y signed with
  | nil =>
    cases y with
    | nil => simp [Further]
    | cons c y => simp at len
  | cons b x ih =>
    cases y with
    | nil => simp at len
    | cons c y =>
      have same : x.length = y.length := by simpa using len
      by_cases equal : b = c
      · -- below the first bit the order is the unsigned one
        subst equal
        rw [further_cons]
        change Further (.ordered true false) x y ↔ _
        rw [ih false same]
        cases b <;> cases signed <;> simp [keyValue, natOf, same]
      · have boundX := natOf_lt x
        have boundY := natOf_lt y
        zify at boundX boundY
        rw [Further, if_neg equal]
        cases b <;> cases c <;> cases signed <;> simp_all [keyValue, natOf, Mode.ordered] <;> omega

theorem further_natOf (len : x.length = y.length) : Further (.ordered true false) x y ↔ natOf x < natOf y := by
  simpa [keyValue] using further_up false len

theorem further_ordered (up signed : Bool) (len : x.length = y.length) :
    Further (.ordered up signed) x y ↔
      if up then keyValue signed x < keyValue signed y else keyValue signed y < keyValue signed x := by
  cases up with
  | true => exact further_up signed len
  | false =>
    rw [show Mode.ordered false signed = (Mode.ordered true signed).flip from
      (Mode.ordered_flip true signed).symm, further_flip, further_up signed len.symm]
    simp

/-- A key of `n` bits in two's complement. -/
def intBits (n : Nat) (x : Int) : List Bool := bitsOf n (x % 2 ^ n).toNat

@[simp] theorem intBits_length (n : Nat) (x : Int) : (intBits n x).length = n := bitsOf_length _ _

/-- The sign bit of a key decides the sign of its value. -/
theorem keyValue_signed (len : k.length = n + 1) :
    keyValue true k = if natOf k < 2 ^ n then (natOf k : Int) else natOf k - 2 ^ (n + 1) := by
  cases k with
  | nil => simp at len
  | cons b k =>
    have width : k.length = n := by simpa using len
    have bound := natOf_lt k
    rw [width] at bound
    cases b with
    | true => simp [keyValue, natOf, width]
    | false => simp [keyValue, natOf, bound]

theorem natOf_intBits (n : Nat) (x : Int) : (natOf (intBits n x) : Int) = x % 2 ^ n := by
  have small : (x % 2 ^ n).toNat < 2 ^ n := by
    zify
    omega
  rw [intBits, natOf_bitsOf, Nat.mod_eq_of_lt small]
  omega

theorem keyValue_intBits {x : Int} (low : -2 ^ n ≤ x) (high : x < 2 ^ n) : keyValue true (intBits (n + 1) x) = x := by
  have value := natOf_intBits (n + 1) x
  rw [keyValue_signed (intBits_length (n + 1) x)]
  by_cases negative : x < 0
  · have wrapped : x % 2 ^ (n + 1) = x + 2 ^ (n + 1) := by
      rw [← Int.add_emod_right, Int.emod_eq_of_lt (by omega) (by omega)]
    rw [if_neg (by zify; omega)]
    omega
  · have same : x % 2 ^ (n + 1) = x := Int.emod_eq_of_lt (by omega) (by omega)
    rw [same] at value
    rw [if_pos (by zify; omega)]
    exact value

theorem keyValue_range (len : k.length = n + 1) : -2 ^ n ≤ keyValue true k ∧ keyValue true k < 2 ^ n := by
  have bound := natOf_lt k
  rw [len] at bound
  zify at bound
  rw [keyValue_signed len]
  split
  · next low =>
    zify at low
    constructor <;> omega
  · next high =>
    zify at high
    constructor <;> omega

theorem intBits_keyValue (len : k.length = n + 1) : intBits (n + 1) (keyValue true k) = k := by
  have bound := natOf_lt k
  rw [len] at bound
  refine natOf_inj (by rw [intBits_length, len]) ?_
  zify at bound ⊢
  have same : (natOf k : Int) % 2 ^ (n + 1) = natOf k := Int.emod_eq_of_lt (by omega) bound
  rw [natOf_intBits, keyValue_signed len]
  split
  · exact same
  · rw [Int.sub_emod_right, same]

/-- `DICTIGETNEXT` (`up`) and `DICTIGETPREV` with key width `n`. A pivot outside of the key range asks
for the extreme key on its side. -/
def idictGetNear (up : Bool) (n : Nat) (root : Option Cell) (pivot : Int) : Outcome (Option (Int × Slice)) :=
  match root with
  | none => .ok none
  | some cell =>
    match storeInt n pivot with
    | .ok _ => do
      let found ← dictLookupNearest false (n + 1) cell (intBits n pivot) (.ordered up true)
      .ok (found.map fun e => (keyValue true e.1, e.2))
    | .error _ =>
      if (decide (0 ≤ pivot)) = up then .ok none
      else do
        let found ← dictLookupMinmax (n + 1) cell n (.ordered (!up) true)
        .ok (some (keyValue true found.1, found.2))

def idictGetNext? (n : Nat) (root : Option Cell) (pivot : Int) := idictGetNear true n root pivot

/-- The entry under a signed key. -/
def idictAt (n : Nat) (root : Option Cell) (i : Int) : Option Slice :=
  match root with
  | some cell => valueAt (n + 1) n cell (intBits n i)
  | none => none

variable {root : Option Cell} {pivot : Int}

/-- The next entry in the order of signed keys, in any cell. -/
theorem idictGetNext?_sound (low : -2 ^ n ≤ pivot) (high : pivot < 2 ^ n) {out : Option (Int × Slice)}
    (h : idictGetNext? (n + 1) root pivot = .ok out) :
    match out with
    | none => ∀ j : Sint (n + 1), (idictAt (n + 1) root j).isSome → (j : Int) ≤ pivot
    | some (i, v) => (-2 ^ n ≤ i ∧ i < 2 ^ n) ∧ idictAt (n + 1) root i = some v ∧ pivot < i ∧
      ∀ j : Sint (n + 1), (idictAt (n + 1) root j).isSome → pivot < j → i ≤ j := by
  cases root with
  | none =>
    cases h
    simp [idictAt]
  | some cell =>
    have stored : storeInt (n + 1) pivot = .ok ⟨pivot, low, high⟩ := storeInt_val ⟨pivot, low, high⟩
    simp only [idictGetNext?, idictGetNear, stored] at h
    obtain ⟨found, search, h⟩ := of_bind h
    have finds := nearest_sound search
    rw [intBits_length] at finds
    have value (j : Sint (n + 1)) : keyValue true (intBits (n + 1) j) = j := keyValue_intBits j.2.1 j.2.2
    have order {k : List Bool} (len : k.length = n + 1) :
        Further (.ordered true true) (intBits (n + 1) pivot) k ↔ pivot < keyValue true k := by
      rw [further_up true (by rw [intBits_length, len]), keyValue_intBits low high]
    cases found with
    | none =>
      cases h
      intro j present
      have none := finds _ present
      by_contra above
      refine none (.inl ((order (intBits_length _ _)).mpr ?_))
      rw [value]
      omega
    | some e =>
      obtain ⟨k, v⟩ := e
      cases h
      obtain ⟨here, present, beyond, nearest⟩ := finds
      have len := valueAt_length here
      have above : pivot < keyValue true k := by
        rcases beyond with further | ⟨impossible, -⟩
        · exact (order len).mp further
        · cases impossible
      refine ⟨keyValue_range len, ?_, above, fun j found later => ?_⟩
      · rw [idictAt, intBits_keyValue len]
        exact here
      · have further : Further (.ordered true true) (intBits (n + 1) pivot) (intBits (n + 1) j) := by
          rw [order (intBits_length _ _), value]
          exact later
        by_cases same : intBits (n + 1) j = k
        · rw [← same, value]
        have next := nearest _ found (.inl further) same
        rw [further_up true (by rw [intBits_length, len]), value] at next
        exact next.le

end Nodes

end Tvm.Hashmap
