import TonStaking.Tvm.Hashmap

/-!
# Dictionary cells of a well-formed dictionary

A trie of labelled edges is what a dictionary cell tree means when it is read
with the key width it was written with. `toCell` writes a trie with the label
encodings of `append_dict_label`; insertion and lookup on cells are then the
corresponding operations on tries. Only an insertion after which some cell would
be too large fails.
-/
namespace Tvm.Hashmap

variable {n len fuel : Nat} {label key rest k : List Bool}

theorem leadingOnes_replicate (l : Nat) (rest : List Bool) :
    leadingOnes (List.replicate l true ++ false :: rest) = l := by
  induction l with
  | zero => rfl
  | succ l ih => simp [List.replicate_succ, leadingOnes, ih]

private theorem parseLabel_short (nonempty : label ≠ []) (short : label.length ≤ n) (rest : List Bool) :
    parseLabel n (false :: (List.replicate label.length true ++ [false] ++ label) ++ rest) = some (label, rest) := by
  obtain ⟨l, len⟩ : ∃ l, label.length = l + 1 :=
    Nat.exists_eq_add_one.mpr (List.length_pos_iff.mpr nonempty)
  have ones : leadingOnes (true :: (List.replicate l true ++ false :: (label ++ rest))) = l + 1 := by
    rw [← leadingOnes_replicate (l + 1) (label ++ rest)]
    rfl
  have front : (true :: (List.replicate l true ++ false :: (label ++ rest))).drop (l + 1 + 1) = label ++ rest := by
    have cut : (true :: (List.replicate l true ++ [false]) ++ (label ++ rest)).drop (l + 1 + 1) =
        label ++ rest := List.drop_left' (by simp)
    simpa using cut
  have back : (true :: (List.replicate l true ++ false :: (label ++ rest))).drop (2 * (l + 1) + 1) = rest := by
    have cut : (true :: (List.replicate l true ++ [false] ++ label) ++ rest).drop
        (2 * (l + 1) + 1) = rest := List.drop_left' (by simp [len]; omega)
    simpa using cut
  have room : l + 1 ≤ n ∧ 2 * (l + 1) + 1 ≤ (true :: (List.replicate l true ++ false :: (label ++ rest))).length := by
    simp [len]
    omega
  have shape : false :: (List.replicate label.length true ++ [false] ++ label) ++ rest =
      false :: true :: (List.replicate l true ++ false :: (label ++ rest)) := by
    simp [len, List.replicate_succ]
  have taken : (label ++ rest).take (l + 1) = label := List.take_left' len
  rw [shape]
  simp only [parseLabel, ones, if_pos room, front, back, taken]

private theorem natOf_len (short : len ≤ n) (rest : List Bool) :
    natOf ((bitsOf (bitLen n) len ++ rest).take (bitLen n)) = len := by
  rw [List.take_left' (bitsOf_length _ _), natOf_bitsOf, Nat.mod_eq_of_lt]
  exact lt_of_le_of_lt short (lt_two_pow_bitLen n)

private theorem parseLabel_long (short : label.length ≤ n) (rest : List Bool) :
    parseLabel n ([true, false] ++ bitsOf (bitLen n) label.length ++ label ++ rest) = some (label, rest) := by
  have shape : [true, false] ++ bitsOf (bitLen n) label.length ++ label ++ rest =
      true :: false :: (bitsOf (bitLen n) label.length ++ (label ++ rest)) := by simp
  have behind : (bitsOf (bitLen n) label.length ++ (label ++ rest)).drop (bitLen n) = label ++ rest :=
    List.drop_left' (bitsOf_length _ _)
  have room : label.length ≤ n ∧ label.length ≤ (label ++ rest).length := ⟨short, by simp⟩
  rw [shape]
  simp only [parseLabel, natOf_len short, behind, if_pos room]
  simp

private theorem parseLabel_same (short : len ≤ n) (same : Bool) (rest : List Bool) :
    parseLabel n ([true, true, same] ++ bitsOf (bitLen n) len ++ rest) = some (List.replicate len same, rest) := by
  have shape : [true, true, same] ++ bitsOf (bitLen n) len ++ rest =
      true :: true :: same :: (bitsOf (bitLen n) len ++ rest) := by simp
  rw [shape]
  simp only [parseLabel, natOf_len short, if_pos short]
  simp

private theorem eq_replicate_of_all {b : Bool} (h : rest.all (· == b) = true) :
    b :: rest = List.replicate (rest.length + 1) b := by
  congr 1
  exact List.eq_replicate_iff.mpr ⟨rfl, fun x member => by simpa using List.all_eq_true.mp h x member⟩

theorem appendLabel_cons (b : Bool) (tail : List Bool) (n : Nat) :
    appendLabel (b :: tail) n =
      if tail.all (· == b) then appendLabelSame b (tail.length + 1) n
      else if bitLen n < tail.length + 1 then
        [true, false] ++ bitsOf (bitLen n) (tail.length + 1) ++ b :: tail
      else false :: (List.replicate (tail.length + 1) true ++ [false] ++ b :: tail) := rfl

/-- A label that was written for a key width is read back with that width. -/
theorem parseLabel_appendLabel (short : label.length ≤ n) (rest : List Bool) :
    parseLabel n (appendLabel label n ++ rest) = some (label, rest) := by
  cases label with
  | nil => rfl
  | cons b tail =>
    rw [appendLabel_cons]
    split
    · next same =>
      have replicated := eq_replicate_of_all same
      unfold appendLabelSame
      split
      · rw [parseLabel_same (by simpa using short), ← replicated]
      split
      · rw [replicated] at short ⊢
        simpa using parseLabel_long short rest
      · have := parseLabel_short (List.cons_ne_nil b tail) short rest
        simpa [replicated] using this
    · split
      · exact parseLabel_long short rest
      · exact parseLabel_short (List.cons_ne_nil b tail) short rest

/-- No label takes more bits than one of the two encodings that list it. -/
theorem appendLabel_length_le (label : List Bool) (n : Nat) :
    (appendLabel label n).length ≤ 2 * label.length + 2 ∧
      (appendLabel label n).length ≤ label.length + bitLen n + 2 := by
  cases label with
  | nil => simp [appendLabel]
  | cons b tail =>
    rw [appendLabel_cons]
    split
    · unfold appendLabelSame
      split
      · simp
        omega
      split
      · simp
        omega
      · simp
        omega
    · split
      · simp
        omega
      · simp
        omega

/-- A recursion over the key can start. -/
theorem exists_fuel (enough : n < fuel) : ∃ rest, fuel = rest + 1 :=
  Nat.exists_eq_add_one.mpr (Nat.zero_lt_of_lt enough)

theorem commonLen_append (label rest : List Bool) : commonLen label (label ++ rest) = label.length := by
  induction label with
  | nil => cases rest <;> rfl
  | cons b label ih => simp [commonLen, ih]

theorem commonLen_self (l : List Bool) : commonLen l l = l.length := by
  simpa using commonLen_append l []

theorem commonLen_diverge (shared : List Bool) (b : Bool) (label key : List Bool) :
    commonLen (shared ++ b :: label) (shared ++ (!b) :: key) = shared.length := by
  induction shared with
  | nil => cases b <;> rfl
  | cons c shared ih => simp [commonLen, ih]

/-- A key either runs through a label or leaves it at the first different bit. -/
theorem label_cases (label key : List Bool) (le : label.length ≤ key.length) :
    (∃ rest, key = label ++ rest) ∨ ∃ shared b l k, label = shared ++ b :: l ∧ key = shared ++ (!b) :: k := by
  induction label generalizing key with
  | nil => exact .inl ⟨key, rfl⟩
  | cons b label ih =>
    cases key with
    | nil => simp at le
    | cons c key =>
      by_cases equal : c = b
      · subst equal
        rcases ih key (by simpa using le) with ⟨rest, rfl⟩ | ⟨shared, d, l, k, rfl, rfl⟩
        · exact .inl ⟨rest, rfl⟩
        · exact .inr ⟨c :: shared, d, l, k, rfl, rfl⟩
      · have flipped : c = !b := by cases b <;> cases c <;> simp_all
        exact .inr ⟨[], b, label, key, rfl, by rw [flipped]; rfl⟩

theorem leaf_cases (len : key.length = label.length) :
    label = key ∨ ∃ shared b l k, label = shared ++ b :: l ∧ key = shared ++ (!b) :: k := by
  rcases label_cases label key len.ge with ⟨rest, rfl⟩ | diverge
  · have : rest = [] := by simpa using len
    rw [this, List.append_nil]
    exact .inl rfl
  · exact .inr diverge

theorem fork_cases {m : Nat} (len : key.length = label.length + 1 + m) :
    (∃ bit rest, key = label ++ bit :: rest ∧ rest.length = m) ∨
      ∃ shared b l k, label = shared ++ b :: l ∧ key = shared ++ (!b) :: k := by
  rcases label_cases label key (by omega) with ⟨rest, rfl⟩ | diverge
  · cases rest with
    | nil => simp at len; omega
    | cons bit rest => exact .inl ⟨bit, rest, rfl, by simp at len; omega⟩
  · exact .inr diverge

inductive Trie where
  | leaf (label : List Bool) (value : Slice)
  | fork (label : List Bool) (left right : Trie)

namespace Trie

/-- All keys have `n` bits. -/
inductive WF : Nat → Trie → Prop
  | leaf (label : List Bool) (value : Slice) : WF label.length (.leaf label value)
  | fork {m : Nat} (label : List Bool) {left right : Trie} (wfLeft : WF m left)
      (wfRight : WF m right) : WF (label.length + 1 + m) (.fork label left right)

def All (P : Slice → Prop) : Trie → Prop
  | .leaf _ value => P value
  | .fork _ left right => left.All P ∧ right.All P

def toCell : Nat → Trie → Cell
  | n, .leaf label value => .mk (appendLabel label n ++ value.bits) value.refs
  | n, .fork label left right =>
    .mk (appendLabel label n)
      [left.toCell (n - label.length - 1), right.toCell (n - label.length - 1)]

def depth : Trie → Nat
  | .leaf _ value => refsDepth value.refs
  | .fork _ left right => max (left.depth + 1) (right.depth + 1)

@[simp] theorem depth_toCell (t : Trie) (n : Nat) : (t.toCell n).depth = t.depth := by
  induction t generalizing n with
  | leaf label value => rfl
  | fork label left right ihLeft ihRight => simp [toCell, Cell.depth, refsDepth, depth, ihLeft, ihRight]

def get? : Trie → List Bool → Option Slice
  | .leaf label value, key => if key = label then some value else none
  | .fork label left right, key =>
    if commonLen label key < label.length then none
    else
      match key.drop label.length with
      | [] => none
      | bit :: rest => if bit then right.get? rest else left.get? rest

/-- Two edges below a shared label; `bit` is the side of the new one. -/
def branch (shared : List Bool) (bit : Bool) (new old : Trie) : Trie :=
  if bit then .fork shared old new else .fork shared new old

def insert (value : Slice) : Trie → List Bool → Trie
  | .leaf label old, key =>
    let p := commonLen label key
    if p < label.length then
      branch (key.take p) (key.drop p |>.head? |>.getD false) (.leaf (key.drop (p + 1)) value)
        (.leaf (label.drop (p + 1)) old)
    else .leaf key value
  | .fork label left right, key =>
    let p := commonLen label key
    if p < label.length then
      branch (key.take p) (key.drop p |>.head? |>.getD false) (.leaf (key.drop (p + 1)) value)
        (.fork (label.drop (p + 1)) left right)
    else
      match key.drop label.length with
      | [] => .fork label left right
      | bit :: rest =>
        if bit then .fork label left (right.insert value rest)
        else .fork label (left.insert value rest) right

variable {n : Nat} {value : Slice}
variable {m : Nat} {new old t : Trie} {key : List Bool} {P : Slice → Prop}

theorem insert_leaf_self (value old : Slice) (label : List Bool) :
    (leaf label old).insert value label = leaf label value := by
  simp [insert, commonLen_self]

theorem insert_leaf_diverge (value old : Slice) (shared : List Bool) (b : Bool) (l k : List Bool) :
    (leaf (shared ++ b :: l) old).insert value (shared ++ (!b) :: k) =
      branch shared (!b) (leaf k value) (leaf l old) := by
  simp [insert, commonLen_diverge]

theorem insert_fork_diverge (value : Slice) (shared : List Bool) (b : Bool) (l k : List Bool)
    (left right : Trie) :
    (fork (shared ++ b :: l) left right).insert value (shared ++ (!b) :: k) =
      branch shared (!b) (leaf k value) (fork l left right) := by
  simp [insert, commonLen_diverge]

theorem insert_fork_through (value : Slice) (label rest : List Bool) (bit : Bool)
    (left right : Trie) :
    (fork label left right).insert value (label ++ bit :: rest) =
      if bit then fork label left (right.insert value rest)
      else fork label (left.insert value rest) right := by
  simp [insert, commonLen_append]

theorem get?_fork_through (label rest : List Bool) (bit : Bool) (left right : Trie) :
    (fork label left right).get? (label ++ bit :: rest) =
      if bit then right.get? rest else left.get? rest := by
  simp [get?, commonLen_append]

theorem get?_fork_diverge (shared : List Bool) (b : Bool) (l k : List Bool) (left right : Trie) :
    (fork (shared ++ b :: l) left right).get? (shared ++ (!b) :: k) = none := by
  simp [get?, commonLen_diverge]

theorem commonLen_shared (shared label key : List Bool) :
    commonLen (shared ++ label) (shared ++ key) = shared.length + commonLen label key := by
  induction shared with
  | nil => simp
  | cons c shared ih => simp [commonLen]; omega

/-- Keys below a shared start are the keys of the shortened edge. -/
theorem get?_fork_shared (shared : List Bool) (b : Bool) (l rest : List Bool) (left right : Trie) :
    (fork (shared ++ b :: l) left right).get? (shared ++ b :: rest) = (fork l left right).get? rest := by
  have count : commonLen (shared ++ b :: l) (shared ++ b :: rest) = shared.length + (commonLen l rest + 1) := by
    rw [commonLen_shared]
    simp [commonLen]
  simp [get?, count]

theorem WF.branch (shared : List Bool) (bit : Bool) (wfNew : WF m new) (wfOld : WF m old) :
    WF (shared.length + 1 + m) (branch shared bit new old) := by
  unfold Trie.branch
  split
  · exact .fork shared wfOld wfNew
  · exact .fork shared wfNew wfOld

theorem get?_branch (new old : Trie) (shared : List Bool) (bit : Bool) (k : List Bool)
    (len : k.length = shared.length + 1 + m) :
    (∃ c rest, k = shared ++ c :: rest ∧ rest.length = m ∧
      (branch shared bit new old).get? k = if c = bit then new.get? rest else old.get? rest) ∨
    (∃ pre b s r, shared = pre ++ b :: s ∧ k = pre ++ (!b) :: r ∧ (branch shared bit new old).get? k = none) := by
  rcases fork_cases len with ⟨c, rest, rfl, below⟩ | ⟨pre, b, s, r, rfl, rfl⟩
  · refine .inl ⟨c, rest, rfl, below, ?_⟩
    unfold Trie.branch
    split
    · next one =>
      rw [get?_fork_through, one]
    · next zero =>
      rw [get?_fork_through]
      cases c <;> cases bit <;> simp_all
  · refine .inr ⟨pre, b, s, r, rfl, rfl, ?_⟩
    unfold Trie.branch
    split
    · exact get?_fork_diverge ..
    · exact get?_fork_diverge ..

theorem insert_wf (wf : WF n t) (value : Slice) (len : key.length = n) : WF n (t.insert value key) := by
  induction wf generalizing key with
  | leaf label old =>
    rcases leaf_cases len with rfl | ⟨shared, b, l, k, rfl, rfl⟩
    · rw [insert_leaf_self]
      exact .leaf label value
    · rw [insert_leaf_diverge]
      have same : k.length = l.length := by simpa using len
      have total : (shared ++ b :: l).length = shared.length + 1 + l.length := by simp; omega
      rw [total]
      exact .branch shared (!b) (same ▸ .leaf k value) (.leaf l old)
  | @fork m label left right wfLeft wfRight ihLeft ihRight =>
    rcases fork_cases len with ⟨bit, rest, rfl, below⟩ | ⟨shared, b, l, k, rfl, rfl⟩
    · rw [insert_fork_through]
      split
      · exact .fork label wfLeft (ihRight below)
      · exact .fork label (ihLeft below) wfRight
    · rw [insert_fork_diverge]
      have same : k.length = l.length + 1 + m := by simp at len; omega
      have total : (shared ++ b :: l).length + 1 + m = shared.length + 1 + (l.length + 1 + m) := by
        simp
        omega
      rw [total]
      exact .branch shared (!b) (same ▸ .leaf k value) (.fork l wfLeft wfRight)

theorem get?_insert (wf : WF n t) (value : Slice) (keyLen : key.length = n) (len : k.length = n) :
    (t.insert value key).get? k = if k = key then some value else t.get? k := by
  induction wf generalizing key k with
  | leaf label old =>
    rcases leaf_cases keyLen with rfl | ⟨shared, b, l, key, rfl, rfl⟩
    · rw [insert_leaf_self]
      by_cases equal : k = label <;> simp [get?, equal]
    rw [insert_leaf_diverge]
    rcases get?_branch (leaf key value) (leaf l old) shared (!b) k
        (m := l.length) (by rw [len]; simp; omega) with
      ⟨c, rest, rfl, -, found⟩ | ⟨pre, d, s, r, rfl, rfl, found⟩
    · rw [found]
      cases b <;> cases c <;> simp [get?]
    · rw [found]
      simp [get?]
  | @fork m label left right _ _ ihLeft ihRight =>
    rcases fork_cases keyLen with ⟨bit, rest, rfl, below⟩ | ⟨shared, b, l, key, rfl, rfl⟩
    · rw [insert_fork_through]
      rcases fork_cases len with ⟨c, tail, rfl, belowTail⟩ | ⟨pre, d, s, r, rfl, rfl⟩
      · rw [get?_fork_through]
        cases bit <;> cases c <;>
          simp [get?_fork_through, ihLeft below belowTail, ihRight below belowTail]
      · rw [get?_fork_diverge]
        split <;> simp [get?_fork_diverge]
    · rw [insert_fork_diverge]
      rcases get?_branch (leaf key value) (fork l left right) shared (!b) k
          (m := l.length + 1 + m) (by rw [len]; simp; omega) with
        ⟨c, rest, rfl, -, found⟩ | ⟨pre, d, s, r, rfl, rfl, found⟩
      · rw [found]
        by_cases side : c = b
        · subst side
          rw [get?_fork_shared]
          cases c <;> simp
        · have flipped : c = !b := by cases b <;> cases c <;> simp_all
          subst flipped
          rw [get?_fork_diverge]
          simp [get?]
      · rw [found]
        have none : (fork ((pre ++ d :: s) ++ b :: l) left right).get? (pre ++ (!d) :: r) = none := by
          simpa using get?_fork_diverge pre d (s ++ b :: l) r left right
        rw [none]
        simp

theorem All.branch (shared : List Bool) (bit : Bool) (allNew : new.All P) (allOld : old.All P) :
    (branch shared bit new old).All P := by
  unfold Trie.branch
  split
  · exact ⟨allOld, allNew⟩
  · exact ⟨allNew, allOld⟩

theorem insert_all (all : t.All P) (new : P value) (key : List Bool) : (t.insert value key).All P := by
  induction t generalizing key with
  | leaf label old =>
    simp only [insert]
    split
    · exact All.branch _ _ (by exact new) all
    · exact new
  | fork label left right ihLeft ihRight =>
    simp only [insert]
    split
    · exact All.branch _ _ (by exact new) all
    split
    · exact all
    split
    · exact ⟨all.1, ihRight all.2 _⟩
    · exact ⟨ihLeft all.1 _, all.2⟩

theorem All.imp {Q : Slice → Prop} (all : t.All P) (weaker : ∀ v, P v → Q v) : t.All Q := by
  induction t with
  | leaf label old => exact weaker _ all
  | fork label left right ihLeft ihRight => exact ⟨ihLeft all.1, ihRight all.2⟩

theorem All.get? (all : t.All P) {v : Slice} (found : t.get? key = some v) : P v := by
  induction t generalizing key with
  | leaf label old =>
    unfold Trie.get? at found
    split at found
    · cases found
      exact all
    · cases found
  | fork label left right ihLeft ihRight =>
    unfold Trie.get? at found
    split at found
    · cases found
    split at found
    · cases found
    split at found
    · exact ihRight all.2 found
    · exact ihLeft all.1 found

end Trie

section Refinement

variable {n : Nat}
variable {label key : List Bool} {m fuel : Nat} {t left right : Trie} {mode : SetMode} {value : Slice}

/-- A value without references that fits into a leaf behind any label of up to 256 bits. -/
def Small (v : Slice) : Prop := v.bits.length ≤ 500 ∧ v.refs = []

/-- The limits of a single cell. -/
def Sized (cell : Cell) : Prop := cell.bits.length ≤ 1023 ∧ cell.refs.length ≤ 4 ∧ cell.depth ≤ 1024

instance (cell : Cell) : Decidable (Sized cell) := inferInstanceAs (Decidable (_ ∧ _))

theorem appendLabel_length_wide (width : n ≤ 256) (short : label.length ≤ n) : (appendLabel label n).length ≤ 267 := by
  have count : bitLen n ≤ 9 := bitLen_le (by omega)
  have encoded := appendLabel_length_le label n
  omega

theorem readNode_leaf (label : List Bool) (value : Slice) :
    readNode label.length ((Trie.leaf label value).toCell label.length) = .ok (label, value) := by
  simp [readNode, Trie.toCell, Cell.bits, Cell.refs, parseLabel_appendLabel]

theorem toCell_fork (label : List Bool) (left right : Trie) :
    (Trie.fork label left right).toCell (label.length + 1 + m) =
      .mk (appendLabel label (label.length + 1 + m)) [left.toCell m, right.toCell m] := by
  have below : label.length + 1 + m - label.length - 1 = m := by omega
  simp [Trie.toCell, below]

theorem readNode_fork (label : List Bool) (left right : Trie) :
    readNode (label.length + 1 + m) ((Trie.fork label left right).toCell (label.length + 1 + m)) =
      .ok (label, ⟨[], [left.toCell m, right.toCell m]⟩) := by
  have parsed := parseLabel_appendLabel (show label.length ≤ label.length + 1 + m by omega) []
  rw [List.append_nil] at parsed
  rw [toCell_fork]
  simp [readNode, Cell.bits, Cell.refs, parsed]

theorem buildCell_eq (bits : List Bool) (refs : List Cell) :
    buildCell bits refs = if Sized (.mk bits refs) then .ok (.mk bits refs) else .error .cellOv := rfl

/-- Every cell that `toCell` writes is within the limits of a cell. -/
def Trie.Fits : Nat → Trie → Prop
  | n, .leaf label value => Sized ((Trie.leaf label value).toCell n)
  | n, .fork label left right =>
    Sized ((Trie.fork label left right).toCell n) ∧ left.Fits (n - label.length - 1) ∧
      right.Fits (n - label.length - 1)

instance Trie.decidableFits : (n : Nat) → (t : Trie) → Decidable (t.Fits n)
  | n, .leaf label value => inferInstanceAs (Decidable (Sized ((Trie.leaf label value).toCell n)))
  | n, .fork label left right =>
    have := left.decidableFits (n - label.length - 1)
    have := right.decidableFits (n - label.length - 1)
    inferInstanceAs (Decidable (Sized ((Trie.fork label left right).toCell n) ∧
      left.Fits (n - label.length - 1) ∧ right.Fits (n - label.length - 1)))

theorem Trie.fits_fork (label : List Bool) (left right : Trie) :
    (Trie.fork label left right).Fits (label.length + 1 + m) ↔
      Sized ((Trie.fork label left right).toCell (label.length + 1 + m)) ∧ left.Fits m ∧ right.Fits m := by
  have below : label.length + 1 + m - label.length - 1 = m := by omega
  simp [Trie.Fits, below]

theorem Trie.Fits.sized (fits : t.Fits n) : Sized (t.toCell n) := by
  cases t with
  | leaf => exact fits
  | fork => exact fits.1

theorem Trie.depth_le (wf : t.WF n) (all : t.All Small) : t.depth ≤ n := by
  induction wf with
  | leaf label value => simp [depth, all.2, refsDepth]
  | fork label _ _ ihLeft ihRight =>
    have left := ihLeft all.1
    have right := ihRight all.2
    simp only [depth]
    omega

theorem Trie.fits_of_small (wf : t.WF n) (width : n ≤ 256) (all : t.All Small) : t.Fits n := by
  induction wf with
  | leaf label value =>
    have room := appendLabel_length_wide width le_rfl
    obtain ⟨bound, flat⟩ := all
    refine ⟨?_, ?_, ?_⟩
    · simp only [toCell, Cell.bits, List.length_append]
      omega
    · simp [toCell, Cell.refs, flat]
    · simp [depth, flat, refsDepth]
  | @fork m label left right wfLeft wfRight ihLeft ihRight =>
    have room := appendLabel_length_wide width (by omega : label.length ≤ _)
    have deep := depth_le (.fork label wfLeft wfRight) all
    refine (fits_fork label left right).mpr ⟨⟨?_, ?_, ?_⟩, ihLeft (by omega) all.1, ihRight (by omega) all.2⟩
    · simp only [toCell, Cell.bits]
      omega
    · simp [toCell, Cell.refs]
    · rw [depth_toCell]
      omega

/-- What writing a trie gives: its root, or an overflow of some cell. -/
def written (n : Nat) (t : Trie) : Outcome Cell :=
  if t.Fits n then .ok (t.toCell n) else .error .cellOv

theorem written_fits (fits : t.Fits n) : written n t = .ok (t.toCell n) := if_pos fits

theorem written_large (large : ¬ t.Fits n) : written n t = .error .cellOv := if_neg large

theorem written_leaf (n : Nat) (label : List Bool) (value : Slice) :
    buildCell (appendLabel label n ++ value.bits) value.refs = written n (.leaf label value) := rfl

theorem written_fork (label : List Bool) (fitsLeft : left.Fits m) (fitsRight : right.Fits m) :
    buildCell (appendLabel label (label.length + 1 + m)) [left.toCell m, right.toCell m] =
      written (label.length + 1 + m) (.fork label left right) := by
  rw [buildCell_eq, ← toCell_fork, written]
  simp [Trie.fits_fork, fitsLeft, fitsRight]

/-- A fork over a new and an old edge, with the new edge written first. -/
theorem written_branch (shared : List Bool) (bit : Bool) (new old : Trie) :
    (do let c1 ← written m new
        let c2 ← written m old
        buildCell (appendLabel shared (shared.length + 1 + m)) (if bit then [c2, c1] else [c1, c2])) =
      written (shared.length + 1 + m) (.branch shared bit new old) := by
  by_cases fits : new.Fits m ∧ old.Fits m
  · rw [written_fits fits.1, written_fits fits.2, ok_bind, ok_bind, Trie.branch]
    cases bit with
    | true => exact written_fork shared fits.2 fits.1
    | false => exact written_fork shared fits.1 fits.2
  · have large : ¬ (Trie.branch shared bit new old).Fits (shared.length + 1 + m) := by
      intro whole
      cases bit with
      | true => exact fits ((Trie.fits_fork shared old new).mp whole).2.symm
      | false => exact fits ((Trie.fits_fork shared new old).mp whole).2
    rw [written_large large]
    by_cases fitsNew : new.Fits m
    · rw [written_fits fitsNew, ok_bind, written_large (by tauto : ¬ old.Fits m)]
      rfl
    · rw [written_large fitsNew]
      rfl

/-- A fork over a changed child and the other child, which stays. -/
theorem written_side (label : List Bool) (bit : Bool) (changed : Trie) (fitsLeft : left.Fits m)
    (fitsRight : right.Fits m) :
    (do let c ← written m changed
        buildCell (appendLabel label (label.length + 1 + m))
          (if bit then [left.toCell m, c] else [c, right.toCell m])) =
      written (label.length + 1 + m)
        (if bit then .fork label left changed else .fork label changed right) := by
  cases bit with
  | true =>
    have whole := written_branch label true changed left (m := m)
    rwa [written_fits fitsLeft] at whole
  | false =>
    have whole := written_branch label false changed right (m := m)
    rwa [written_fits fitsRight] at whole

/-- Whether a mode lets an entry be written over a present or an absent one. -/
def SetMode.applies : SetMode → Bool → Bool
  | .set, _ => true
  | .replace, present => present
  | .add, present => !present

theorem SetMode.applies_absent (mode : SetMode) : mode.applies false = true ↔ mode ≠ .replace := by
  cases mode <;> simp [applies]

theorem SetMode.applies_present (mode : SetMode) : mode.applies true = true ↔ mode ≠ .add := by
  cases mode <;> simp [applies]

/-- What an insertion gives: a new root, no change, or an overflow. -/
def updated (mode : SetMode) (n : Nat) (present : Bool) (t : Trie) : Outcome (Option Cell) :=
  if mode.applies present then do
    let root ← written n t
    .ok (some root)
  else .ok none

/-- `dict_set` on an edge that the key leaves at bit `b`. -/
theorem dictSet_split {payload : Slice} {cell : Cell} {shared l : List Bool} {b : Bool} {old : Trie} (fuel : Nat)
    (read : readNode (shared ++ (!b) :: k).length cell = .ok (shared ++ b :: l, payload))
    (lower : buildCell (appendLabel l k.length ++ payload.bits) payload.refs = written k.length old) :
    dictSet mode value (fuel + 1) (some cell) (shared ++ (!b) :: k) =
      updated mode (shared.length + 1 + k.length) false (.branch shared (!b) (.leaf k value) old) := by
  have below : (shared ++ (!b) :: k).length - shared.length - 1 = k.length := by simp
  have total : (shared ++ (!b) :: k).length = shared.length + 1 + k.length := by simp; omega
  simp only [dictSet, read, ok_bind, commonLen_diverge, below]
  rw [if_pos (by simp), updated]
  by_cases absent : mode = .replace
  · rw [if_pos absent, if_neg (by simp [SetMode.applies_absent, absent])]
  · rw [if_neg absent, if_pos (by simp [SetMode.applies_absent, absent]), ← written_branch, total]
    simp [lower, written_leaf]

/-- `dict_set` on a fork that the key runs through. -/
theorem dictSet_descend {cell c1 c2 : Cell} {bit present : Bool} {child whole : Trie} (fuel : Nat)
    (read : readNode (label ++ bit :: rest).length cell = .ok (label, ⟨[], [c1, c2]⟩))
    (changed : dictSet mode value fuel (some (if bit then c2 else c1)) rest =
      updated mode rest.length present child)
    (joined : (do let c ← written rest.length child
                  buildCell (appendLabel label (label.length + 1 + rest.length))
                    (if bit then [c1, c] else [c, c2])) =
      written (label.length + 1 + rest.length) whole) :
    dictSet mode value (fuel + 1) (some cell) (label ++ bit :: rest) =
      updated mode (label.length + 1 + rest.length) present whole := by
  have total : (label ++ bit :: rest).length = label.length + 1 + rest.length := by simp; omega
  have more : ¬ label.length = (label ++ bit :: rest).length := by omega
  have width : label.length + (rest.length + 1) = label.length + 1 + rest.length := by omega
  simp only [dictSet, read, ok_bind, commonLen_append, lt_irrefl, if_false, more]
  simp only [updated, ← joined] at changed ⊢
  simp [Hashmap.child, changed]
  split
  · simp [width, bind_assoc]
  · rfl

/-- Insertion into the cells of a trie: exactly an overflow of the new trie is refused. -/
theorem dictSet_updated (wf : t.WF n) (fits : t.Fits n) (mode : SetMode) (value : Slice) (len : key.length = n)
    (enough : n < fuel) :
    dictSet mode value fuel (some (t.toCell n)) key = updated mode n (t.get? key).isSome (t.insert value key) := by
  induction wf generalizing key fuel with
  | leaf label old =>
    obtain ⟨fuel, rfl⟩ := exists_fuel enough
    rcases leaf_cases len with rfl | ⟨shared, b, l, k, rfl, rfl⟩
    · have present : ((Trie.leaf label old).get? label).isSome = true := by simp [Trie.get?]
      rw [Trie.insert_leaf_self, present]
      simp only [dictSet, readNode_leaf, ok_bind, commonLen_self, written_leaf, updated, SetMode.applies_present]
      simp
    · have same : k.length = l.length := by simpa using len
      have total : (shared ++ b :: l).length = shared.length + 1 + k.length := by simp; omega
      rw [total]
      have read : readNode (shared ++ (!b) :: k).length
          ((Trie.leaf (shared ++ b :: l) old).toCell (shared.length + 1 + k.length)) =
          .ok (shared ++ b :: l, old) := by
        rw [← total, len]
        exact readNode_leaf (shared ++ b :: l) old
      rw [Trie.insert_leaf_diverge, dictSet_split fuel read (written_leaf k.length l old)]
      simp [Trie.get?]
  | @fork m label left right wfLeft wfRight ihLeft ihRight =>
    obtain ⟨fuel, rfl⟩ := exists_fuel enough
    have read := readNode_fork (m := m) label left right
    obtain ⟨sized, fitsLeft, fitsRight⟩ := (Trie.fits_fork label left right).mp fits
    rcases fork_cases len with ⟨bit, rest, rfl, below⟩ | ⟨shared, b, l, k, rfl, rfl⟩
    · subst below
      rw [Trie.insert_fork_through, Trie.get?_fork_through]
      have joined := written_side label bit
        (if bit then right.insert value rest else left.insert value rest) fitsLeft fitsRight
      cases bit with
      | true => exact dictSet_descend fuel (by rw [len]; exact read) (ihRight fitsRight rfl (by omega)) joined
      | false => exact dictSet_descend fuel (by rw [len]; exact read) (ihLeft fitsLeft rfl (by omega)) joined
    · have same : k.length = l.length + 1 + m := by simp at len; omega
      have total : (shared ++ b :: l).length + 1 + m = shared.length + 1 + k.length := by simp; omega
      rw [total] at read ⊢
      rw [Trie.insert_fork_diverge, Trie.get?_fork_diverge]
      refine dictSet_split fuel (by rw [len, total]; exact read) ?_
      rw [List.append_nil, same]
      exact written_fork l fitsLeft fitsRight

theorem dictSet_absent (mode : SetMode) (value : Slice) (key : List Bool) (fuel : Nat) :
    dictSet mode value (fuel + 1) none key = updated mode key.length false (.leaf key value) := by
  cases mode <;> rfl

theorem dictSet_toCell (wf : t.WF n) (width : n ≤ 256) (all : t.All Small) (small : Small value) (len : key.length = n)
    (enough : n < fuel) :
    dictSet .set value fuel (some (t.toCell n)) key = .ok (some ((t.insert value key).toCell n)) := by
  have fits : (t.insert value key).Fits n :=
    Trie.fits_of_small (Trie.insert_wf wf value len) width (Trie.insert_all all small key)
  rw [dictSet_updated wf (Trie.fits_of_small wf width all) .set value len enough, updated, written_fits fits]
  rfl

theorem dictSet_none (small : Small value) (width : key.length ≤ 256) (fuel : Nat) :
    dictSet .set value (fuel + 1) none key = .ok (some ((Trie.leaf key value).toCell key.length)) := by
  have fits : (Trie.leaf key value).Fits key.length := Trie.fits_of_small (.leaf key value) width small
  rw [dictSet_absent, updated, written_fits fits]
  rfl

/-- `cell` is the root of a dictionary with `n`-bit keys and the content of a trie; `P` holds
of all its nodes. -/
inductive Reads (P : Cell → Prop) : Nat → Cell → Trie → Prop
  | leaf {cell : Cell} {label : List Bool} {value : Slice} (good : P cell)
      (read : readNode label.length cell = .ok (label, value)) :
      Reads P label.length cell (.leaf label value)
  | fork {m : Nat} {cell left right : Cell} {label : List Bool} {l r : Trie} (good : P cell)
      (read : readNode (label.length + 1 + m) cell = .ok (label, ⟨[], [left, right]⟩))
      (readsLeft : Reads P m left l) (readsRight : Reads P m right r) :
      Reads P (label.length + 1 + m) cell (.fork label l r)

section Reading

variable {P : Cell → Prop} {cell : Cell} {t : Trie}

theorem Reads.wf (reads : Reads P n cell t) : t.WF n := by
  induction reads with
  | leaf => exact .leaf _ _
  | fork _ _ _ _ ihLeft ihRight => exact .fork _ ihLeft ihRight

theorem reads_toCell (wf : t.WF n) : Reads (fun _ => True) n (t.toCell n) t := by
  induction wf with
  | leaf label value => exact .leaf trivial (readNode_leaf label value)
  | fork label _ _ ihLeft ihRight => exact .fork trivial (readNode_fork label _ _) ihLeft ihRight

/-- Lookup in a dictionary tree. -/
theorem Reads.dictLookup (reads : Reads P n cell t) {key : List Bool} (len : key.length = n)
    (enough : n < fuel) : dictLookup fuel cell key = .ok (t.get? key) := by
  induction reads generalizing key fuel with
  | @leaf cell label value _ read =>
    obtain ⟨fuel, rfl⟩ := exists_fuel enough
    rw [← len] at read
    rcases leaf_cases len with rfl | ⟨shared, b, l, k, rfl, rfl⟩
    · simp [Hashmap.dictLookup, read, commonLen_self, Trie.get?]
    · rw [Hashmap.dictLookup, read]
      simp [commonLen_diverge, Trie.get?]
  | @fork m cell left right label l r _ read _ _ ihLeft ihRight =>
    obtain ⟨fuel, rfl⟩ := exists_fuel enough
    rw [← len] at read
    rcases fork_cases len with ⟨bit, rest, rfl, below⟩ | ⟨shared, b, s, k, rfl, rfl⟩
    · rw [Hashmap.dictLookup, read, Trie.get?_fork_through]
      cases bit with
      | true => simpa [commonLen_append, child] using ihRight below (by omega)
      | false => simpa [commonLen_append, child] using ihLeft below (by omega)
    · rw [Hashmap.dictLookup, read, Trie.get?_fork_diverge]
      simp [commonLen_diverge]

end Reading

/-- Lookup in the cells of a trie. -/
theorem dictLookup_toCell (wf : t.WF n) (len : key.length = n) (enough : n < fuel) :
    dictLookup fuel (t.toCell n) key = .ok (t.get? key) :=
  (reads_toCell wf).dictLookup len enough

theorem udictGet?_toCell (wf : t.WF n) (key : Uint n) :
    udictGet? n (some (t.toCell n)) (key : Int) = .ok (t.get? (Uint.bits key)) := by
  simp only [udictGet?, storeUint_val]
  exact dictLookup_toCell wf (Uint.bits_length key) (Nat.lt_succ_self n)

theorem udictSet_toCell (wf : t.WF n) (width : n ≤ 256) (all : t.All Small) (small : Small value) (key : Uint n) :
    udictSet n (some (t.toCell n)) (key : Int) value = .ok (some ((t.insert value (Uint.bits key)).toCell n)) := by
  unfold udictSet
  rw [storeUint_val, ok_bind]
  exact dictSet_toCell wf width all small (Uint.bits_length key) (Nat.lt_succ_self n)

theorem udictSet_none (width : n ≤ 256) (small : Small value) (key : Uint n) :
    udictSet n none (key : Int) value = .ok (some ((Trie.leaf (Uint.bits key) value).toCell n)) := by
  unfold udictSet
  rw [storeUint_val, ok_bind, dictSet_none small (by simpa using width), Uint.bits_length]

end Refinement

end Tvm.Hashmap
