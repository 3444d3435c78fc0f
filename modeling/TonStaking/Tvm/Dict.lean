import Mathlib.Algebra.Order.BigOperators.Group.List
import Mathlib.Tactic.Abel
import TonStaking.Tvm.Outcome

/-!
# Dictionaries with integer keys

A dictionary of `n`-bit keys that is always read and written with the same key
width is the finite map it encodes, listed by increasing key. The key order and
the key width are fields of the structure, so every value is a real dictionary.
The integer lookups follow `crypto/vm/dictops.cpp`: an index that does not fit
is absent from a lookup and a range error in a store, and the nearest-key
searches are strict.
-/
namespace Tvm

structure Dict (n : Nat) (V : Type) where
  entries : List (Nat × V)
  sorted : entries.Pairwise (fun a b => a.1 < b.1)
  bounded : ∀ e ∈ entries, e.1 < 2 ^ n

def insertEntry {V : Type} (k : Nat) (v : V) : List (Nat × V) → List (Nat × V)
  | [] => [(k, v)]
  | (j, w) :: rest =>
    if k < j then (k, v) :: (j, w) :: rest
    else if k = j then (k, v) :: rest
    else (j, w) :: insertEntry k v rest

section Entries

variable {V : Type} (k : Nat) (v : V) (l : List (Nat × V))

private theorem lookup_cons_ite (j : Nat) (w : V) (rest : List (Nat × V)) :
    List.lookup k ((j, w) :: rest) = if k = j then some w else rest.lookup k := by
  by_cases equal : k = j
  · simp [equal]
  · have different : (k == j) = false := by simpa using equal
    simp [List.lookup_cons, equal, different]

theorem mem_insertEntry {k : Nat} {v : V} {l : List (Nat × V)} {e : Nat × V}
    (h : e ∈ insertEntry k v l) : e = (k, v) ∨ e ∈ l := by
  induction l with
  | nil => simpa [insertEntry] using h
  | cons head rest ih =>
    unfold insertEntry at h
    split at h
    · simpa using h
    split at h
    · rcases List.mem_cons.mp h with rfl | member
      · exact .inl rfl
      · exact .inr (List.mem_cons_of_mem _ member)
    · rcases List.mem_cons.mp h with rfl | member
      · exact .inr (List.mem_cons_self ..)
      rcases ih member with rfl | old
      · exact .inl rfl
      · exact .inr (List.mem_cons_of_mem _ old)

theorem insertEntry_sorted (h : l.Pairwise (fun a b => a.1 < b.1)) :
    (insertEntry k v l).Pairwise (fun a b => a.1 < b.1) := by
  induction l with
  | nil => simp [insertEntry]
  | cons head rest ih =>
    obtain ⟨j, w⟩ := head
    have tail := List.pairwise_cons.mp h
    unfold insertEntry
    split
    · next below =>
      refine List.pairwise_cons.mpr ⟨?_, h⟩
      intro e member
      rcases List.mem_cons.mp member with rfl | later
      · exact below
      · exact lt_trans below (tail.1 e later)
    rename_i notBelow
    split
    · next equal =>
      subst equal
      exact List.pairwise_cons.mpr ⟨tail.1, tail.2⟩
    rename_i different
    refine List.pairwise_cons.mpr ⟨?_, ih tail.2⟩
    intro e member
    rcases mem_insertEntry member with rfl | old
    · show j < k
      omega
    · exact tail.1 e old

theorem lookup_insertEntry (h : l.Pairwise (fun a b => a.1 < b.1)) (j : Nat) :
    (insertEntry k v l).lookup j = if j = k then some v else l.lookup j := by
  induction l with
  | nil =>
    by_cases equal : j = k <;> simp [insertEntry, equal]
  | cons head rest ih =>
    obtain ⟨i, w⟩ := head
    have tail := List.pairwise_cons.mp h
    unfold insertEntry
    split
    · by_cases equal : j = k <;> simp [lookup_cons_ite]
    split
    · next equal =>
      subst equal
      by_cases same : j = k <;> simp [lookup_cons_ite, same]
    rename_i different
    by_cases here : j = i
    · subst here
      have other : ¬ j = k := by omega
      simp [other]
    · simp [lookup_cons_ite, here, ih tail.2]

/-- An unused key is a new entry. -/
theorem insertEntry_perm (unused : ∀ e ∈ l, e.1 ≠ k) :
    (insertEntry k v l).Perm ((k, v) :: l) := by
  induction l with
  | nil => exact List.Perm.refl _
  | cons head rest ih =>
    obtain ⟨j, w⟩ := head
    unfold insertEntry
    split
    · exact List.Perm.refl _
    split
    · next equal => exact absurd equal.symm (unused (j, w) (List.mem_cons_self ..))
    · have tail := ih fun e member => unused e (List.mem_cons_of_mem _ member)
      exact (List.Perm.cons (j, w) tail).trans (List.Perm.swap (k, v) (j, w) rest)

theorem lookup_eq_some_iff (l : List (Nat × V)) (h : l.Pairwise (fun a b => a.1 < b.1))
    (k : Nat) (v : V) : l.lookup k = some v ↔ (k, v) ∈ l := by
  induction l with
  | nil => simp
  | cons head rest ih =>
    obtain ⟨j, w⟩ := head
    have tail := List.pairwise_cons.mp h
    by_cases here : k = j
    · subst here
      have absent : (k, v) ∉ rest := fun member => lt_irrefl k (tail.1 (k, v) member)
      simp [absent, eq_comm]
    · simp [lookup_cons_ite, here, ih tail.2]

end Entries

namespace Dict

variable {n : Nat} {V : Type}
variable {a b d rest : Dict n V} {k fuel : Nat} {v : V} {pivot : Int}

def empty : Dict n V := ⟨[], List.Pairwise.nil, by simp⟩

variable (d)

def get? (k : Nat) : Option V := d.entries.lookup k

def set (k : Nat) (fits : k < 2 ^ n) (v : V) : Dict n V where
  entries := insertEntry k v d.entries
  sorted := insertEntry_sorted k v d.entries d.sorted
  bounded e member := by
    rcases mem_insertEntry member with rfl | old
    · exact fits
    · exact d.bounded e old

def erase (k : Nat) : Dict n V where
  entries := d.entries.filter fun e => e.1 ≠ k
  sorted := d.sorted.filter _
  bounded e member := d.bounded e (List.mem_filter.mp member).1

def filterKeys (p : Nat → Bool) : Dict n V where
  entries := d.entries.filter fun e => p e.1
  sorted := d.sorted.filter _
  bounded e member := d.bounded e (List.mem_filter.mp member).1

/-- `DICTUREMMIN`: the entry with the least key, and the rest. -/
def udictDeleteGetMin? : Option (Nat × V × Dict n V) :=
  match d.entries with
  | [] => none
  | e :: _ => some (e.1, e.2, d.erase e.1)

/-- `DICTUGET`. -/
def udictGet? (k : Int) : Option V := if 0 ≤ k then d.get? k.toNat else none

/-- `DICTUSETB`. -/
def udictSet (k : Int) (v : V) : Outcome (Dict n V) :=
  if h : 0 ≤ k ∧ k < 2 ^ n then .ok (d.set k.toNat (by zify; omega) v) else .error .rangeChk

/-- `DICTUGETPREV`: the greatest key strictly below the pivot. -/
def udictGetPrev? (pivot : Int) : Option (Nat × V) :=
  (d.entries.filter fun e => decide ((e.1 : Int) < pivot)).getLast?

/-- `DICTUGETNEXT`: the least key strictly above the pivot. -/
def udictGetNext? (pivot : Int) : Option (Nat × V) :=
  d.entries.find? fun e => decide (pivot < (e.1 : Int))

def keys : List Nat := d.entries.map Prod.fst

def sumBy {M : Type} [AddMonoid M] (f : Nat → V → M) : M :=
  (d.entries.map fun e => f e.1 e.2).sum

theorem ext_entries (same : a.entries = b.entries) : a = b := by
  cases a
  cases same
  rfl

theorem get?_eq_some_iff (k : Nat) (v : V) :
    d.get? k = some v ↔ (k, v) ∈ d.entries := lookup_eq_some_iff _ d.sorted _ _

/-- A dictionary is determined by its lookups. -/
theorem ext_get? (same : ∀ k, a.get? k = b.get? k) : a = b := by
  have distinct (d : Dict n V) : d.entries.Nodup := d.sorted.imp fun less equal => by
    rw [equal] at less
    exact lt_irrefl _ less
  have perm : a.entries.Perm b.entries := by
    rw [List.perm_ext_iff_of_nodup (distinct a) (distinct b)]
    rintro ⟨k, v⟩
    rw [← get?_eq_some_iff, ← get?_eq_some_iff, same k]
  apply ext_entries
  exact perm.eq_of_pairwise (fun x y _ _ less greater => absurd greater (lt_asymm less)) a.sorted b.sorted

theorem lt_of_get? {d : Dict n V} (h : d.get? k = some v) : k < 2 ^ n :=
  d.bounded _ ((d.get?_eq_some_iff k v).mp h)

@[simp] theorem get?_empty (k : Nat) : (empty : Dict n V).get? k = none := rfl

@[simp] theorem get?_set (k j : Nat) (fits : k < 2 ^ n) (v : V) :
    (d.set k fits v).get? j = if j = k then some v else d.get? j :=
  lookup_insertEntry k v d.entries d.sorted j

theorem set_set (k : Nat) (fits : k < 2 ^ n) (v w : V) : (d.set k fits v).set k fits w = d.set k fits w := by
  apply ext_get?
  intro j
  simp only [get?_set]
  split <;> rfl

theorem get?_filterKeys (p : Nat → Bool) (j : Nat) :
    (d.filterKeys p).get? j = if p j then d.get? j else none := by
  split
  · next kept =>
    apply Option.ext
    intro v
    rw [get?_eq_some_iff, get?_eq_some_iff]
    exact ⟨fun member => (List.mem_filter.mp member).1, fun member => List.mem_filter.mpr ⟨member, kept⟩⟩
  · next dropped =>
    cases found : (d.filterKeys p).get? j with
    | none => rfl
    | some v => exact absurd (List.mem_filter.mp (((d.filterKeys p).get?_eq_some_iff j v).mp found)).2 dropped

theorem get?_erase (k j : Nat) : (d.erase k).get? j = if j = k then none else d.get? j := by
  change (d.filterKeys fun j => j ≠ k).get? j = _
  rw [get?_filterKeys]
  by_cases equal : j = k <;> simp [equal]

variable {d}

/-- The least entry of a dictionary comes first, and the rest are the entries after it. -/
theorem udictDeleteGetMin?_some (h : d.udictDeleteGetMin? = some (k, v, rest)) :
    d.entries = (k, v) :: rest.entries := by
  unfold udictDeleteGetMin? at h
  split at h
  · cases h
  rename_i e tail first
  cases h
  have order := d.sorted
  rw [first] at order
  have later := (List.pairwise_cons.mp order).1
  have kept : d.entries.filter (fun x => x.1 ≠ e.1) = tail := by
    rw [first, List.filter_cons_of_neg (by simp), List.filter_eq_self]
    intro x member
    have := later x member
    simp only [decide_not, Bool.not_eq_eq_eq_not, Bool.not_true, decide_eq_false_iff_not]
    omega
  change d.entries = e :: d.entries.filter fun x => x.1 ≠ e.1
  rw [kept, first]

theorem udictDeleteGetMin?_none (h : d.udictDeleteGetMin? = none) : d.entries = [] := by
  unfold udictDeleteGetMin? at h
  split at h
  · next empty => exact empty
  · cases h

/-- The loop of a contract that forgets old records: keys below the bound are removed, the least first,
and the last removed key is remembered. -/
def dropBelow (bound : Int) : Nat → Dict n V → Nat → Dict n V × Nat
  | 0, d, last => (d, last)
  | fuel + 1, d, last =>
    match d.udictDeleteGetMin? with
    | none => (d, last)
    | some (i, _, rest) => if (i : Int) < bound then dropBelow bound fuel rest i else (d, last)

/-- The first kept key is not below the bound, so no later one is. -/
theorem filterKeys_of_least {bound : Int} (least : d.udictDeleteGetMin? = some (k, v, rest))
    (kept : ¬ (k : Int) < bound) :
    d.entries.filter (fun e => decide (bound ≤ (e.1 : Int))) = d.entries := by
  have split := udictDeleteGetMin?_some least
  have order := d.sorted
  rw [split] at order
  rw [split, List.filter_eq_self]
  intro e member
  rcases List.mem_cons.mp member with rfl | later
  · simpa using kept
  have above := (List.pairwise_cons.mp order).1 e later
  simp only [decide_eq_true_eq]
  omega

theorem dropBelow_fst (bound : Int) (fuel : Nat) (d : Dict n V) (last : Nat) (enough : d.entries.length ≤ fuel) :
    (dropBelow bound fuel d last).1 = d.filterKeys fun k => decide (bound ≤ (k : Int)) := by
  apply ext_entries
  change _ = d.entries.filter fun e => decide (bound ≤ (e.1 : Int))
  induction fuel generalizing d last with
  | zero =>
    have empty := List.length_eq_zero_iff.mp (Nat.le_zero.mp enough)
    rw [dropBelow, empty]
    rfl
  | succ fuel ih =>
    unfold dropBelow
    split
    · next none =>
      rw [udictDeleteGetMin?_none none]
      rfl
    rename_i i v rest least
    have split := udictDeleteGetMin?_some least
    rw [split, List.length_cons] at enough
    split
    · next old => rw [ih rest i (by omega), split, List.filter_cons_of_neg (by simpa using old)]
    · next kept => exact (filterKeys_of_least least kept).symm

/-- Exactly the keys below the bound are forgotten. -/
theorem get?_dropBelow (bound : Int) (d : Dict n V) (last k : Nat) :
    (dropBelow bound d.entries.length d last).1.get? k = if bound ≤ k then d.get? k else none := by
  rw [dropBelow_fst _ _ _ _ le_rfl, get?_filterKeys]
  simp

/-- The remembered key: the greatest removed one, or the old one if nothing was removed. -/
theorem dropBelow_snd (bound : Int) (fuel : Nat) (d : Dict n V) (last : Nat) (enough : d.entries.length ≤ fuel) :
    (∀ e ∈ d.entries, (e.1 : Int) < bound → e.1 ≤ (dropBelow bound fuel d last).2) ∧
      ((dropBelow bound fuel d last).2 = last ∨
        ∃ e ∈ d.entries, e.1 = (dropBelow bound fuel d last).2 ∧ (e.1 : Int) < bound) := by
  induction fuel generalizing d last with
  | zero =>
    have empty := List.length_eq_zero_iff.mp (Nat.le_zero.mp enough)
    rw [dropBelow, empty]
    exact ⟨by simp, .inl rfl⟩
  | succ fuel ih =>
    unfold dropBelow
    split
    · next none =>
      rw [udictDeleteGetMin?_none none]
      exact ⟨by simp, .inl rfl⟩
    rename_i i v rest least
    have split := udictDeleteGetMin?_some least
    have order := d.sorted
    rw [split] at order enough ⊢
    have above := (List.pairwise_cons.mp order).1
    split
    · next old =>
      obtain ⟨covered, origin⟩ := ih rest i (by simpa using enough)
      have first : i ≤ (dropBelow bound fuel rest i).2 := by
        rcases origin with same | ⟨e, member, same, -⟩
        · exact same.ge
        · rw [← same]
          exact (above e member).le
      refine ⟨?_, .inr ?_⟩
      · intro e member below
        rcases List.mem_cons.mp member with rfl | later
        · exact first
        · exact covered e later below
      · rcases origin with same | ⟨e, member, same, below⟩
        · exact ⟨(i, v), by simp, same.symm, old⟩
        · exact ⟨e, List.mem_cons_of_mem _ member, same, below⟩
    · next kept =>
      refine ⟨?_, .inl rfl⟩
      intro e member below
      rcases List.mem_cons.mp member with rfl | later
      · exact absurd below kept
      · have := above e later
        omega

theorem dropBelow_lt (bound : Int) {last : Nat} (enough : d.entries.length ≤ fuel) (fits : last < 2 ^ n) :
    (dropBelow bound fuel d last).2 < 2 ^ n := by
  rcases (dropBelow_snd bound fuel d last enough).2 with same | ⟨e, member, same, -⟩
  · rw [same]
    exact fits
  · rw [← same]
    exact d.bounded e member

/-- Storing under an unused key keeps every entry. -/
theorem get?_set_unused {j : Nat} (fits : k < 2 ^ n) {w : V} (unused : d.get? k = none) (found : d.get? j = some w) :
    (d.set k fits v).get? j = some w := by
  have different : j ≠ k := by
    intro equal
    rw [equal, unused] at found
    cases found
  rw [get?_set, if_neg different, found]

theorem mem_keys_iff (d : Dict n V) (k : Nat) : k ∈ d.keys ↔ (d.get? k).isSome := by
  constructor
  · intro member
    obtain ⟨e, found, rfl⟩ := List.mem_map.mp member
    rw [(d.get?_eq_some_iff e.1 e.2).mpr found]
    rfl
  · intro some
    obtain ⟨v, found⟩ := Option.isSome_iff_exists.mp some
    exact List.mem_map.mpr ⟨(k, v), (d.get?_eq_some_iff k v).mp found, rfl⟩

@[simp] theorem udictGet?_natCast (d : Dict n V) (k : Nat) : d.udictGet? (k : Int) = d.get? k := by
  simp [udictGet?]

theorem udictGet?_some {k : Int} (h : d.udictGet? k = some v) : 0 ≤ k ∧ d.get? k.toNat = some v := by
  unfold udictGet? at h
  split at h
  · exact ⟨by assumption, h⟩
  · cases h

theorem udictSet_success {e : Dict n V} {k : Int} (h : d.udictSet k v = .ok e) :
    ∃ fits : k.toNat < 2 ^ n, e = d.set k.toNat fits v := by
  unfold udictSet at h
  split at h
  · exact ⟨_, (Except.ok.inj h).symm⟩
  · cases h

theorem udictSet_natCast (d : Dict n V) (k : Nat) (fits : k < 2 ^ n) (v : V) :
    d.udictSet (k : Int) v = .ok (d.set k fits v) := by
  have range : (0 : Int) ≤ k ∧ (k : Int) < 2 ^ n := ⟨Int.natCast_nonneg k, by exact_mod_cast fits⟩
  unfold udictSet
  rw [dif_pos range]
  rfl

theorem udictSet_errorsIn {allowed : Exc → Prop} (ok : allowed .rangeChk) (d : Dict n V) (k : Int)
    (v : V) : ErrorsIn allowed (d.udictSet k v) := by
  unfold udictSet
  split
  · exact errorsIn_ok _
  intro e h
  cases h
  exact ok

theorem udictGetNext?_some (h : d.udictGetNext? pivot = some (k, v)) : pivot < k ∧ d.get? k = some v := by
  refine ⟨by simpa using List.find?_some h, ?_⟩
  exact (d.get?_eq_some_iff k v).mpr (List.mem_of_find?_eq_some h)

theorem udictGetNext?_least (h : d.udictGetNext? pivot = some (k, v)) (j : Nat) (above : pivot < j) (below : j < k) :
    d.get? j = none := by
  obtain ⟨-, before, after, split, passed⟩ := List.find?_eq_some_iff_append.mp h
  cases found : d.get? j with
  | none => rfl
  | some w =>
    have inside := (d.get?_eq_some_iff j w).mp found
    have order := d.sorted
    rw [split] at inside order
    rcases List.mem_append.mp inside with earlier | later
    · have skipped := passed _ earlier
      simp [above] at skipped
    · rcases List.mem_cons.mp later with equal | behind
      · cases equal
        omega
      · have := (List.pairwise_cons.mp (List.pairwise_append.mp order).2.1).1 _ behind
        omega

theorem udictGetNext?_none (h : d.udictGetNext? pivot = none) (k : Nat) (above : pivot < k) : d.get? k = none := by
  cases found : d.get? k with
  | none => rfl
  | some v =>
    have absent := List.find?_eq_none.mp h _ ((d.get?_eq_some_iff k v).mp found)
    simp [above] at absent

theorem udictGetPrev?_some (h : d.udictGetPrev? pivot = some (k, v)) :
    (k : Int) < pivot ∧ d.get? k = some v ∧ ∀ j, k < j → (j : Int) < pivot → d.get? j = none := by
  obtain ⟨before, split⟩ := List.getLast?_eq_some_iff.mp h
  have member : (k, v) ∈ d.entries.filter fun e => decide ((e.1 : Int) < pivot) := by simp [split]
  have held := List.mem_filter.mp member
  refine ⟨by simpa using held.2, (d.get?_eq_some_iff k v).mpr held.1, ?_⟩
  intro j above below
  cases found : d.get? j with
  | none => rfl
  | some w =>
    have inside : (j, w) ∈ d.entries.filter fun e => decide ((e.1 : Int) < pivot) :=
      List.mem_filter.mpr ⟨(d.get?_eq_some_iff j w).mp found, by simpa using below⟩
    have order := d.sorted.filter fun e => decide ((e.1 : Int) < pivot)
    rw [split] at inside order
    rcases List.mem_append.mp inside with earlier | last
    · have := (List.pairwise_append.mp order).2.2 _ earlier (k, v) (by simp)
      omega
    · have : j = k := by simpa using congrArg Prod.fst (List.mem_singleton.mp last)
      omega

theorem udictGetPrev?_none (h : d.udictGetPrev? pivot = none) (k : Nat) (below : (k : Int) < pivot) :
    d.get? k = none := by
  cases found : d.get? k with
  | none => rfl
  | some v =>
    have inside : (k, v) ∈ d.entries.filter fun e => decide ((e.1 : Int) < pivot) :=
      List.mem_filter.mpr ⟨(d.get?_eq_some_iff k v).mp found, by simpa using below⟩
    rw [List.getLast?_eq_none_iff.mp h] at inside
    cases inside

theorem udictGetPrev?_eq (below : (k : Int) < pivot) (found : d.get? k = some v)
    (greatest : ∀ j, k < j → (j : Int) < pivot → d.get? j = none) :
    d.udictGetPrev? pivot = some (k, v) := by
  cases search : d.udictGetPrev? pivot with
  | none =>
    rw [udictGetPrev?_none search k below] at found
    cases found
  | some e =>
    obtain ⟨j, w⟩ := e
    obtain ⟨jBelow, jFound, jGreatest⟩ := udictGetPrev?_some search
    rcases Nat.lt_trichotomy j k with less | equal | more
    · rw [jGreatest k less below] at found
      cases found
    · subst equal
      rw [found] at jFound
      cases jFound
      rfl
    · rw [greatest j more jBelow] at jFound
      cases jFound

section Walk

/-- Number of keys above the pivot: what a walk by `udictGetNext?` has not visited yet. -/
def remaining (d : Dict n V) (pivot : Int) : Nat :=
  (d.keys.filter fun k : Nat => decide (pivot < (k : Int))).length

theorem remaining_le (d : Dict n V) (pivot : Int) : d.remaining pivot ≤ d.entries.length := by
  refine le_trans (List.length_filter_le _ _) ?_
  simp [keys]

/-- Each step of a walk leaves fewer keys. -/
theorem remaining_next (h : d.udictGetNext? pivot = some (k, v)) : d.remaining k < d.remaining pivot := by
  obtain ⟨above, found⟩ := udictGetNext?_some h
  have smaller : (d.keys.filter fun j : Nat => decide ((k : Int) < (j : Int))).Sublist
      (d.keys.filter fun j : Nat => decide (pivot < (j : Int))) := by
    apply List.monotone_filter_right
    intro j later
    simp only [decide_eq_true_eq] at later ⊢
    omega
  apply lt_of_le_of_ne smaller.length_le
  intro equal
  -- the key of this step is among the keys above the pivot but not above itself
  have member : k ∈ d.keys.filter fun j : Nat => decide (pivot < (j : Int)) := by
    rw [List.mem_filter, mem_keys_iff, found]
    exact ⟨rfl, by simpa using above⟩
  rw [← smaller.eq_of_length equal] at member
  simpa using (List.mem_filter.mp member).2

section Loops

variable {S : Type}
variable {before after : List (Nat × V)} {stop : Nat → V → Bool}

/-- A loop over all keys in increasing order:
`do { (k, v, f) = d.udict_get_next?(n, k); if (f) { .. } } until (~ f)`. -/
def walk (d : Dict n V) (body : S → Nat → V → Outcome S) : Nat → Int → S → Outcome S
  | 0, _, s => .ok s
  | fuel + 1, pivot, s =>
    match d.udictGetNext? pivot with
    | none => .ok s
    | some (k, v) => do
      let s ← body s k v
      walk d body fuel k s

/-- The same loop when it ends at the first entry that is looked for. -/
def seek (d : Dict n V) (stop : Nat → V → Bool) : Nat → Int → Option (Nat × V)
  | 0, _ => none
  | fuel + 1, pivot =>
    match d.udictGetNext? pivot with
    | none => none
    | some (k, v) => if stop k v then some (k, v) else seek d stop fuel k

/-- A loop that starts below every key. -/
def forEach (d : Dict n V) (body : S → Nat → V → Outcome S) (s : S) : Outcome S :=
  d.walk body d.entries.length (-1) s

def findFirst (d : Dict n V) (stop : Nat → V → Bool) : Option (Nat × V) :=
  d.seek stop d.entries.length (-1)

theorem udictGetNext?_split (split : d.entries = before ++ after) (passed : ∀ e ∈ before, (e.1 : Int) ≤ pivot)
    (ahead : ∀ e ∈ after, pivot < (e.1 : Int)) : d.udictGetNext? pivot = after.head? := by
  unfold udictGetNext?
  rw [split, List.find?_append]
  have none : before.find? (fun e => decide (pivot < (e.1 : Int))) = none := by
    rw [List.find?_eq_none]
    intro e member
    simpa using passed e member
  rw [none, Option.none_or]
  cases after with
  | nil => rfl
  | cons e rest =>
    rw [List.find?_cons_of_pos (by simpa using ahead e (List.mem_cons_self ..))]
    rfl

private theorem walk_split (d : Dict n V) (body : S → Nat → V → Outcome S) (split : d.entries = before ++ after)
    (passed : ∀ e ∈ before, (e.1 : Int) ≤ pivot) (ahead : ∀ e ∈ after, pivot < (e.1 : Int)) (s : S) :
    d.walk body after.length pivot s = after.foldlM (fun s e => body s e.1 e.2) s := by
  induction after generalizing before pivot s with
  | nil => rfl
  | cons e rest ih =>
    have order := d.sorted
    rw [split] at order
    have above := (List.pairwise_cons.mp (List.pairwise_append.mp order).2.1).1
    have here := ahead e (List.mem_cons_self ..)
    rw [List.length_cons, walk, udictGetNext?_split split passed ahead, List.foldlM_cons]
    simp only [List.head?_cons]
    cases body s e.1 e.2 with
    | error exc => rfl
    | ok next =>
      apply ih (by rw [split, List.append_cons])
      · intro x member
        rcases List.mem_append.mp member with earlier | last
        · exact le_of_lt (lt_of_le_of_lt (passed x earlier) here)
        · rw [List.mem_singleton.mp last]
      · intro x member
        exact_mod_cast above x member

/-- A loop over all keys runs through the entries. -/
theorem forEach_eq (d : Dict n V) (body : S → Nat → V → Outcome S) (s : S) :
    d.forEach body s = d.entries.foldlM (fun s e => body s e.1 e.2) s :=
  walk_split d body (List.nil_append _).symm (by simp) (fun e _ => by omega) s

/-- The body of a loop that stores what is made of the entries. -/
def collect {W : Type} (f : V → Option W) (a : Dict n W) (k : Nat) (v : V) : Outcome (Dict n W) :=
  match f v with
  | none => .ok a
  | some w => a.udictSet k w

theorem forEach_collect {W : Type} (f : V → Option W) (d : Dict n V) :
    ∃ e : Dict n W, d.forEach (collect f) empty = .ok e ∧ ∀ k, e.get? k = (d.get? k).bind f := by
  suffices collected : ∀ (l : List (Nat × V)) (a : Dict n W), l.Pairwise (fun x y => x.1 < y.1) →
      (∀ x ∈ l, x.1 < 2 ^ n) → ∃ e : Dict n W, l.foldlM (fun a x => collect f a x.1 x.2) a = .ok e ∧
        ∀ k, e.get? k = ((l.lookup k).bind f).or (a.get? k) by
    obtain ⟨e, done, entries⟩ := collected d.entries empty d.sorted d.bounded
    exact ⟨e, (forEach_eq d _ _).trans done, fun k => (entries k).trans Option.or_none⟩
  intro l
  induction l with
  | nil => exact fun a _ _ => ⟨a, rfl, fun k => rfl⟩
  | cons x rest ih =>
    intro a sorted bounded
    obtain ⟨above, sorted⟩ := List.pairwise_cons.mp sorted
    obtain ⟨fits, bounded⟩ := List.forall_mem_cons.mp bounded
    have fresh : rest.lookup x.1 = none :=
      List.lookup_eq_none_iff.mpr fun e member => by simpa using (above e member).ne
    obtain ⟨next, stored, changed⟩ : ∃ next, collect f a x.1 x.2 = .ok next ∧
        ∀ k, next.get? k = if k = x.1 then (f x.2).or (a.get? k) else a.get? k := by
      unfold collect
      cases f x.2 with
      | none => exact ⟨a, rfl, fun k => (ite_self _).symm⟩
      | some w => exact ⟨_, udictSet_natCast a x.1 fits w, fun k => get?_set a x.1 k fits w⟩
    obtain ⟨e, done, entries⟩ := ih next sorted bounded
    refine ⟨e, by rw [List.foldlM_cons, stored]; exact done, fun k => ?_⟩
    rw [entries k, changed k, lookup_cons_ite]
    by_cases here : k = x.1
    · simp [here, fresh]
    · simp [here]

private theorem seek_some (found : d.seek stop fuel pivot = some (k, v)) :
    d.get? k = some v ∧ stop k v = true := by
  induction fuel generalizing pivot with
  | zero => cases found
  | succ fuel ih =>
    unfold seek at found
    split at found
    · cases found
    rename_i j w next
    split at found
    · next stops =>
      cases found
      exact ⟨(udictGetNext?_some next).2, stops⟩
    · exact ih found

theorem findFirst_some (found : d.findFirst stop = some (k, v)) :
    d.get? k = some v ∧ stop k v = true := seek_some found

end Loops

/-- Storing under a used key leaves the keys as they are. -/
theorem keys_set_used (fits : k < 2 ^ n) (v : V) (used : (d.get? k).isSome) :
    (d.set k fits v).keys = d.keys := by
  have order (d : Dict n V) : d.keys.Pairwise (· < ·) := List.pairwise_map.mpr d.sorted
  have perm : (d.set k fits v).keys.Perm d.keys := by
    rw [List.perm_ext_iff_of_nodup ((order _).imp Nat.ne_of_lt) ((order _).imp Nat.ne_of_lt)]
    intro j
    rw [mem_keys_iff, mem_keys_iff, get?_set]
    split
    · next here => simp [here, used]
    · rfl
  exact perm.eq_of_pairwise (fun _ _ _ _ less greater => absurd greater (Nat.lt_asymm less)) (order _) (order _)

end Walk

section Sums

variable {M : Type} (d) (f g : Nat → V → M)

private theorem sum_insertEntry [AddCommGroup M] (k : Nat) (v : V)
    (l : List (Nat × V)) (h : l.Pairwise (fun a b => a.1 < b.1)) :
    ((insertEntry k v l).map fun e => f e.1 e.2).sum =
      (l.map fun e => f e.1 e.2).sum + f k v - ((l.lookup k).map (f k)).getD 0 := by
  induction l with
  | nil => simp [insertEntry]
  | cons head rest ih =>
    obtain ⟨j, w⟩ := head
    have tail := List.pairwise_cons.mp h
    have missing : ∀ i, i ≤ j → rest.lookup i = none := by
      intro i le
      exact List.lookup_eq_none_iff.mpr fun e member => by simpa using (lt_of_le_of_lt le (tail.1 e member)).ne
    unfold insertEntry
    split
    · next below =>
      have other : ¬ k = j := by omega
      simp [lookup_cons_ite, other, missing k (by omega)]
      abel
    · split
      · next equal =>
        subst equal
        simp
        abel
      · next different =>
        simp [lookup_cons_ite, different, ih tail.2]
        abel

/-- Storing an entry changes a sum by the new entry minus the one it replaces. -/
theorem sumBy_set [AddCommGroup M] (k : Nat) (fits : k < 2 ^ n) (v : V) :
    (d.set k fits v).sumBy f = d.sumBy f + f k v - ((d.get? k).map (f k)).getD 0 :=
  sum_insertEntry f k v d.entries d.sorted

theorem sumBy_set_le [AddCommGroup M] [PartialOrder M] [IsOrderedAddMonoid M] {f : Nat → V → M}
    (nonneg : ∀ k v, 0 ≤ f k v) (k : Nat) (fits : k < 2 ^ n) (v : V) : (d.set k fits v).sumBy f ≤ d.sumBy f + f k v := by
  rw [sumBy_set, sub_le_self_iff]
  cases d.get? k with
  | none => exact le_rfl
  | some old => exact nonneg k old

/-- Removal of a key takes its entry out of a sum. -/
theorem sumBy_erase [AddCommGroup M]
    (found : d.get? k = some v) : (d.erase k).sumBy f = d.sumBy f - f k v := by
  have again : (d.erase k).set k (lt_of_get? found) v = d := by
    apply ext_get?
    intro j
    rw [get?_set, get?_erase]
    split
    · next here => rw [here, found]
    · rfl
  have sum := (d.erase k).sumBy_set f k (lt_of_get? found) v
  rw [again, get?_erase, if_pos rfl] at sum
  rw [sum]
  simp

/-- A sum over the entries that pass a test. -/
theorem sumBy_filterKeys [AddMonoid M] (p : Nat → Bool) :
    (d.filterKeys p).sumBy f = d.sumBy fun k v => if p k then f k v else 0 := by
  unfold sumBy filterKeys
  dsimp only
  induction d.entries with
  | nil => rfl
  | cons e rest ih =>
    rw [List.filter_cons, List.map_cons, List.sum_cons, ← ih]
    split
    · simp
    · simp

theorem sumBy_congr [AddMonoid M]
    (same : ∀ k v, d.get? k = some v → f k v = g k v) : d.sumBy f = d.sumBy g := by
  unfold sumBy
  congr 1
  apply List.map_congr_left
  intro e member
  exact same e.1 e.2 ((d.get?_eq_some_iff e.1 e.2).mpr member)

theorem sumBy_zero [AddMonoid M] : (d.sumBy fun _ _ => (0 : M)) = 0 := by
  simp [sumBy]

theorem sumBy_le [AddCommMonoid M] [PartialOrder M] [IsOrderedAddMonoid M]
    (le : ∀ k v, d.get? k = some v → f k v ≤ g k v) : d.sumBy f ≤ d.sumBy g := by
  apply List.sum_le_sum
  intro e member
  exact le e.1 e.2 ((d.get?_eq_some_iff e.1 e.2).mpr member)

theorem le_sumBy [AddCommMonoid M] [PartialOrder M] [IsOrderedAddMonoid M]
    (nonneg : ∀ k v, 0 ≤ f k v) (found : d.get? k = some v) :
    f k v ≤ d.sumBy f := by
  apply List.single_le_sum
  · intro x member
    obtain ⟨e, -, rfl⟩ := List.mem_map.mp member
    exact nonneg e.1 e.2
  · exact List.mem_map.mpr ⟨(k, v), (d.get?_eq_some_iff k v).mp found, rfl⟩

theorem map_sumBy [AddMonoid M] {N : Type} [AddMonoid N] (φ : M →+ N) :
    φ (d.sumBy f) = d.sumBy fun k v => φ (f k v) := by
  unfold sumBy
  rw [map_list_sum, List.map_map]
  rfl

theorem sumBy_add [AddCommMonoid M] :
    d.sumBy (fun k v => f k v + g k v) = d.sumBy f + d.sumBy g := by
  exact List.sum_map_add

end Sums

end Dict

end Tvm
