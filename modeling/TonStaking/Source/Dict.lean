import Mathlib.Data.Finmap
import TonStaking.Tvm.HashmapDelete
import TonStaking.Tvm.HashmapOrder

/-!
# Dictionary objects

`Dictionary` of `crypto/vm/dict.h` with the operations of `crypto/vm/dict.cpp`:
`lookup` (457-483), `set_gen` (1061-1072), `lookup_set_gen` (1090-1101),
`lookup_delete` (1189-1199) and the searches for extreme and nearest keys
(1278-1329). An operation that throws leaves the object as it was. What the
object should be is a finite map of keys of its width, as far as the map can be
stored in cells at all.
-/
namespace TonStaking.Source.Dict

open Tvm Tvm.Hashmap Trie

structure Dictionary where
  keyBits : Nat
  root : Option Cell

def maxKeyBits : Nat := 1023

/-- `Dictionary{n}`. -/
def Dictionary.empty (n : Nat) : Dictionary := ⟨n, none⟩

def Dictionary.forceValidate (d : Dictionary) : Outcome Unit :=
  if d.keyBits ≤ maxKeyBits then .ok () else .error .dictErr

def Dictionary.lookup (d : Dictionary) (key : List Bool) : Outcome (Option Slice) := do
  d.forceValidate
  match d.root with
  | some cell => if key.length ≠ d.keyBits then .ok none else dictLookup (d.keyBits + 1) cell key
  | none => .ok none

def Dictionary.set (d : Dictionary) (key : List Bool) (value : Slice) (mode : SetMode) :
    Outcome (Bool × Dictionary) := do
  d.forceValidate
  if key.length ≠ d.keyBits then .ok (false, d)
  else do
    let changed ← dictSet mode value (d.keyBits + 1) d.root key
    match changed with
    | some root => .ok (true, { d with root := some root })
    | none => .ok (false, d)

def Dictionary.lookupSet (d : Dictionary) (key : List Bool) (value : Slice) (mode : SetMode) :
    Outcome (Option Slice × Dictionary) := do
  d.forceValidate
  if key.length ≠ d.keyBits then .ok (none, d)
  else do
    let (old, changed) ← dictLookupSet mode value (d.keyBits + 1) d.root key
    match changed with
    | some root => .ok (old, { d with root := some root })
    | none => .ok (old, d)

def Dictionary.lookupDelete (d : Dictionary) (key : List Bool) : Outcome (Option Slice × Dictionary) := do
  d.forceValidate
  if key.length ≠ d.keyBits then .ok (none, d)
  else do
    let (old, root) ← dictLookupDelete (d.keyBits + 1) d.root key
    match old with
    | some old => .ok (some old, { d with root := root })
    | none => .ok (none, d)

def Dictionary.lookupNearestKey (d : Dictionary) (key : List Bool) (fetchNext allowEq invertFirst : Bool) :
    Outcome (Option (List Bool × Slice)) := do
  d.forceValidate
  match d.root with
  | some cell =>
    if key.length ≠ d.keyBits then .ok none
    else dictLookupNearest allowEq (d.keyBits + 1) cell key (.ordered fetchNext invertFirst)
  | none => .ok none

def Dictionary.getMinmaxKey (d : Dictionary) (keyLen : Nat) (fetchMax invertFirst : Bool) :
    Outcome (Option (List Bool × Slice)) := do
  d.forceValidate
  match d.root with
  | some cell =>
    if keyLen ≠ d.keyBits then .ok none
    else do
      let found ← dictLookupMinmax (d.keyBits + 1) cell keyLen (.ordered fetchMax invertFirst)
      .ok (some found)
  | none => .ok none

def Dictionary.extractMinmaxKey (d : Dictionary) (keyLen : Nat) (fetchMax invertFirst : Bool) :
    Outcome (Option (List Bool × Slice) × Dictionary) := do
  let found ← d.getMinmaxKey keyLen fetchMax invertFirst
  match found with
  | none => .ok (none, d)
  | some (key, value) => do
    let (_, root) ← dictLookupDelete (d.keyBits + 1) d.root key
    .ok (some (key, value), { d with root := root })

inductive Op where
  | set (key : List Bool) (value : Slice) (mode : SetMode)
  | lookupSet (key : List Bool) (value : Slice) (mode : SetMode)
  | lookupDelete (key : List Bool)

/-- A success flag, or the value that the key had before. -/
inductive Reply where
  | flag (done : Bool)
  | old (value : Option Slice)

def Dictionary.execute (d : Dictionary) : Op → Outcome (Reply × Dictionary)
  | .set key value mode => do
    let (done, d) ← d.set key value mode
    .ok (.flag done, d)
  | .lookupSet key value mode => do
    let (old, d) ← d.lookupSet key value mode
    .ok (.old old, d)
  | .lookupDelete key => do
    let (old, d) ← d.lookupDelete key
    .ok (.old old, d)

/-- The root is replaced at the end of an operation, so an exception leaves it. -/
def Dictionary.step (d : Dictionary) (op : Op) : Outcome Reply × Dictionary :=
  match d.execute op with
  | .ok (reply, d) => (.ok reply, d)
  | .error e => (.error e, d)

def Dictionary.run (d : Dictionary) : List Op → List (Outcome Reply) × Dictionary
  | [] => ([], d)
  | op :: ops =>
    let (reply, d) := d.step op
    let (replies, d) := d.run ops
    (reply :: replies, d)

section Content

/-- The finite map that a dictionary stands for. -/
abbrev Content := Finmap fun _ : List Bool => Slice

/-- `root` is a dictionary of `n`-bit keys with the given content. -/
def Holds (n : Nat) (root : Option Cell) (content : Content) : Prop :=
  ∃ t, Option.Rel (Reads Sized n) root t ∧ ∀ k, Trie.lookup t k = content.lookup k

/-- Some tree of cells is a dictionary with this content. -/
def Storable (n : Nat) (content : Content) : Prop := ∃ root, Holds n root content

def Op.reply (n : Nat) (content : Content) : Op → Reply
  | .set key _ mode => .flag (key.length = n && mode.applies (content.lookup key).isSome)
  | .lookupSet key _ _ => .old (content.lookup key)
  | .lookupDelete key => .old (content.lookup key)

def Op.update (n : Nat) (content : Content) : Op → Content
  | .set key value mode | .lookupSet key value mode =>
    if key.length = n && mode.applies (content.lookup key).isSome then content.insert key value
    else content
  | .lookupDelete key => content.erase key

open Classical in
/-- A finite map that refuses what no dictionary can hold. -/
noncomputable def Content.step (n : Nat) (content : Content) (op : Op) : Outcome Reply × Content :=
  if Storable n (op.update n content) then (.ok (op.reply n content), op.update n content)
  else (.error .cellOv, content)

noncomputable def Content.run (n : Nat) (content : Content) : List Op → List (Outcome Reply) × Content
  | [] => ([], content)
  | op :: ops =>
    let (reply, content) := Content.step n content op
    let (replies, content) := Content.run n content ops
    (reply :: replies, content)

end Content

section Tries

variable {n : Nat} {content : Content}
variable {t : Option Trie} {k key : List Bool}

/-- An optional trie with keys of `n` bits stands for the content. -/
structure Stands (n : Nat) (t : Option Trie) (content : Content) : Prop where
  wf : ∀ r ∈ t, r.WF n
  same : ∀ k, Trie.lookup t k = content.lookup k

theorem lookup_length (wf : ∀ r ∈ t, r.WF n) (other : k.length ≠ n) : lookup t k = none := by
  cases t with
  | none => rfl
  | some r =>
    by_contra found
    exact other ((wf r rfl).length_of_get? (Option.isSome_iff_ne_none.mpr found))

theorem Stands.length (stands : Stands n t content) (other : k.length ≠ n) : content.lookup k = none := by
  rw [← stands.same, lookup_length stands.wf other]

/-- A content has one trie. -/
theorem Stands.unique {t' : Option Trie} (stands : Stands n t content) (stands' : Stands n t' content) : t = t' := by
  have same (k : List Bool) : lookup t k = lookup t' k := by rw [stands.same, stands'.same]
  cases t with
  | none =>
    cases t' with
    | none => rfl
    | some r =>
      obtain ⟨k, -, found⟩ := (stands'.wf r rfl).exists_key
      have equal := same k
      simp only [lookup_some] at equal
      simp [← equal] at found
  | some r =>
    cases t' with
    | none =>
      obtain ⟨k, -, found⟩ := (stands.wf r rfl).exists_key
      have equal := same k
      simp only [lookup_some] at equal
      simp [equal] at found
    | some r' =>
      have wf := stands.wf r rfl
      have wf' := stands'.wf r' rfl
      rw [(wf.pair wf').ext fun k _ => same k]

theorem Holds.stands {root : Option Cell} (holds : Holds n root content) :
    ∃ t, Option.Rel (Reads Sized n) root t ∧ Stands n t content := by
  obtain ⟨t, rel, same⟩ := holds
  refine ⟨t, rel, ?_, same⟩
  cases rel with
  | none => simp
  | some reads =>
    rintro r ⟨⟩
    exact reads.wf

/-- A content can be stored exactly when the cells of its trie are within their limits. -/
theorem Stands.storable_iff (stands : Stands n t content) : Storable n content ↔ Trie.FitsRoot n t := by
  constructor
  · rintro ⟨root, holds⟩
    obtain ⟨t', rel, stands'⟩ := holds.stands
    rw [stands.unique stands']
    cases rel with
    | none => exact Trie.fitsRoot_none n
    | some reads => exact (fitsRoot_some _ _).mpr reads.fits
  · intro fits
    cases t with
    | none => exact ⟨none, none, .none, stands.same⟩
    | some r =>
      have reads := reads_sized (stands.wf r rfl) ((fitsRoot_some _ _).mp fits)
      exact ⟨some (r.toCell n), some r, .some reads, stands.same⟩

theorem Stands.insert (stands : Stands n t content) (value : Slice) (len : key.length = n) :
    Stands n (some (insertRoot value key t)) (content.insert key value) := by
  have wf : ∀ r ∈ some (insertRoot value key t), r.WF n := by
    rintro r ⟨⟩
    exact Trie.insertRoot_wf stands.wf value len
  refine ⟨wf, fun k => ?_⟩
  by_cases equal : k.length = n
  · rw [lookup_some, Trie.get?_insertRoot stands.wf value len equal]
    by_cases same : k = key
    · rw [if_pos same, same, Finmap.lookup_insert]
    · rw [if_neg same, Finmap.lookup_insert_of_ne _ same, stands.same]
  · have other : k ≠ key := by
      rintro rfl
      exact equal len
    rw [lookup_length wf equal, Finmap.lookup_insert_of_ne _ other, stands.length equal]

theorem Stands.erase {r : Trie} (stands : Stands n (some r) content) (len : key.length = n) :
    Stands n (r.erase key) (content.erase key) := by
  have wf := stands.wf r rfl
  refine ⟨erase_wf wf len, fun k => ?_⟩
  by_cases equal : k.length = n
  · rw [Trie.lookup_erase wf len equal]
    by_cases same : k = key
    · rw [if_pos same, same, Finmap.lookup_erase]
    · rw [if_neg same, Finmap.lookup_erase_ne same, ← stands.same, lookup_some]
  · have other : k ≠ key := by
      rintro rfl
      exact equal len
    rw [lookup_length (erase_wf wf len) equal, Finmap.lookup_erase_ne other, stands.length equal]

end Tries

def shortValue : Slice := ⟨[true], []⟩

/-- A value that fits into a leaf with an empty label only. -/
def longValue : Slice := ⟨List.replicate 1021 true, []⟩

/-- Two keys that part at their last bit, so that both leaves have empty labels. -/
def lastBitOps : List Op := [.set (bitsOf 16 1) shortValue .set, .set (bitsOf 16 0) longValue .set]

end TonStaking.Source.Dict
