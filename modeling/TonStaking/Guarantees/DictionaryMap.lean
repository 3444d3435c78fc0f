import TonStaking.Source.Dict

/-!
# A dictionary is a finite map with a canonical cell

A dictionary object should answer every operation as a finite map and end in a
root that depends on the map alone. It does so until an operation leads to a
map that no tree of cells can hold: that operation throws and changes nothing.
This is not limited to values that are too long. A deletion merges two edges,
and the node below them may have no room for the longer label.
-/
namespace TonStaking.Guarantees.DictionaryMap

open Tvm Tvm.Hashmap TonStaking.Source.Dict Dictionary

/-- The object holds the cells of the trie of a content. -/
structure Canonical (n : Nat) (d : Dictionary) (content : Content) (t : Option Trie) : Prop where
  width : d.keyBits = n
  valid : n ≤ maxKeyBits
  stands : Stands n t content
  fits : Trie.FitsRoot n t
  root : d.root = t.map (·.toCell n)

variable {n : Nat} {d : Dictionary} {content : Content} {t : Option Trie} {op : Op} {key : List Bool}

theorem canonical_empty (valid : n ≤ maxKeyBits) : Canonical n (.empty n) ∅ none where
  width := rfl
  valid := valid
  stands := ⟨by simp, fun k => rfl⟩
  fits := Trie.fitsRoot_none n
  root := rfl

namespace Canonical

variable (canonical : Canonical n d content t)
include canonical

theorem forceValidate : d.forceValidate = .ok () := by
  rw [Dictionary.forceValidate, canonical.width, if_pos canonical.valid]

theorem storable : Storable n content :=
  canonical.stands.storable_iff.mpr canonical.fits

theorem reads : Option.Rel (Reads Sized n) d.root t := by
  rw [canonical.root]
  cases t with
  | none => exact .none
  | some r => exact .some (reads_sized (canonical.stands.wf r rfl) (canonical.fits r rfl))

theorem lookup (k : List Bool) : d.lookup k = .ok (content.lookup k) := by
  rw [Dictionary.lookup, canonical.forceValidate, ok_bind, canonical.width, canonical.root, ← canonical.stands.same]
  cases t with
  | none => rfl
  | some r =>
    simp only [Option.map_some]
    by_cases len : k.length = n
    · rw [if_neg (by simpa using len), Trie.lookup_some]
      exact dictLookup_toCell (canonical.stands.wf r rfl) len (Nat.lt_succ_self n)
    · rw [if_pos len, lookup_length canonical.stands.wf len]

open Classical in
/-- An insertion by the content: the only exception is an overflow. -/
theorem dictSet (mode : SetMode) (value : Slice)
    (len : key.length = n) :
    dictSet mode value (n + 1) d.root key =
      if mode.applies (content.lookup key).isSome then
        if Storable n (content.insert key value) then .ok (some ((Trie.insertRoot value key t).toCell n))
        else .error .cellOv
      else .ok none := by
  rw [canonical.root, dictSet_root canonical.stands.wf canonical.fits mode value len, updated,
    canonical.stands.same, written]
  have room := (canonical.stands.insert value len).storable_iff
  rw [Trie.fitsRoot_some] at room
  split
  · by_cases fits : (Trie.insertRoot value key t).Fits n
    · rw [if_pos fits, if_pos (room.mpr fits)]
      rfl
    · rw [if_neg fits, if_neg (fun storable => fits (room.mp storable))]
      rfl
  · rfl

theorem insert (value : Slice)
    (len : key.length = n) (storable : Storable n (content.insert key value)) :
    Canonical n { d with root := some ((Trie.insertRoot value key t).toCell n) } (content.insert key value)
      (some (Trie.insertRoot value key t)) where
  width := canonical.width
  valid := canonical.valid
  stands := canonical.stands.insert value len
  fits := (canonical.stands.insert value len).storable_iff.mp storable
  root := rfl

end Canonical

/-- The object after an operation is the canonical one of the finite map after it. -/
def Agrees (n : Nat) (d : Dictionary) (content : Content) (op : Op) : Prop :=
  (d.step op).1 = (Content.step n content op).1 ∧
    ∃ t, Canonical n (d.step op).2 (Content.step n content op).2 t

theorem step_storable (storable : Storable n (op.update n content)) :
    Content.step n content op = (.ok (op.reply n content), op.update n content) := if_pos storable

theorem agrees_unchanged (canonical : Canonical n d content t)
    (same : op.update n content = content) (done : d.execute op = .ok (op.reply n content, d)) :
    Agrees n d content op := by
  have storable : Storable n (op.update n content) := by
    rw [same]
    exact canonical.storable
  rw [Agrees, step_storable storable, step, done, same]
  exact ⟨rfl, t, canonical⟩

theorem agrees_changed (t' : Option Trie) {d' : Dictionary}
    (storable : Storable n (op.update n content)) (done : d.execute op = .ok (op.reply n content, d'))
    (canonical : Canonical n d' (op.update n content) t') : Agrees n d content op := by
  rw [Agrees, step_storable storable, step, done]
  exact ⟨rfl, t', canonical⟩

theorem agrees_overflow (canonical : Canonical n d content t)
    (large : ¬ Storable n (op.update n content)) (thrown : d.execute op = .error .cellOv) :
    Agrees n d content op := by
  rw [Agrees, Content.step, if_neg large, step, thrown]
  exact ⟨rfl, t, canonical⟩

/-- The object with a new root, if there is one. -/
def changeRoot (d : Dictionary) : Option Cell → Dictionary
  | some root => { d with root := some root }
  | none => d

section

variable (canonical : Canonical n d content t)
include canonical

/-- Both kinds of insertion, with the answer as a function of the success. -/
theorem agrees_insertion (value : Slice)
    (mode : SetMode) (len : key.length = n) (answer : Bool → Reply)
    (update : op.update n content =
      if mode.applies (content.lookup key).isSome then content.insert key value else content)
    (reply : op.reply n content = answer (mode.applies (content.lookup key).isSome))
    (executed : d.execute op = do
      let changed ← dictSet mode value (n + 1) d.root key
      .ok (answer changed.isSome, changeRoot d changed)) : Agrees n d content op := by
  rw [canonical.dictSet mode value len] at executed
  by_cases applies : mode.applies (content.lookup key).isSome
  · rw [if_pos applies] at executed update
    by_cases storable : Storable n (content.insert key value)
    · rw [if_pos storable, ok_bind, Option.isSome_some, ← applies, ← reply] at executed
      refine agrees_changed (some (Trie.insertRoot value key t)) (by rwa [update]) executed ?_
      rw [update]
      exact canonical.insert value len storable
    · rw [if_neg storable] at executed
      exact agrees_overflow canonical (by rwa [update]) executed
  · rw [if_neg applies] at executed update
    have refused : mode.applies (content.lookup key).isSome = false := by simpa using applies
    rw [ok_bind, Option.isSome_none, ← refused, ← reply] at executed
    exact agrees_unchanged canonical update executed

theorem agrees_set (key : List Bool) (value : Slice) (mode : SetMode) : Agrees n d content (.set key value mode) := by
  obtain rfl := canonical.width
  by_cases len : key.length = d.keyBits
  · refine agrees_insertion canonical value mode len .flag (by simp [Op.update, len])
      (by simp [Op.reply, len]) ?_
    simp only [execute, Dictionary.set, canonical.forceValidate, len, ne_eq]
    cases dictSet mode value (d.keyBits + 1) d.root key with
    | error e => rfl
    | ok changed => cases changed <;> rfl
  · refine agrees_unchanged canonical (by simp [Op.update, len]) ?_
    simp [execute, Dictionary.set, canonical.forceValidate, len, Op.reply]

theorem agrees_lookupSet (key : List Bool) (value : Slice)
    (mode : SetMode) : Agrees n d content (.lookupSet key value mode) := by
  obtain rfl := canonical.width
  by_cases len : key.length = d.keyBits
  · have replaced := dictLookupSet_root canonical.reads mode value len
    rw [canonical.stands.same] at replaced
    refine agrees_insertion canonical value mode len (fun _ => .old (content.lookup key))
      (by simp [Op.update, len]) rfl ?_
    simp only [execute, lookupSet, canonical.forceValidate, len, ne_eq, replaced]
    cases dictSet mode value (d.keyBits + 1) d.root key with
    | error e => rfl
    | ok changed => cases changed <;> rfl
  · have absent := canonical.stands.length len
    refine agrees_unchanged canonical (by simp [Op.update, len]) ?_
    simp [execute, lookupSet, canonical.forceValidate, len, Op.reply, absent]

theorem agrees_lookupDelete (key : List Bool) : Agrees n d content (.lookupDelete key) := by
  have missing (absent : content.lookup key = none) : content.erase key = content := by
    refine Finmap.ext_lookup fun k => ?_
    by_cases same : k = key
    · rw [same, Finmap.lookup_erase, absent]
    · rw [Finmap.lookup_erase_ne same]
  by_cases len : key.length = n
  · have executed : d.execute (.lookupDelete key) = (dictLookupDelete (n + 1) d.root key >>= fun r =>
        .ok (.old r.1, if r.1.isSome then { d with root := r.2 } else d)) := by
      simp only [execute, lookupDelete, canonical.forceValidate, canonical.width, ok_bind,
        len, ne_eq, not_true_eq_false, if_false]
      cases dictLookupDelete (n + 1) d.root key with
      | error e => rfl
      | ok deleted =>
        obtain ⟨old, root⟩ := deleted
        cases old <;> rfl
    have value := canonical.stands.same key
    have root := canonical.root
    cases t with
    | none =>
      have absent : content.lookup key = none := value.symm
      refine agrees_unchanged canonical (missing absent) ?_
      rw [executed, root, Op.reply, absent]
      rfl
    | some r =>
      have reads := reads_sized (canonical.stands.wf r rfl) (canonical.fits r rfl)
      obtain ⟨kept, deleted⟩ := reads.dictLookupDelete len (Nat.lt_succ_self n)
      rw [Option.map_some] at root
      rw [root] at executed
      cases found : content.lookup key with
      | none =>
        refine agrees_unchanged canonical (missing found) ?_
        rw [executed, kept (value.trans found), Op.reply, found]
        rfl
      | some v =>
        obtain ⟨written, refused⟩ := deleted v (value.trans found)
        have stands := canonical.stands.erase len
        by_cases fits : Trie.FitsRoot n (r.erase key)
        · obtain ⟨root', done, -, cells⟩ := written fits
          have changed : d.execute (.lookupDelete key) =
              .ok (Op.reply n content (.lookupDelete key), { d with root := root' }) := by
            rw [executed, done, Op.reply, found]
            rfl
          exact agrees_changed (r.erase key) (stands.storable_iff.mpr fits) changed
            ⟨canonical.width, canonical.valid, stands, fits, cells rfl⟩
        · refine agrees_overflow canonical (fun storable => fits (stands.storable_iff.mp storable)) ?_
          rw [executed, refused fits]
          rfl
  · have absent := canonical.stands.length len
    refine agrees_unchanged canonical (missing absent) ?_
    simp [execute, lookupDelete, canonical.forceValidate, canonical.width, len, Op.reply, absent]

theorem agrees_step (op : Op) : Agrees n d content op := by
  cases op with
  | set key value mode => exact agrees_set canonical key value mode
  | lookupSet key value mode => exact agrees_lookupSet canonical key value mode
  | lookupDelete key => exact agrees_lookupDelete canonical key

/-- The same along every sequence of operations. -/
theorem agrees_run (ops : List Op) :
    (d.run ops).1 = (Content.run n content ops).1 ∧
      ∃ t, Canonical n (d.run ops).2 (Content.run n content ops).2 t := by
  induction ops generalizing d content t with
  | nil => exact ⟨rfl, t, canonical⟩
  | cons op ops ih =>
    obtain ⟨reply, t1, next⟩ := agrees_step canonical op
    obtain ⟨replies, t2, last⟩ := ih next
    refine ⟨?_, t2, last⟩
    simp only [Dictionary.run, Content.run]
    rw [reply, replies]

end

/-- Every operation answers as a finite map, and every map has one root. An operation throws exactly
when no tree of cells can hold the map after it, and then it changes nothing. -/
theorem finite_map_canonical (n : Nat) (valid : n ≤ maxKeyBits) (ops : List Op) :
    ((Dictionary.empty n).run ops).1 = (Content.run n ∅ ops).1 ∧
      (∀ k, ((Dictionary.empty n).run ops).2.lookup k = .ok ((Content.run n ∅ ops).2.lookup k)) ∧
      ∀ others, (Content.run n ∅ others).2 = (Content.run n ∅ ops).2 →
        ((Dictionary.empty n).run others).2.root = ((Dictionary.empty n).run ops).2.root := by
  obtain ⟨replies, t, canonical⟩ := agrees_run (canonical_empty valid) ops
  refine ⟨replies, canonical.lookup, fun others same => ?_⟩
  obtain ⟨-, t', canonical'⟩ := agrees_run (canonical_empty valid) others
  rw [same] at canonical'
  rw [canonical.root, canonical'.root, canonical.stands.unique canonical'.stands]

theorem finite_map_canonical_lastBit : 16 ≤ maxKeyBits ∧
    ((Dictionary.empty 16).run (lastBitOps ++ [.lookupDelete (bitsOf 16 1)])).1 =
      (Content.run 16 ∅ (lastBitOps ++ [.lookupDelete (bitsOf 16 1)])).1 :=
  ⟨by decide, (finite_map_canonical 16 (by decide) _).1⟩

set_option maxRecDepth 20000 in
/-- The deletion of a present key throws instead of returning its value. -/
theorem deletion_overflows :
    ((Dictionary.empty 16).run (lastBitOps ++ [.lookupDelete (bitsOf 16 1)])).1 =
        [.ok (.flag true), .ok (.flag true), .error .cellOv] ∧
      (Op.lookupDelete (bitsOf 16 1)).reply 16
        (((∅ : Content).insert (bitsOf 16 1) shortValue).insert (bitsOf 16 0) longValue) =
          .old (some shortValue) := by
  refine ⟨by rfl, ?_⟩
  rw [Op.reply, Finmap.lookup_insert_of_ne _ (by decide), Finmap.lookup_insert]

section Undo

def keyOf : Op → List Bool
  | .set key _ _ | .lookupSet key _ _ | .lookupDelete key => key

/-- The operation that puts back what `d` has under the key of `op`. -/
def undo (d : Dictionary) (op : Op) : Op :=
  match d.lookup (keyOf op) with
  | .ok (some old) => .set (keyOf op) old .set
  | _ => .lookupDelete (keyOf op)

theorem lookup_step (content : Content) (op : Op) {k : List Bool} (other : k ≠ keyOf op) :
    (Content.step n content op).2.lookup k = content.lookup k := by
  have inserted (key : List Bool) (value : Slice) (applies : Bool) (other : k ≠ key) :
      (if applies then content.insert key value else content).lookup k = content.lookup k := by
    split
    · exact Finmap.lookup_insert_of_ne _ other
    · rfl
  unfold Content.step
  split
  · cases op with
    | set key value mode | lookupSet key value mode => exact inserted key value _ other
    | lookupDelete key => exact Finmap.lookup_erase_ne other
  · rfl

theorem update_undo (canonical : Canonical n d content t) (op : Op) :
    (undo d op).update n (Content.step n content op).2 = content := by
  refine Finmap.ext_lookup fun k => ?_
  rw [undo, canonical.lookup]
  cases old : content.lookup (keyOf op) with
  | none =>
    by_cases same : k = keyOf op
    · rw [same, old]
      exact Finmap.lookup_erase ..
    · exact (Finmap.lookup_erase_ne same).trans (lookup_step content op same)
  | some v =>
    have len : (keyOf op).length = n := by
      by_contra other
      rw [canonical.stands.length other] at old
      cases old
    simp only [Op.update, len, SetMode.applies]
    by_cases same : k = keyOf op
    · rw [same, old]
      exact Finmap.lookup_insert _
    · exact (Finmap.lookup_insert_of_ne _ same).trans (lookup_step content op same)

/-- Every operation can be undone wherever a run has come to. Although insertions and deletions may throw, the one
that puts the old entry back does not, and it restores the root cell. -/
theorem operations_undone (n : Nat) (valid : n ≤ maxKeyBits) (ops : List Op) (op : Op) :
    let d := ((Dictionary.empty n).run ops).2
    ((d.step op).2.step (undo d op)).2.root = d.root ∧ ∃ reply, ((d.step op).2.step (undo d op)).1 = .ok reply := by
  intro d
  obtain ⟨-, t, canonical⟩ := agrees_run (canonical_empty valid) ops
  obtain ⟨-, t1, changed⟩ := agrees_step canonical op
  obtain ⟨answer, t2, undone⟩ := agrees_step changed (undo d op)
  have back := update_undo canonical op
  rw [step_storable (by rw [back]; exact canonical.storable)] at answer undone
  rw [back] at undone
  exact ⟨by rw [undone.root, canonical.root, undone.stands.unique canonical.stands], _, answer⟩

theorem operations_undone_lastBit : 16 ≤ maxKeyBits ∧
    let d := ((Dictionary.empty 16).run lastBitOps).2
    ((d.step (.lookupDelete (bitsOf 16 1))).2.step (undo d (.lookupDelete (bitsOf 16 1)))).2.root = d.root :=
  ⟨by decide, (operations_undone 16 (by decide) lastBitOps _).1⟩

end Undo

end TonStaking.Guarantees.DictionaryMap
