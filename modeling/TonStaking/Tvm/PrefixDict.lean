import TonStaking.Tvm.HashmapDelete
import TonStaking.Tvm.HashmapOrder

/-!
# Prefix code dictionaries

`PrefixDictionary` of `crypto/vm/dict.cpp` (793-998, 2314-2400) and the instructions
`PFXDICTGETQ`, `PFXDICTSET` and `PFXDICTDEL`. Keys have at most `n` bits. A node has a bit
behind its label that tells a leaf from a fork. The recursion is bounded by the key width,
which every visited edge shortens. Of the modes of a store only `Set` is used.
-/
namespace Tvm.Hashmap

/-- `LabelParser{cell, n, 1}`. -/
def readLabel (n : Nat) (cell : Cell) : Outcome (List Bool × Slice) :=
  match parseLabel n cell.bits with
  | none => .error .cellUnd
  | some (label, rest) => .ok (label, ⟨rest, cell.refs⟩)

/-- The node behind a label: a value, or the two branches of a fork. -/
inductive PrefixNode where
  | leaf (value : Slice)
  | fork (left right : Cell)

/-- The constructor bit and the check of a fork. -/
def readPrefixNode (payload : Slice) : Outcome PrefixNode :=
  match payload.bits, payload.refs with
  | [], _ => .error .dictErr
  | false :: bits, refs => .ok (.leaf ⟨bits, refs⟩)
  | [true], [left, right] => .ok (.fork left right)
  | true :: _, _ => .error .dictErr

/-- `PrefixDictionary::lookup_prefix`: the value of the prefix found and the rest of the key. -/
def pfxLookupPrefix : Nat → Nat → Cell → List Bool → Outcome (Option (Slice × List Bool))
  | 0, _, _, _ => .error .dictErr
  | fuel + 1, n, cell, key => do
    let (label, payload) ← readLabel n cell
    if commonLen label key < label.length then .ok none
    else
      let node ← readPrefixNode payload
      match node with
      | .leaf value => .ok (some (value, key.drop label.length))
      | .fork left right =>
        if n - label.length = 0 then .error .dictErr
        else
          match key.drop label.length with
          | [] => .ok none
          | bit :: rest => pfxLookupPrefix fuel (n - label.length - 1) (if bit then right else left) rest

/-- `pfx_dict_set`; no new root means that the dictionary is left as it is. -/
def pfxDictSet (value : Slice) : Nat → Nat → Option Cell → List Bool → Outcome (Option Cell)
  | 0, _, _, _ => .error .dictErr
  | fuel + 1, n, dict, key =>
    if n < key.length then .ok none
    else
      match dict with
      | none => do
        let leaf ← buildCell (appendLabel key n ++ false :: value.bits) value.refs
        .ok (some leaf)
      | some cell => do
        let (label, payload) ← readLabel n cell
        let l := commonLen label key
        if l < label.length then
          match key.drop l with
          | [] => .ok none
          | bit :: rest => do
            let m := n - (l + 1)
            let c1 ← buildCell (appendLabel rest m ++ false :: value.bits) value.refs
            let c2 ← buildCell (appendLabel (label.drop (l + 1)) m ++ payload.bits) payload.refs
            let fork ← buildCell (appendLabel (key.take l) n ++ [true]) (if bit then [c2, c1] else [c1, c2])
            .ok (some fork)
        else
          let node ← readPrefixNode payload
          match node, key.drop label.length with
          | .leaf _, _ :: _ => .ok none
          | .leaf _, [] => do
            let leaf ← buildCell (appendLabel key n ++ false :: value.bits) value.refs
            .ok (some leaf)
          | .fork _ _, [] => .ok none
          | .fork left right, bit :: rest => do
            let changed ← pfxDictSet value fuel (n - (label.length + 1)) (some (if bit then right else left)) rest
            match changed with
            | none => .ok none
            | some c => do
              let fork ← buildCell (appendLabel (key.take label.length) n ++ [true])
                (if bit then [left, c] else [c, right])
              .ok (some fork)

/-- `pfx_dict_lookup_delete`: the deleted value and the new root. Without a value the dictionary is
left as it is. -/
def pfxDictLookupDelete : Nat → Nat → Option Cell → List Bool → Outcome (Option Slice × Option Cell)
  | 0, _, _, _ => .error .dictErr
  | _ + 1, _, none, _ => .ok (none, none)
  | fuel + 1, n, some cell, key => do
    let (label, payload) ← readLabel n cell
    if commonLen label key < label.length then .ok (none, none)
    else
      let node ← readPrefixNode payload
      match node, key.drop label.length with
      | .leaf _, _ :: _ => .ok (none, none)
      | .leaf value, [] => .ok (some value, none)
      | .fork _ _, [] => .ok (none, none)
      | .fork left right, bit :: rest => do
        let (old, changed) ← pfxDictLookupDelete fuel (n - (label.length + 1)) (some (if bit then right else left)) rest
        match old, changed with
        | none, _ => .ok (none, none)
        | some old, some c => do
          let fork ← buildCell (appendLabel (key.take label.length) n ++ [true])
            (if bit then [left, c] else [c, right])
          .ok (some old, some fork)
        | some old, none => do
          -- the other child stays alone: its edge is merged with the one above the fork
          let (lower, rest) ← readLabel (n - (label.length + 1)) (if bit then left else right)
          let edge ← buildCell (appendLabel (key.take label.length ++ (!bit) :: lower) n ++ rest.bits) rest.refs
          .ok (some old, some edge)

/-- `PFXDICTGETQ`: the prefix, its value and the tail of the key slice, which keeps its references. -/
def pfxdictGet? (n : Nat) (root : Option Cell) (key : Slice) : Outcome (Option (List Bool × Slice × Slice)) :=
  match root with
  | none => .ok none
  | some cell => do
    let found ← pfxLookupPrefix (n + 1) n cell key.bits
    .ok (found.map fun (value, tail) => (key.bits.take (key.bits.length - tail.length), value, ⟨tail, key.refs⟩))

/-- `PFXDICTSET`: the new root, unless the key cannot be stored. -/
def pfxdictSet? (n : Nat) (root : Option Cell) (key value : Slice) : Outcome (Option Cell) :=
  if n < key.bits.length then .ok none else pfxDictSet value (n + 1) n root key.bits

/-- `PFXDICTDEL`: the new root, and whether the key was there. -/
def pfxdictDelete? (n : Nat) (root : Option Cell) (key : Slice) : Outcome (Option Cell × Bool) :=
  if n < key.bits.length then .ok (root, false)
  else do
    let (old, changed) ← pfxDictLookupDelete (n + 1) n root key.bits
    .ok (if old.isSome then changed else root, old.isSome)

/-- `Dictionary::extract_value_ref`. -/
def extractValueRef : Option Slice → Outcome (Option Cell)
  | none => .ok none
  | some ⟨[], [c]⟩ => .ok (some c)
  | some _ => .error .dictErr

/-- `DICTISETGETOPTREF`: the new root and the old value; a null deletes the entry. -/
def idictSetGetRef (n : Nat) (root : Option Cell) (index : Int) (value : Option Cell) :
    Outcome (Option Cell × Option Cell) := do
  let index ← storeInt n index
  match value with
  | some value => do
    let (old, changed) ← dictLookupSet .set ⟨[], [value]⟩ (n + 1) root (intBits n index.val)
    let old ← extractValueRef old
    .ok (if changed.isSome then changed else root, old)
  | none => do
    let (old, changed) ← dictLookupDelete (n + 1) root (intBits n index.val)
    let gone ← extractValueRef old
    .ok (if old.isSome then changed else root, gone)

/-- `DICTIDEL`. -/
def idictDelete? (n : Nat) (root : Option Cell) (index : Int) : Outcome (Option Cell × Bool) := do
  let index ← storeInt n index
  let (old, changed) ← dictLookupDelete (n + 1) root (intBits n index.val)
  .ok (if old.isSome then changed else root, old.isSome)

end Tvm.Hashmap
