import TonStaking.Tvm.Slice

/-!
# Dictionary cells

`crypto/vm/dict.cpp`: label parsing (283-336, 346-353), label writing (547-587),
insertion (589-672), lookup (457-483), extreme and nearest key (1205-1265), at
the level of cells. The key width is an argument of every operation and not
part of the data, so a dictionary written with one width can be read with
another one; what happens then is decided by the bits of the labels.
Recursion is bounded by the key width, which every visited edge shortens.
-/
namespace Tvm.Hashmap

def leadingOnes : List Bool → Nat
  | true :: rest => leadingOnes rest + 1
  | _ => 0

/-- `LabelParser::parse_label`: the label and the bits behind it. -/
def parseLabel (maxLen : Nat) (bits : List Bool) : Option (List Bool × List Bool) :=
  match bits with
  | false :: false :: rest => some ([], rest)
  | false :: true :: rest =>
    let l := leadingOnes (true :: rest)
    if l ≤ maxLen ∧ 2 * l + 1 ≤ (true :: rest).length then
      some (((true :: rest).drop (l + 1)).take l, (true :: rest).drop (2 * l + 1))
    else none
  | true :: false :: rest =>
    if bitLen maxLen ≤ rest.length then
      let l := natOf (rest.take (bitLen maxLen))
      if l ≤ maxLen ∧ l ≤ (rest.drop (bitLen maxLen)).length then
        some ((rest.drop (bitLen maxLen)).take l, (rest.drop (bitLen maxLen)).drop l)
      else none
    else none
  | true :: true :: same :: rest =>
    if bitLen maxLen ≤ rest.length then
      let l := natOf (rest.take (bitLen maxLen))
      if l ≤ maxLen then some (List.replicate l same, rest.drop (bitLen maxLen)) else none
    else none
  | _ => none

/-- `LabelParser{cell, n}` with `validate_ext`: an edge that does not end in a
leaf must be a bare label with two references. -/
def readNode (n : Nat) (cell : Cell) : Outcome (List Bool × Slice) :=
  match parseLabel n cell.bits with
  | none => .error .cellUnd
  | some (label, rest) =>
    if label.length < n ∧ ¬ (rest = [] ∧ cell.refs.length = 2) then .error .dictErr
    else .ok (label, ⟨rest, cell.refs⟩)

def appendLabelSame (same : Bool) (len maxLen : Nat) : List Bool :=
  if 1 < len ∧ bitLen maxLen < 2 * len - 1 then
    [true, true, same] ++ bitsOf (bitLen maxLen) len
  else if bitLen maxLen < len then
    [true, false] ++ bitsOf (bitLen maxLen) len ++ List.replicate len same
  else
    false :: (List.replicate len true ++ [false] ++ List.replicate len same)

/-- `append_dict_label`. -/
def appendLabel (label : List Bool) (maxLen : Nat) : List Bool :=
  match label with
  | [] => [false, false]
  | b :: rest =>
    if rest.all (· == b) then appendLabelSame b (rest.length + 1) maxLen
    else if bitLen maxLen < rest.length + 1 then
      [true, false] ++ bitsOf (bitLen maxLen) (rest.length + 1) ++ label
    else false :: (List.replicate (rest.length + 1) true ++ [false] ++ label)

/-- `CellBuilder::finalize` with the limits of a cell; that of its depth is in `DataCell::create`
(`crypto/vm/cells/DataCell.cpp` 264-267). -/
def buildCell (bits : List Bool) (refs : List Cell) : Outcome Cell :=
  if bits.length ≤ 1023 ∧ refs.length ≤ 4 ∧ refsDepth refs ≤ 1024 then .ok (.mk bits refs) else .error .cellOv

def commonLen : List Bool → List Bool → Nat
  | a :: as, b :: bs => if a = b then commonLen as bs + 1 else 0
  | _, _ => 0

inductive SetMode where
  | set | replace | add
  deriving DecidableEq, Repr

/-- `prefetch_ref(bit)` of a fork node. -/
def child (refs : List Cell) (bit : Bool) : Outcome Cell :=
  match refs, bit with
  | c :: _, false => .ok c
  | _ :: c :: _, true => .ok c
  | _, _ => .error .cellUnd

/-- `dict_set`; no new root means that the dictionary is left as it is. -/
def dictSet (mode : SetMode) (value : Slice) :
    Nat → Option Cell → List Bool → Outcome (Option Cell)
  | 0, _, _ => .error .dictErr
  | _ + 1, none, key =>
    if mode = .replace then .ok none
    else do
      let leaf ← buildCell (appendLabel key key.length ++ value.bits) value.refs
      .ok (some leaf)
  | fuel + 1, some cell, key => do
    let n := key.length
    let (label, payload) ← readNode n cell
    let p := commonLen label key
    if p < label.length then
      if mode = .replace then .ok none
      else do
        let m := n - p - 1
        let c1 ← buildCell (appendLabel (key.drop (p + 1)) m ++ value.bits) value.refs
        let c2 ← buildCell (appendLabel (label.drop (p + 1)) m ++ payload.bits) payload.refs
        let refs := if key.drop p |>.head? |>.getD false then [c2, c1] else [c1, c2]
        let fork ← buildCell (appendLabel (key.take p) n) refs
        .ok (some fork)
    else if label.length = n then
      if mode = .add then .ok none
      else do
        let leaf ← buildCell (appendLabel key n ++ value.bits) value.refs
        .ok (some leaf)
    else do
      let bit := key.drop label.length |>.head? |>.getD false
      let c1 ← child payload.refs false
      let c2 ← child payload.refs true
      let changed ← dictSet mode value fuel (some (if bit then c2 else c1))
        (key.drop (label.length + 1))
      match changed with
      | none => .ok none
      | some c =>
        let fork ← buildCell (appendLabel (key.take label.length) n)
          (if bit then [c1, c] else [c, c2])
        .ok (some fork)

/-- `DictionaryFixed::lookup`. -/
def dictLookup : Nat → Cell → List Bool → Outcome (Option Slice)
  | 0, _, _ => .error .dictErr
  | fuel + 1, cell, key => do
    let (label, payload) ← readNode key.length cell
    if commonLen label key < label.length then .ok none
    else
      match key.drop label.length with
      | [] => .ok (some payload)
      | bit :: rest => do
        let next ← child payload.refs bit
        dictLookup fuel next rest

/-- The two's complement mode word: its lowest bit and its repeated higher bits. -/
structure Mode where
  first : Bool
  others : Bool

def Mode.shift (m : Mode) : Mode := ⟨m.others, m.others⟩

def Mode.flip (m : Mode) : Mode := ⟨!m.first, !m.others⟩

def dictLookupMinmax : Nat → Cell → Nat → Mode → Outcome (List Bool × Slice)
  | 0, _, _, _ => .error .dictErr
  | fuel + 1, cell, n, mode => do
    let (label, payload) ← readNode n cell
    if n - label.length = 0 then .ok (label, payload)
    else do
      let mode := if label = [] then mode else mode.shift
      let next ← child payload.refs mode.first
      let (key, value) ← dictLookupMinmax fuel next (n - label.length - 1) mode.shift
      .ok (label ++ mode.first :: key, value)

def dictLookupNearest (allowEq : Bool) :
    Nat → Cell → List Bool → Mode → Outcome (Option (List Bool × Slice))
  | 0, _, _, _ => .error .dictErr
  | fuel + 1, cell, key, mode => do
    let (label, payload) ← readNode key.length cell
    let p := commonLen label key
    if p < label.length then
      if (key.drop p |>.head? |>.getD false) = (if p = 0 then mode.first else mode.others) then .ok none
      else do
        let found ← dictLookupMinmax (fuel + 1) cell key.length mode.flip
        .ok (some found)
    else
      match key.drop label.length with
      | [] => if allowEq then .ok (some (key, payload)) else .ok none
      | bit :: rest => do
        let mode := if label = [] then mode else mode.shift
        let next ← child payload.refs bit
        let found ← dictLookupNearest allowEq fuel next rest mode.shift
        match found with
        | some (k, value) => .ok (some (label ++ bit :: k, value))
        | none =>
          if bit = mode.first then .ok none
          else do
            let other ← child payload.refs mode.first
            let (k, value) ← dictLookupMinmax fuel other rest.length mode.flip.shift
            .ok (some (label ++ mode.first :: k, value))

/-- `DICTUSETB` with key width `n`. -/
def udictSet (n : Nat) (root : Option Cell) (index : Int) (value : Slice) : Outcome (Option Cell) := do
  let key ← storeUint n index
  dictSet .set value (n + 1) root (Uint.bits key)

/-- `DICTUGET` with key width `n`. -/
def udictGet? (n : Nat) (root : Option Cell) (index : Int) : Outcome (Option Slice) :=
  match root, storeUint n index with
  | some cell, .ok key => dictLookup (n + 1) cell (Uint.bits key)
  | _, _ => .ok none

/-- `DICTUGETNEXT` (`up`) and `DICTUGETPREV` with key width `n`. A pivot outside
of the key range asks for the extreme key on its side. -/
def udictGetNear (up : Bool) (n : Nat) (root : Option Cell) (pivot : Int) :
    Outcome (Option (Nat × Slice)) :=
  match root with
  | none => .ok none
  | some cell =>
    match storeUint n pivot with
    | .ok key => do
      let found ← dictLookupNearest false (n + 1) cell (Uint.bits key) ⟨up, up⟩
      .ok (found.map fun e => (natOf e.1, e.2))
    | .error _ =>
      if (decide (0 ≤ pivot)) = up then .ok none
      else do
        let found ← dictLookupMinmax (n + 1) cell n ⟨!up, !up⟩
        .ok (some (natOf found.1, found.2))

def udictGetNext? (n : Nat) (root : Option Cell) (pivot : Int) := udictGetNear true n root pivot

def udictGetPrev? (n : Nat) (root : Option Cell) (pivot : Int) := udictGetNear false n root pivot

end Tvm.Hashmap
