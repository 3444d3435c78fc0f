import TonStaking.Source.Shard.Identifiers
import TonStaking.Tvm.Hashmap

/-!
# Validator sets and validator groups

`Config::unpack_validator_set` and `Config::do_compute_validator_set` of
`crypto/block/mc-config.cpp` (440-503, 1698-1772), with the types `ValidatorSet` and
`ValidatorDescr` of `block.tlb` 554-561. The generated readers of these types are written out:
a reader of a cell accepts it if all of it is consumed. Machine words are numbers, reduced where
the code adds them.

The pseudo-random words of `ValidatorSetPRNG` are an input. A failed `CHECK` ends the function
without a result. `std::upper_bound` returns the first position whose element lies behind the
value; on the sorted lists it is used for, this is what its bisection finds.
-/
namespace TonStaking.Source.Validators

open Tvm Tvm.Hashmap TonStaking.Source.Shard

structure ValidatorDescr where
  pubkey : Uint 256
  adnlAddr : Uint 256
  weight : Uint 64
  cumWeight : Nat
  deriving DecidableEq

structure ValidatorSet where
  utimeSince : Uint 32
  utimeUntil : Uint 32
  total : Nat
  main : Nat
  totalWeight : Nat
  list : List ValidatorDescr
  deriving DecidableEq

/-- The constructor `ValidatorSet(since, until, total, main)`. -/
def ValidatorSet.new (since until_ : Uint 32) (total main : Nat) : ValidatorSet where
  utimeSince := since
  utimeUntil := until_
  total := total
  main := if 0 < main then main else total
  totalWeight := 0
  list := []

/-- A `ton::ValidatorDescr`. -/
structure Node where
  pubkey : Uint 256
  weight : Nat
  adnlAddr : Uint 256
  deriving DecidableEq

/-- An error status, or an exception of the dictionary. -/
inductive UnpackError where
  | status (text : String)
  | vmError (e : Exc)
  deriving DecidableEq

/-- The fields of `validators_ext` with the root of the list. -/
structure Record where
  utimeSince : Uint 32
  utimeUntil : Uint 32
  total : Uint 16
  main : Uint 16
  totalWeight : Nat
  dictRoot : Option Cell

/-- The tag and the common fields of both constructors. -/
def fetchHeader (tag : Nat) (cs : Slice) : Outcome (Record × Slice) := do
  let (found, cs) ← loadUint 8 cs
  throwUnless 0 (found.val = tag)
  let (utimeSince, cs) ← loadUint 32 cs
  let (utimeUntil, cs) ← loadUint 32 cs
  let (total, cs) ← loadUint 16 cs
  let (main, cs) ← loadUint 16 cs
  throwUnless 0 (main ≤ total)
  throwUnless 0 (1 ≤ main.val)
  .ok ({ utimeSince, utimeUntil, total, main, totalWeight := 0, dictRoot := none }, cs)

/-- `validators_ext#12`. -/
def unpackExt (vset : Cell) : Outcome Record := do
  let (rec, cs) ← fetchHeader 0x12 vset.beginParse
  let (totalWeight, cs) ← loadUint 64 cs
  let (dictRoot, cs) ← loadDict cs
  endParse cs
  .ok { rec with totalWeight, dictRoot }

/-- `validators#11`: the root node of the list stands in the cell itself. A value that follows the label
at once is read below. -/
def unpackPlain (vset : Cell) : Outcome Record := do
  let (rec, cs) ← fetchHeader 0x11 vset.beginParse
  let _ ← readNode 16 (.mk cs.bits cs.refs)
  .ok { rec with dictRoot := some (.mk cs.bits cs.refs) }

/-- The key, the weight and the address of a `ValidatorDescr` with the given tag. -/
def fetchDescr (tag : Nat) (cs : Slice) : Outcome ((List Bool × Uint 64) × Slice) := do
  let (found, cs) ← loadUint 8 cs
  throwUnless 0 (found.val = tag)
  let (publicKey, cs) ← loadBits 288 cs
  let (weight, cs) ← loadUint 64 cs
  .ok ((publicKey, weight), cs)

/-- `validator_addr#73`. -/
def unpackValidatorAddr (cs : Slice) : Outcome (List Bool × Uint 64 × Uint 256) := do
  let ((publicKey, weight), cs) ← fetchDescr 0x73 cs
  let (adnlAddr, cs) ← loadUint 256 cs
  endParse cs
  .ok (publicKey, weight, adnlAddr)

/-- `validator#53`. -/
def unpackValidator (cs : Slice) : Outcome (List Bool × Uint 64 × Uint 256) := do
  let ((publicKey, weight), cs) ← fetchDescr 0x53 cs
  endParse cs
  .ok (publicKey, weight, 0)

/-- `ed25519_pubkey#8e81278a`. -/
def unpackSigPubKey (bits : List Bool) : Outcome (Uint 256) := do
  let (found, cs) ← loadUint 32 ⟨bits, []⟩
  throwUnless 0 (found.val = 0x8e81278a)
  let (pubkey, cs) ← loadUint 256 cs
  endParse cs
  .ok pubkey

def orStatus {α : Type} (text : String) : Outcome α → Except UnpackError α
  | .ok x => .ok x
  | .error _ => .error (.status text)

def orVmError {α : Type} : Outcome α → Except UnpackError α
  | .ok x => .ok x
  | .error e => .error (.vmError e)

/-- Lines 478-485. -/
def readDescr (i : Nat) (descrCs : Slice) : Except UnpackError (List Bool × Uint 64 × Uint 256) :=
  match unpackValidatorAddr descrCs with
  | .ok descr => .ok descr
  | .error _ =>
    orStatus s!"validator #{i} has an invalid ValidatorDescr record in the validator set dictionary"
      (unpackValidator descrCs)

/-- One round of the loop of lines 472-498. -/
def addValidator (dict : Cell) (i : Nat) (ptr : ValidatorSet) : Except UnpackError ValidatorSet := do
  let found ← orVmError (dictLookup 17 dict (bitsOf 16 i))
  match found with
  | none => .error (.status "indices in a validator set dictionary must be integers 0..total-1")
  | some descrCs => do
    let (publicKey, weight, adnlAddr) ← readDescr i descrCs
    let pubkey ← orStatus s!"validator #{i} has no public key or its public key is in unsupported format"
      (unpackSigPubKey publicKey)
    if weight.val = 0 then .error (.status s!"validator #{i} has zero weight")
    else if 2 ^ 64 - 1 - ptr.totalWeight < weight.val then
      .error (.status "total weight of all validators in validator set exceeds 2^64")
    else
      .ok { ptr with
        list := ptr.list ++ [{ pubkey, adnlAddr, weight, cumWeight := ptr.totalWeight }]
        totalWeight := (ptr.totalWeight + weight) % 2 ^ 64 }

/-- The loop of lines 472-498 from index `i` on, with the number of rounds left. -/
def addValidators (dict : Cell) : Nat → Nat → ValidatorSet → Except UnpackError ValidatorSet
  | 0, _, ptr => .ok ptr
  | left + 1, i, ptr => do
    let ptr ← addValidator dict i ptr
    addValidators dict left (i + 1) ptr

/-- Lines 463-503. -/
def unpackRecord (rec : Record) : Except UnpackError ValidatorSet :=
  let wrongLast : Except UnpackError ValidatorSet := .error (.status
    "maximal index in a validator set dictionary must be one less than the total number of validators")
  match rec.dictRoot with
  | none => wrongLast
  | some dict => do
    let (last, _) ← orVmError (dictLookupMinmax 17 dict 16 ⟨true, true⟩)
    if natOf last + 1 ≠ rec.total.val then wrongLast
    else do
      let ptr ← addValidators dict rec.total 0 (.new rec.utimeSince rec.utimeUntil rec.total rec.main)
      if rec.totalWeight ≠ 0 ∧ rec.totalWeight ≠ ptr.totalWeight then
        .error (.status "validator set declares incorrect total weight")
      else .ok ptr

def unpackValidatorSet (vsetRoot : Option Cell) : Except UnpackError ValidatorSet :=
  match vsetRoot with
  | none => .error (.status "validator set is absent")
  | some cell =>
    match unpackExt cell with
    | .ok rec =>
      if rec.totalWeight = 0 then .error (.status "validator set cannot have zero total weight")
      else unpackRecord rec
    | .error _ => do
      let rec ← orStatus "validator set is invalid" (unpackPlain cell)
      unpackRecord rec

/-- `check_validator_set` of `crypto/smartcont/config-code.fc` 26-36. -/
def checkValidatorSet (vset : Cell) : Outcome (Uint 32 × Uint 32) := do
  let (tag, cs) ← loadUint 8 vset.beginParse
  throwUnless 9 (tag.val = 0x12)
  let (utimeSince, cs) ← loadUint 32 cs
  let (utimeUntil, cs) ← loadUint 32 cs
  let (total, cs) ← loadUint 16 cs
  let (main, _) ← loadUint 16 cs
  throwUnless 9 (0 < main.val)
  throwUnless 9 (main ≤ total)
  .ok (utimeSince, utimeUntil)

/-- The conditions of the `CHECK`s of `do_compute_validator_set` and `at_weight`. -/
inductive Check where
  | listSize | positiveWeight | positionInRange | notBeforeBegin | enoughWeight | holesIncreasing
  deriving DecidableEq

def check (condition : Prop) [Decidable condition] (name : Check) : Except Check Unit :=
  if condition then .ok () else .error name

/-- `next_ranged`: the upper half of the 128-bit product with the next word. -/
def nextRanged (range word : Nat) : Nat := range * word / 2 ^ 64

def upperBound {α : Type} (behind : α → Bool) (list : List α) : Nat := (list.takeWhile fun x => !behind x).length

/-- `at_weight`: the validator, with its place in the list. -/
def atWeight (vset : ValidatorSet) (weightPos : Nat) : Except Check (Nat × ValidatorDescr) := do
  check (weightPos < vset.totalWeight) .positionInRange
  match upperBound (fun v => decide (weightPos < v.cumWeight)) vset.list with
  | 0 => .error .notBeforeBegin
  | it + 1 =>
    match vset.list[it]? with
    | none => .error .notBeforeBegin
    | some v => .ok (it, v)

/-- A hole starts at a weight and has a weight. -/
abbrev Hole := Nat × Nat

def Hole.before (a b : Hole) : Bool := a.1 < b.1 ∨ (a.1 = b.1 ∧ a.2 < b.2)

/-- The inner loop: the position moves behind every hole that it has reached. -/
def skipHoles : List Hole → Nat → Nat
  | [], p => p
  | hole :: holes, p => if p < hole.1 then p else skipHoles holes ((p + hole.2) % 2 ^ 64)

def insertHole (holes : List Hole) (newHole : Hole) : Except Check (List Hole) := do
  let it := upperBound (fun hole => newHole.before hole) holes
  check (it = 0 ∨ (holes[it - 1]?.all fun hole => hole.before newHole) = true) .holesIncreasing
  .ok (holes.take it ++ newHole :: holes.drop it)

/-- The variables of the outer loop. -/
structure Draw where
  holes : List Hole
  totalWt : Nat

/-- One round of the outer loop with its pseudo-random word. -/
def drawOne (vset : ValidatorSet) (s : Draw) (word : Nat) : Except Check ((Nat × ValidatorDescr) × Draw) := do
  check (0 < s.totalWt) .positiveWeight
  let p := skipHoles s.holes (nextRanged s.totalWt word)
  let (place, entry) ← atWeight vset p
  check (entry.weight ≤ s.totalWt) .enoughWeight
  let holes ← insertHole s.holes (entry.cumWeight, entry.weight)
  .ok ((place, entry), { holes, totalWt := s.totalWt - entry.weight })

/-- The outer loop from round `i` on, with the number of rounds left. -/
def drawAll (vset : ValidatorSet) (words : Nat → Uint 64) : Nat → Nat → Draw → Except Check (List (Nat × ValidatorDescr))
  | 0, _, _ => .ok []
  | count + 1, i, s => do
    let (entry, s) ← drawOne vset s (words i)
    let rest ← drawAll vset words count (i + 1) s
    .ok (entry :: rest)

/-- A masterchain validator keeps its weight. -/
def mainNode (v : ValidatorDescr) : Node := ⟨v.pubkey, v.weight, v.adnlAddr⟩

/-- Shardchain validators have weight one. -/
def shardNode (v : ValidatorDescr) : Node := ⟨v.pubkey, 1, v.adnlAddr⟩

def doComputeValidatorSet (shardValNum : Uint 32) (shard : ShardIdFull) (vset : ValidatorSet)
    (words : Nat → Uint 64) : Except Check (List Node) := do
  let isMc := decide (shard.workchain = masterchainId)
  let count := min (if isMc then vset.main else shardValNum) vset.total
  check (vset.total = vset.list.length) .listSize
  if count = 0 then .ok []
  else if isMc then .ok ((vset.list.take count).map mainNode)
  else do
    let drawn ← drawAll vset words count 0 { holes := [], totalWt := vset.totalWeight }
    .ok (drawn.map fun e => shardNode e.2)

end TonStaking.Source.Validators
