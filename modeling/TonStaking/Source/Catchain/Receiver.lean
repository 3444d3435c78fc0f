import Mathlib.Algebra.BigOperators.Fin
import TonStaking.Source.Catchain.Messages

/-!
# Synchronisation of catchain receivers

`catchain/catchain-receiver.cpp` 709-783, the answer to `catchain.getDifference`,
and 819-827, the request that `synchronize_with` sends. A block is a value of an
arbitrary type; what its blocks refer to plays no part in the exchange.
-/
namespace TonStaking.Source.Catchain

/-- `CatChainReceiverSourceImpl`: a fork proof blames its source, and a source that is not
blamed has its delivered blocks in `blocks_`. The height of a block is an `int`. -/
structure SourceState (H B : Type) where
  blamed : Bool
  forkProof : Option (Dep H × Dep H)
  deliveredHeight : Nat
  blocks : Nat → Option B
  fits : deliveredHeight < 2 ^ 31
  blames : forkProof.isSome → blamed = true
  holds : blamed = false → ∀ h, 0 < h → h ≤ deliveredHeight → (blocks h).isSome

/-- The blocks that follow the height `v`; `CHECK(M != nullptr)` fails where one is missing. -/
def SourceState.run {H B : Type} (S : SourceState H B) (v : Int) (t : Nat) : Option (List B) :=
  (List.range' (v.toNat + 1) t).mapM S.blocks

abbrev Receiver (H B : Type) (n : Nat) := Fin n → SourceState H B

inductive QueryExc where
  | status (text : String)
  | check

inductive Difference (H B : Type) (n : Nat) where
  | difference (sent : Fin n → List B) (vt : Fin n → Int)
  | differenceFork (left right : Dep H)

section Exchange

variable {H B : Type} {n : Nat}

/-- Each entry is the height of the source that is asked, not of the source it stands for. -/
def synchronizeWith (r : Receiver H B n) (peer : Fin n) : List Int :=
  List.ofFn fun i => if (r i).blamed then -1 else (r peer).deliveredHeight

def maxSend : Nat := 100

/-- The loop that narrows `l` and `r`; only `r` is used after it. -/
def narrow (sum : Nat → Nat) (l r : Nat) : Nat :=
  if r - l > 1 then
    if sum ((r + l) / 2) > maxSend then narrow sum l ((r + l) / 2) else narrow sum ((r + l) / 2) r
  else r
termination_by r - l

/-- `my_vt[i] - vt[i]` where it is positive. -/
def gap (vt : Int) (S : SourceState H B) : Nat := if 0 ≤ vt then S.deliveredHeight - vt.toNat else 0

/-- What `x` blocks of each source come to. -/
def sumUpTo (r : Receiver H B n) (vt : Fin n → Int) (x : Nat) : Nat := ∑ i, min (gap (vt i) (r i)) x

def sendCount (r : Receiver H B n) (vt : Fin n → Int) (i : Fin n) : Nat :=
  min (gap (vt i) (r i)) (narrow (sumUpTo r vt) 0 (maxSend + 1))

/-- The forks of the sources that the request asks for. -/
def knownFork (r : Receiver H B n) (vt : Fin n → Int) : Option (Dep H × Dep H) :=
  (List.finRange n).findSome? fun i => if 0 ≤ vt i then (r i).forkProof else none

def processQuery (r : Receiver H B n) (vt : List Int) : Except QueryExc (Difference H B n) :=
  if size : vt.length = n then
    let vt i := vt.get (Fin.cast size.symm i)
    match knownFork r vt with
    | some (left, right) => .ok (.differenceFork left right)
    | none =>
      let run i := (r i).run (vt i) (sendCount r vt i)
      if ∀ i, (run i).isSome then
        .ok (.difference (fun i => (run i).getD []) fun i => vt i + sendCount r vt i)
      else .error .check
  else .error (.status "bad vt size")

end Exchange

end TonStaking.Source.Catchain
