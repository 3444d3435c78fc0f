import TonStaking.Tvm.Dict

/-!
# Query ids with a time limit

The multisig wallet, the highload wallet and the manual DNS contract record the
ids of the queries they have taken. An id starts with the time until which the
query may come, and its record is dropped 64 seconds later.
-/
namespace TonStaking.Source
open Tvm

variable {V : Type} {now : Uint 32} {queries : Dict 64 V} {last k : Nat}

/-- `now() << 32`. -/
def bound (now : Uint 32) : Int := now * 2 ^ 32

theorem bound_mono {a b : Uint 32} (le : a ≤ b) : bound a ≤ bound b := by
  have : (a : Nat) ≤ b := le
  unfold bound
  omega

/-- `bound -= (64 << 32)` and the loop behind it, which drops the records below the bound, the least first. -/
def cleanUp (now : Uint 32) (queries : Dict 64 V) (lastCleaned : Nat) : Dict 64 V × Nat :=
  queries.dropBelow (bound now - 64 * 2 ^ 32) queries.entries.length lastCleaned

theorem get?_cleanUp :
    (cleanUp now queries last).1.get? k = if bound now - 64 * 2 ^ 32 ≤ k then queries.get? k else none :=
  Dict.get?_dropBelow _ _ _ _

/-- The clock does not go back. -/
def Ordered {I : Type} (now : I → Uint 32) (inputs : List I) : Prop := inputs.Pairwise fun a b => now a ≤ now b

end TonStaking.Source
