import TonStaking.Source.Transaction.Actions

/-!
# The address of an account

`crypto/block/transaction.cpp` 79-86, 192-281 and 365-385. The address of an
account is its original address with a prefix rewritten. It is stored as it is, or
as an anycast address: the original one and the rewritten prefix.
-/
namespace TonStaking.Source.Transaction
open Tvm

/-- What an account knows of its address; `addr_orig` begins with `origPfx` instead. -/
structure AccountId where
  workchain : Sint 32
  addr : Uint 256
  origPfx : List Bool
  splitDepth : origPfx.length ≤ 30
  valid : workchain.val ≠ -2 ^ 31

/-- `store_maybe_anycast`. -/
def maybeAnycast (addr : Uint 256) (depth : Nat) : Option Anycast :=
  if h : 1 ≤ depth ∧ depth ≤ 30 then
    some ⟨(Uint.bits addr).take depth, by rw [List.length_take, Uint.bits_length]; omega⟩
  else none

namespace AccountId

def withPfx (id : AccountId) (pfx : List Bool) : List Bool := pfx ++ (Uint.bits id.addr).drop pfx.length

/-- `addr_std` for the workchains from -128 to the limit, `addr_var` for the others. -/
def packAddr (id : AccountId) (limit : Sint 8) (pfx : List Bool) : MsgAddress :=
  if h : -128 ≤ id.workchain.val ∧ id.workchain.val ≤ limit.val then
    .std (maybeAnycast id.addr pfx.length) ⟨id.workchain.val, h.1, lt_of_le_of_lt h.2 limit.2.2⟩
      (Fin.ofNat _ (natOf (id.withPfx pfx)))
  else .var (maybeAnycast id.addr pfx.length) id.workchain (id.withPfx pfx)

/-- `my_addr` and `my_addr_exact`. -/
def computeMyAddr (id : AccountId) : MsgAddress × MsgAddress :=
  (id.packAddr ⟨126, by decide⟩ id.origPfx, id.packAddr ⟨126, by decide⟩ [])

/-- `my_addr_exact` of a new account. -/
def initNew (id : AccountId) : MsgAddress := id.packAddr ⟨127, by decide⟩ []

/-- The addresses that are stored already may be null. -/
def recomputeTmpAddr (id : AccountId) (myAddr myAddrExact : Option MsgAddress) (origAddrRewrite : List Bool) :
    Option MsgAddress :=
  if origAddrRewrite.length = 0 ∧ myAddrExact.isSome then myAddrExact
  else if origAddrRewrite.length = id.origPfx.length ∧ myAddr.isSome then myAddr
  else if 30 < origAddrRewrite.length then none
  else some (id.packAddr ⟨127, by decide⟩ origAddrRewrite)

end AccountId

def addressFields : MsgAddress → Option (Option Anycast × Int × List Bool)
  | .std anycast workchain address => some (anycast, workchain.val, Uint.bits address)
  | .var anycast workchain address => some (anycast, workchain.val, address)
  | _ => none

section Fields

variable {id : AccountId} {pfx bits : List Bool} {anycast : Option Anycast} {wc : Int} {a : MsgAddress}

theorem uintBits_ofNat (len : bits.length = 256) : Uint.bits (Fin.ofNat _ (natOf bits) : Uint 256) = bits := by
  obtain ⟨x, rfl⟩ := Uint.exists_bits len
  rw [natOf_uintBits]
  exact congrArg Uint.bits (Fin.ext (Nat.mod_eq_of_lt x.isLt))

/-- A message to an address goes to the one with the prefix of its sender. -/
theorem checkRewriteDestAddr_fields (cfg : ActionConfig) (other : Account)
    (fields : addressFields a = some (anycast, wc, bits)) (len : bits.length = 256) : ∃ dest toMc,
      checkRewriteDestAddr cfg other a = (if destAllowed cfg anycast wc 256 then some (dest, toMc) else none) ∧
        addressFields dest = some (anycast.map (rewriteAnycast other.addr), wc, bits) := by
  cases a with
  | std _ workchain address =>
    cases fields
    exact ⟨_, _, rfl, rfl⟩
  | var _ workchain address =>
    cases fields
    rw [checkRewriteDestAddr, len]
    cases stored : storeInt 8 workchain.val with
    | error e => exact ⟨_, _, rfl, rfl⟩
    | ok short => exact ⟨_, _, rfl, by rw [addressFields, storeInt_success stored, uintBits_ofNat len]⟩
  | _ => cases fields

theorem maybeAnycast_map (addr other : Uint 256) (depth : Nat) :
    (maybeAnycast addr depth).map (rewriteAnycast other) = maybeAnycast other depth := by
  unfold maybeAnycast
  split
  · next inside =>
    have short : depth ≤ 256 := by omega
    simp [rewriteAnycast, short]
  · rfl

variable (short : pfx.length ≤ 30)
include short

theorem withPfx_length : (id.withPfx pfx).length = 256 := by
  rw [AccountId.withPfx, List.length_append, List.length_drop, Uint.bits_length]
  omega

theorem rewriteAddress_withPfx (addr : Uint 256) : rewriteAddress (maybeAnycast addr pfx.length) (id.withPfx pfx) =
    (Uint.bits addr).take pfx.length ++ (Uint.bits id.addr).drop pfx.length := by
  unfold maybeAnycast
  split
  · next depth =>
    have size : ((Uint.bits addr).take pfx.length).length = pfx.length := by
      rw [List.length_take, Uint.bits_length]
      omega
    rw [rewriteAddress, size, AccountId.withPfx, List.drop_left]
  · next none =>
    have empty : pfx = [] := List.length_eq_zero_iff.mp (by omega)
    rw [empty]
    rfl

theorem packAddr_fields (limit : Sint 8) : addressFields (id.packAddr limit pfx) =
    some (maybeAnycast id.addr pfx.length, id.workchain.val, id.withPfx pfx) := by
  unfold AccountId.packAddr
  split
  · rw [addressFields, uintBits_ofNat (withPfx_length short)]
  · rfl

end Fields

end TonStaking.Source.Transaction
