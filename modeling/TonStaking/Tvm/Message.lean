import TonStaking.Tvm.Slice

/-!
# Messages and addresses

An inbound internal message as a contract's `recv_internal` sees it, with the
account balance after the value has been credited, and an outbound message as
`send_raw_message` queues it. Address rewriting follows `REWRITESTDADDR` of
`crypto/vm/tonops.cpp`.
-/
namespace Tvm

structure Anycast where
  rewritePfx : List Bool
  depth : 1 ≤ rewritePfx.length ∧ rewritePfx.length ≤ 30
  deriving DecidableEq

/-- An address field of a message. `tag6` is the four bits 0110 in front of a workchain and
an address; `addr_std` without anycast begins with 100, so it is none of the address
kinds of `crypto/block/block.tlb`. -/
inductive MsgAddress where
  | none
  | external (address : List Bool)
  | std (anycast : Option Anycast) (workchain : Sint 8) (address : Uint 256)
  | var (anycast : Option Anycast) (workchain : Sint 32) (address : List Bool)
  | tag6 (workchain : Sint 8) (address : Uint 256)
  deriving DecidableEq

def anycastWidth : Option Anycast → Nat
  | .none => 1
  | some anycast => 1 + 5 + anycast.rewritePfx.length

def MsgAddress.width : MsgAddress → Nat
  | .none => 2
  | .external address => 2 + 9 + address.length
  | .std anycast _ _ => 2 + anycastWidth anycast + 8 + 256
  | .var anycast _ address => 2 + anycastWidth anycast + 9 + 32 + address.length
  | .tag6 _ _ => 4 + 8 + 256

def rewriteAddress : Option Anycast → List Bool → List Bool
  | .none, address => address
  | some anycast, address => anycast.rewritePfx ++ address.drop anycast.rewritePfx.length

/-- `parse_std_addr`: workchain and 256-bit address. -/
def parseStdAddr : MsgAddress → Outcome (Int × Int)
  | .std .none workchain address => .ok (workchain.val, address.val)
  | .std anycast workchain address =>
    .ok (workchain.val, natOf (rewriteAddress anycast (Uint.bits address)))
  | .var anycast workchain address =>
    if address.length = 256 then .ok (workchain.val, natOf (rewriteAddress anycast address))
    else .error .cellUnd
  | _ => .error .cellUnd

/-- `get_address_slice`: `store_uint(6, 4)` and the two fields. -/
def getAddressSlice (workchain address : Int) : Outcome MsgAddress := do
  let wc ← storeInt 8 workchain
  let addr ← storeUint 256 address
  .ok (.tag6 wc addr)

/-- The account that the fields of an address name. -/
def MsgAddress.account : MsgAddress → Option (Sint 8 × Uint 256)
  | .std .none workchain address => some (workchain, address)
  | .tag6 workchain address => some (workchain, address)
  | _ => .none

def accountAddress (workchain : Sint 8) (address : Uint 256) : MsgAddress := .std .none workchain address

structure InMsg where
  flags : Uint 4
  src : MsgAddress
  value : Grams
  body : Slice
  balance : Grams

structure OutMsg where
  dest : MsgAddress
  value : Grams
  body : Slice
  mode : Nat

/-- `flags & 1`: the message has bounced. -/
def InMsg.bounced (m : InMsg) : Bool := m.flags.val.testBit 0

/-- Arrival of a queued message, sent with `bounce` set, at its destination. -/
def OutMsg.deliver (m : OutMsg) (src : MsgAddress) (value balance : Grams) : InMsg :=
  { flags := ⟨6, by decide⟩, src, value, body := m.body, balance }

@[simp] theorem parseStdAddr_account (workchain : Sint 8) (address : Uint 256) :
    parseStdAddr (accountAddress workchain address) = .ok (workchain.val, address.val) := rfl

theorem getAddressSlice_val (workchain : Sint 8) (address : Uint 256) :
    getAddressSlice workchain.val (address : Int) = .ok (.tag6 workchain address) := by
  simp [getAddressSlice]

/-- An address that names an account and parses, parses to that account. -/
theorem account_parse {src : MsgAddress} {workchain : Sint 8} {address : Uint 256} {wc addr : Int}
    (named : src.account = some (workchain, address)) (parsed : parseStdAddr src = .ok (wc, addr)) :
    wc = workchain.val ∧ addr = address.val := by
  unfold MsgAddress.account at named
  split at named
  · cases named
    cases parsed
    exact ⟨rfl, rfl⟩
  · cases parsed
  · cases named

theorem parseStdAddr_range {src : MsgAddress} {wc addr : Int} (h : parseStdAddr src = .ok (wc, addr)) :
    0 ≤ addr ∧ addr < 2 ^ 256 := by
  have rewritten : ∀ (anycast : Option Anycast) (address : List Bool), address.length = 256 →
      (natOf (rewriteAddress anycast address) : Int) < 2 ^ 256 := by
    intro anycast address len
    have bound := natOf_lt (rewriteAddress anycast address)
    have width : (rewriteAddress anycast address).length = 256 := by
      cases anycast with
      | none => exact len
      | some a =>
        have := a.depth
        simp only [rewriteAddress, List.length_append, List.length_drop]
        omega
    rw [width] at bound
    exact_mod_cast bound
  unfold parseStdAddr at h
  split at h
  · next address =>
    obtain ⟨-, rfl⟩ := Prod.mk.inj (Except.ok.inj h)
    omega
  · obtain ⟨-, rfl⟩ := Prod.mk.inj (Except.ok.inj h)
    exact ⟨Int.natCast_nonneg _, rewritten _ _ (by simp)⟩
  · split at h
    · next len =>
      obtain ⟨-, rfl⟩ := Prod.mk.inj (Except.ok.inj h)
      exact ⟨Int.natCast_nonneg _, rewritten _ _ len⟩
    · cases h
  · cases h

end Tvm
