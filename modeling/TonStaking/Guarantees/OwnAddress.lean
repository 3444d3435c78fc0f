import TonStaking.Source.Transaction.Addresses
import TonStaking.Guarantees.FailedActions

/-!
# The address an account gives and gets

All addresses that an account writes or accepts as its own name the same account once
their prefix is rewritten. A message back to one of them goes to the instance in the
shard of its sender, and to this account if both begin with the same prefix.
-/
namespace TonStaking.Guarantees.OwnAddress

open Tvm TonStaking.Source.Transaction

/-- The address, rewritten, is the one of the account. -/
def Names (id : AccountId) (a : MsgAddress) : Prop :=
  (addressFields a).map (fun f => (f.2.1, rewriteAddress f.1 f.2.2)) = some (id.workchain.val, Uint.bits id.addr)

/-- A message of another account to the address is delivered to the account. -/
def Delivered (cfg : ActionConfig) (other : Account) (id : AccountId) (a : MsgAddress) : Prop :=
  ∃ dest toMc, checkRewriteDestAddr cfg other a = some (dest, toMc) ∧ Names id dest

/-- A message back is delivered where messages to the address are allowed and if its sender has the prefix. -/
def Answered (id : AccountId) : Prop :=
  ∀ cfg other limit (pfx : List Bool), pfx.length ≤ 30 →
    (Delivered cfg other id (id.packAddr limit pfx) ↔
      destAllowed cfg (maybeAnycast id.addr pfx.length) id.workchain.val 256 = true ∧
        (Uint.bits other.addr).take pfx.length = (Uint.bits id.addr).take pfx.length)

structure Consistent (id : AccountId) : Prop where
  computed : Names id id.computeMyAddr.1 ∧ Names id id.computeMyAddr.2
  created : Names id id.initNew
  recomputed : ∀ myAddr myAddrExact, (∀ a ∈ myAddr, Names id a) → (∀ a ∈ myAddrExact, Names id a) →
    ∀ pfx : List Bool, pfx.length ≤ 30 → ∃ a, id.recomputeTmpAddr myAddr myAddrExact pfx = some a ∧ Names id a
  accepted : ∀ account : Account, Names id account.myAddr → Names id account.myAddrExact →
    ∀ src sent, checkReplaceSrcAddr account src = some sent → Names id sent
  answered : Answered id

theorem packAddr_names (id : AccountId) (limit : Sint 8) {pfx : List Bool} (short : pfx.length ≤ 30) :
    Names id (id.packAddr limit pfx) := by
  rw [Names, packAddr_fields short, Option.map_some, rewriteAddress_withPfx short, List.take_append_drop]

theorem packAddr_answered (id : AccountId) : Answered id := by
  intro cfg other limit pfx short
  obtain ⟨dest, toMc, sent, there⟩ :=
    checkRewriteDestAddr_fields cfg other (packAddr_fields short limit) (withPfx_length short)
  have whole := List.take_append_drop pfx.length (Uint.bits id.addr)
  have named : Names id dest ↔ (Uint.bits other.addr).take pfx.length = (Uint.bits id.addr).take pfx.length := by
    rw [Names, there, maybeAnycast_map, Option.map_some, rewriteAddress_withPfx short]
    refine ⟨fun same => List.append_cancel_right ((Prod.mk.inj (Option.some.inj same)).2.trans whole.symm), ?_⟩
    intro same
    rw [same, whole]
  rw [Delivered, sent]
  split
  · next allowed => simp [allowed, named]
  · next refused => simp [refused]

/-- The own address is written consistently. -/
theorem own_address_consistent (id : AccountId) : Consistent id where
  computed := ⟨packAddr_names id _ id.splitDepth, packAddr_names id _ (Nat.zero_le _)⟩
  created := packAddr_names id _ (Nat.zero_le _)
  recomputed := by
    intro myAddr myAddrExact named exact' pfx short
    unfold AccountId.recomputeTmpAddr
    split
    · next here =>
      obtain ⟨a, rfl⟩ := Option.isSome_iff_exists.mp here.2
      exact ⟨a, rfl, exact' a rfl⟩
    split
    · next here =>
      obtain ⟨a, rfl⟩ := Option.isSome_iff_exists.mp here.2
      exact ⟨a, rfl, named a rfl⟩
    · rw [if_neg (Nat.not_lt.mpr short)]
      exact ⟨_, rfl, packAddr_names id _ short⟩
  accepted := by
    intro account named exact' src sent accepted
    unfold checkReplaceSrcAddr at accepted
    split at accepted
    · cases accepted
      exact named
    · split at accepted
      · next own =>
        cases accepted
        exact own.elim (· ▸ named) (· ▸ exact')
      · cases accepted
    · cases accepted
  answered := packAddr_answered id

/-- The instance of a contract in the left half of the base workchain. -/
def leftHalf : AccountId := ⟨⟨0, by decide⟩, 0, [true], by decide, by decide⟩

/-- An account in the right half. -/
def rightHalf : Account := { (FailedActions.sampleInput []).account with addr := Fin.ofNat _ (2 ^ 255) }

def openConfig : ActionConfig :=
  { (FailedActions.sampleInput []).cfg with workchains := fun _ => some ⟨true, fun _ => true⟩ }

/-- The answer from the right half is sent, but not to the left half. -/
theorem right_half_answers_elsewhere :
    (checkRewriteDestAddr openConfig rightHalf leftHalf.computeMyAddr.1).isSome = true ∧
      ¬ Delivered openConfig rightHalf leftHalf leftHalf.computeMyAddr.1 := by
  refine ⟨by decide +kernel, fun delivered => ?_⟩
  have same := ((packAddr_answered leftHalf openConfig rightHalf ⟨126, by decide⟩ _ leftHalf.splitDepth).mp delivered).2
  exact absurd same (by decide +kernel)

end TonStaking.Guarantees.OwnAddress
