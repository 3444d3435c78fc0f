import TonStaking.Source.NominatorContract.Handlers

/-!
# Nominator contract: what one message can do

One constructor for each request that can succeed. A nominator writes to the
pool only in answer to a balance request, and it never writes to the elector.
-/
namespace TonStaking.Source.NominatorContract
open Tvm

/-- A sent message has a body that fits the cell. -/
theorem sendMessage_success {addr : MsgAddress} {op queryId grams : Int} {body : Option Slice}
    {mode : Nat} {sent : OutMsg} (h : sendMessage addr op queryId body grams mode = .ok sent) :
    ∃ (o : Uint 32) (q : Uint 64) (content : Slice), (o : Int) = op ∧ (q : Int) = queryId ∧
      body = some content ∧ headerWidth addr sent.value + content.bits.length ≤ 1023 ∧
      sent.dest = addr ∧ (sent.value : Int) = grams ∧
      sent.body = ⟨Uint.bits o ++ (Uint.bits q ++ content.bits), content.refs⟩ := by
  obtain ⟨value, stored, h⟩ := of_bind h
  obtain ⟨o, storedOp, h⟩ := of_bind h
  obtain ⟨q, storedQuery, h⟩ := of_bind h
  obtain ⟨content, present, h⟩ := of_bind h
  rw [orNull_success] at present
  split at h
  · next fits =>
    cases h
    exact ⟨o, q, content, storeUint_success storedOp, storeUint_success storedQuery, present, fits.1,
      rfl, storeGrams_success stored, rfl⟩
  · cases h

theorem sendMessage_null (addr : MsgAddress) (op queryId grams : Int) (mode : Nat) (sent : OutMsg) :
    sendMessage addr op queryId none grams mode ≠ .ok sent := by
  intro h
  obtain ⟨_, _, content, -, -, present, -⟩ := sendMessage_success h
  cases present

theorem packStakeOrder_width (order : StakeOrder) : (packStakeOrder order).bits.length = 576 := by
  simp [packStakeOrder]

/-- The header takes at least 481 bits and the order 576. -/
theorem sendMessage_stake_order (elector : Uint 256) (op queryId grams : Int) (order : StakeOrder)
    (mode : Nat) (sent : OutMsg) :
    sendMessage (getElectorAddrS elector) op queryId (some (packStakeOrder order)) grams mode ≠
      .ok sent := by
  intro h
  obtain ⟨_, _, content, -, -, present, fits, -⟩ := sendMessage_success h
  cases present
  have order_width := packStakeOrder_width order
  have header : 6 + (4 + 8 + 256) + 107 + 32 + 64 ≤ headerWidth (getElectorAddrS elector) sent.value := by
    simp only [headerWidth, getElectorAddrS, MsgAddress.width]
    omega
  omega

section Refused

variable (elector : Uint 256) (s : State) (sAddr : MsgAddress) (result : State × List OutMsg)

theorem processStake_fails (grams : Int) (inMsg : Slice) : processStake elector s sAddr grams inMsg ≠ .ok result := by
  intro h
  obtain ⟨_, -, h⟩ := of_bind h
  obtain ⟨order, -, h⟩ := of_bind h
  obtain ⟨_, -, h⟩ := of_bind h
  obtain ⟨_, -, h⟩ := of_bind h
  obtain ⟨sent, queued, -⟩ := of_bind h
  exact sendMessage_stake_order elector _ _ _ order _ sent queued

theorem processRecoverStakeRequest_fails : processRecoverStakeRequest elector s sAddr ≠ .ok result := by
  intro h
  obtain ⟨_, -, h⟩ := of_bind h
  obtain ⟨sent, queued, -⟩ := of_bind h
  exact sendMessage_null _ _ _ _ _ sent queued

theorem processWithdrawRequest_fails (queryId grams : Int) :
    processWithdrawRequest s sAddr queryId grams ≠ .ok result := by
  intro h
  obtain ⟨_, -, h⟩ := of_bind h
  obtain ⟨sent, queued, -⟩ := of_bind h
  exact sendMessage_null _ _ _ _ _ sent queued

end Refused

/-- `stake_at` and `stake` after a stake has come back (lines 112-118). -/
def recovered (s : State) (value : Int) : Int × Int :=
  if (s.stake : Int) ≤ value then (0, 0) else (s.stakeAt, s.stake - value)

/-- The answer to a balance request (line 179). -/
structure BalanceAnswer (s : State) (m : InMsg) (queryId : Uint 64) (answer : OutMsg) : Prop where
  dest : answer.dest = m.src
  value : (answer.value : Int) = 1000000
  body : answer.body = ⟨Uint.bits (0x4c425447 : Uint 32) ++
    (Uint.bits queryId ++ (gramsBits m.balance ++ gramsBits s.stake)), []⟩

inductive Effect (elector : Uint 256) (s : State) (m : InMsg) : Request → State → List OutMsg → Prop
  | simpleTransfer : Effect elector s m .simpleTransfer s []
  | ignored : Effect elector s m .ignored s []
  | recoverStake {after : State} (sender : fromElector elector m.src = .ok ())
      (packed : packState s.initialized s.poolAddress s.walletId (recovered s m.value).1 s.stakeSent
        (s.balance + m.value) (recovered s m.value).2 = .ok after) : Effect elector s m .recoverStake after []
  | returnStake {reason : Uint 32} (sender : fromElector elector m.src = .ok ()) :
      Effect elector s m (.returnStake reason)
        { s with stakeSent := 0, stakeAt := if s.stake.val = 0 then 0 else s.stakeAt } []
  | confirmStake (sender : fromElector elector m.src = .ok ()) :
      Effect elector s m .confirmStake { s with stakeSent := 0, stake := s.stakeSent } []
  | updateBalance {queryId : Uint 64} {answer : OutMsg} (sender : fromPool s m.src = .ok ())
      (answered : BalanceAnswer s m queryId answer) :
      Effect elector s m (.updateBalance queryId) { s with balance := m.balance } [answer]

section Inversion

variable {elector : Uint 256} {s after : State} {sAddr : MsgAddress} {out : List OutMsg} {m : InMsg} {i : Input}

theorem packState_val (t : State) :
    packState t.initialized t.poolAddress t.walletId t.stakeAt t.stakeSent t.balance t.stake = .ok t := by
  simp [packState]

theorem processReturnStake_effects (h : processReturnStake elector s sAddr = .ok (after, out)) :
    out = [] ∧ fromElector elector sAddr = .ok () ∧
      after = { s with stakeSent := 0, stakeAt := if s.stake.val = 0 then 0 else s.stakeAt } := by
  obtain ⟨_, sender, h⟩ := of_bind h
  obtain ⟨t, packed, h⟩ := of_bind h
  cases h
  refine ⟨rfl, sender, ?_⟩
  have same := packState_val { s with
    stakeSent := 0, stakeAt := if s.stake.val = 0 then 0 else s.stakeAt }
  have stakeAt : ((if s.stake.val = 0 then (0 : Uint 32) else s.stakeAt : Uint 32) : Int) =
      if s.stake.val = 0 then (0 : Int) else s.stakeAt := by
    split
    · rfl
    · rfl
  rw [stakeAt] at same
  exact Except.ok.inj (packed.symm.trans same)

theorem processConfirmStake_effects (h : processConfirmStake elector s sAddr = .ok (after, out)) :
    out = [] ∧ fromElector elector sAddr = .ok () ∧ after = { s with stakeSent := 0, stake := s.stakeSent } := by
  obtain ⟨_, sender, h⟩ := of_bind h
  obtain ⟨t, packed, h⟩ := of_bind h
  cases h
  have same := packState_val { s with stakeSent := 0, stake := s.stakeSent }
  exact ⟨rfl, sender, Except.ok.inj (packed.symm.trans same)⟩

theorem processUpdateBalanceRequest_effects {queryId : Uint 64}
    (h : processUpdateBalanceRequest s m.src queryId m.balance = .ok (after, out)) :
    fromPool s m.src = .ok () ∧ after = { s with balance := m.balance } ∧
      ∃ answer, out = [answer] ∧ BalanceAnswer s m queryId answer := by
  obtain ⟨_, sender, h⟩ := of_bind h
  obtain ⟨sent, queued, h⟩ := of_bind h
  obtain ⟨t, packed, h⟩ := of_bind h
  cases h
  have same := packState_val { s with balance := m.balance }
  refine ⟨sender, Except.ok.inj (packed.symm.trans same), sent, rfl, ?_⟩
  obtain ⟨o, q, content, op, query, present, -, dest, value, body⟩ := sendMessage_success queued
  cases present
  have op_eq : o = 0x4c425447 := Fin.ext (by exact_mod_cast op)
  have query_eq : q = queryId := Fin.ext (by exact_mod_cast query)
  rw [op_eq, query_eq] at body
  exact ⟨dest, value, body⟩

theorem handle_effect {request : Request}
    (h : handle elector s m request = .ok (after, out)) : Effect elector s m request after out := by
  cases request with
  | simpleTransfer =>
    obtain ⟨rfl, rfl⟩ := h
    exact .simpleTransfer
  | ignored =>
    obtain ⟨rfl, rfl⟩ := h
    exact .ignored
  | recoverStake =>
    obtain ⟨_, sender, h⟩ := of_bind h
    obtain ⟨t, packed, h⟩ := of_bind h
    cases h
    exact .recoverStake sender packed
  | returnStake reason =>
    obtain ⟨rfl, sender, rfl⟩ := processReturnStake_effects h
    exact .returnStake sender
  | confirmStake =>
    obtain ⟨rfl, sender, rfl⟩ := processConfirmStake_effects h
    exact .confirmStake sender
  | updateBalance queryId =>
    obtain ⟨sender, rfl, answer, rfl, answered⟩ := processUpdateBalanceRequest_effects h
    exact .updateBalance sender answered
  | stake inMsg => exact (processStake_fails _ _ _ _ _ _ h).elim
  | recoverStakeRequest => exact (processRecoverStakeRequest_fails _ _ _ _ h).elim
  | withdraw queryId grams => exact (processWithdrawRequest_fails _ _ _ _ _ h).elim

variable (h : receive elector s i = .ok (after, out))
include h

theorem receive_effect :
    (after = s ∧ out = []) ∨ ∃ m request, i = .internal m ∧ parseRequest m.body = .ok request ∧
      Effect elector s m request after out := by
  cases i with
  | aborted m => cases h
  | external balance =>
    obtain ⟨_, -, h⟩ := of_bind h
    cases h
  | internal m =>
    change recvInternal elector s m = .ok (after, out) at h
    unfold recvInternal at h
    split at h
    · simp only [Except.ok.injEq, Prod.mk.injEq] at h
      exact .inl ⟨h.1.symm, h.2.symm⟩
    · obtain ⟨request, parsed, handled⟩ := of_bind h
      exact .inr ⟨m, request, rfl, parsed, handle_effect handled⟩

/-- A nominator queues a message only in answer to a balance request of its pool. -/
theorem receive_answers :
    out = [] ∨ ∃ m queryId answer, i = .internal m ∧ fromPool s m.src = .ok () ∧ out = [answer] ∧
      BalanceAnswer s m queryId answer ∧ after = { s with balance := m.balance } := by
  rcases receive_effect h with ⟨-, silent⟩ | ⟨m, request, source, -, effect⟩
  · exact .inl silent
  cases effect with
  | simpleTransfer | ignored | recoverStake sender packed | returnStake sender | confirmStake sender => exact .inl rfl
  | @updateBalance queryId answer sender answered =>
    exact .inr ⟨m, queryId, answer, source, sender, rfl, answered, rfl⟩

end Inversion

end TonStaking.Source.NominatorContract
