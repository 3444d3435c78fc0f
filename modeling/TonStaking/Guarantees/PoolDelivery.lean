import TonStaking.Guarantees.FailedActions
import TonStaking.Guarantees.NominatorRegistry

/-!
# Delivery of the pool's messages

A redemption in its own period and a request for balances leave messages with
mode 64. The addresses that `get_address_slice` writes are not addresses of
accounts, so the action list does not validate, and the action phase ends before
the first message: nothing is sent unless nothing was to be sent.
-/
namespace TonStaking.Guarantees.PoolDelivery
open Tvm Source Source.StakingPool NominatorRegistry
open Source.Transaction hiding request

section Definitions

/-- An order of the pool and its inbound message. -/
inductive Order where
  | redeem (sAddr : MsgAddress) (queryId msgValue subscriptionId : Int)
  | fetchBalances (sAddr : MsgAddress) (msgValue : Int) (balance : Grams)

def Order.process (s : StakingPool.State) : Order → Outcome (StakingPool.State × List OutMsg)
  | .redeem sAddr queryId msgValue subscriptionId => processRedeem s sAddr queryId msgValue subscriptionId
  | .fetchBalances sAddr msgValue balance => processFetchBalances s sAddr msgValue balance

/-- A redemption is one of the current period. -/
def Order.Current (s : StakingPool.State) : Order → Prop
  | .redeem _ _ _ subscriptionId =>
    ∀ sub, s.subscriptions.udictGet? subscriptionId = some sub → sub.startPeriod = s.currentPeriod
  | .fetchBalances _ _ _ => True

/-- The message that `send_message` makes: no source, no fees, IHR disabled. -/
def suggested (packing : OutMsg → Nat → Packing) (m : OutMsg) : Message where
  info := .int { ihrDisabled := true, src := .none, dest := m.dest, value := some ⟨m.value, none⟩, ihrFee := 0, fwdFee := 0 }
  largeInit := false
  packing := packing m

def sendAction (packing : OutMsg → Nat → Packing) (m : OutMsg) : Action :=
  .sendMsg (Fin.ofNat _ m.mode) (suggested packing m)

/-- The action list of a run that queued these messages. -/
def actionList (packing : OutMsg → Nat → Packing) (out : List OutMsg) : ActionList :=
  ⟨out.map fun m => .action (sendAction packing m), false⟩

def amounts (out : List OutMsg) : Int := (out.map fun m => (m.value : Int)).sum

/-- What the messages are to carry: their amounts, and the inbound value if there is one to carry it. -/
def promised (tx : Tx) (out : List OutMsg) : Int :=
  amounts out + if out = [] then 0 else tx.msgBalanceRemaining.grams

variable (cellHash : Cell → Uint 256) (env : ActionEnv) (tx : Tx) (newData : Option Cell)
  (packing : OutMsg → Nat → Packing)

/-- The action phase succeeds and sends every message, and the gas fees are missing at most once in what
leaves the account. -/
def Delivered (out : List OutMsg) : Prop :=
  ∃ after, prepareActionPhase cellHash env tx newData (actionList packing out) = .ok (after, 0) ∧
    after.outMsgs.length = out.length ∧
    promised tx out - (tx.balance.grams - after.balance.grams) ≤ env.gasFees

/-- The order has nothing to send: it asks for balances and no nominator above address 0 is active. -/
def Order.Silent (s : StakingPool.State) : Order → Prop
  | .redeem _ _ _ _ => False
  | .fetchBalances _ _ _ =>
    ∀ (address : Nat) (x : Nominator), 0 < address → nominatorAt s.poolConfig.nominators address = some x →
      x.status.val ≠ 1

/-- The transaction of an ordinary account after its compute phase, with a balance for all messages. -/
structure Ready (out : List OutMsg) : Prop where
  early : Early tx
  ordinary : env.account.isSpecial = false
  paid : 0 < env.gasFees
  covered : amounts out + tx.msgBalanceRemaining.grams ≤ tx.balance.grams

end Definitions

section Queued

variable {s after : StakingPool.State} {out : List OutMsg}

/-- A list that the pool leaves is empty, or one of its messages has an address with tag 6. -/
theorem queued_tagged {order : Order} (current : order.Current s) (done : order.process s = .ok (after, out)) :
    (out = [] ↔ order.Silent s) ∧ (out ≠ [] → ∃ m ∈ out, ∃ wc address, m.dest = .tag6 wc address) := by
  cases order with
  | redeem sAddr queryId msgValue subscriptionId =>
    obtain ⟨id, sub, written, period, updated, rfl, effect⟩ := processRedeem_effects done
    have same := current sub (by rw [Dict.udictGet?_natCast]; exact effect.found)
    rcases effect.branch with now | ⟨start, last, earlier⟩
    · obtain ⟨back, fine, rfl, -, fineDest, -⟩ := now.sent
      exact ⟨iff_of_false (List.cons_ne_nil _ _) not_false, fun _ => ⟨fine, by simp, _, _, fineDest⟩⟩
    · exact absurd same earlier.otherPeriod
  | fetchBalances sAddr msgValue balance =>
    obtain ⟨period, effect⟩ := processFetchBalances_effects done
    obtain ⟨targets, dests, -, asked⟩ := requestBalances_targets
      (Nat.lt_succ_of_le (Dict.remaining_le s.poolConfig.nominators 0)) effect.sent
    constructor
    · rw [← List.map_eq_nil_iff, dests, List.map_eq_nil_iff, ← List.map_eq_nil_iff (f := Fin.val),
        List.eq_nil_iff_forall_not_mem]
      simp only [asked, Asked, Order.Silent, not_and, not_exists, Int.natCast_pos]
      exact forall_congr' fun _ => forall_comm
    · intro some
      obtain ⟨m, member⟩ := List.exists_mem_of_ne_nil out some
      obtain ⟨target, -, dest⟩ := List.mem_map.mp (dests ▸ List.mem_map_of_mem member)
      exact ⟨m, member, _, target, dest.symm⟩

variable {cellHash : Cell → Uint 256} {env : ActionEnv} {tx : Tx} {newData : Option Cell}
  {packing : OutMsg → Nat → Packing}

theorem actions_tagged {maxActions : Nat} (tagged : ∃ m ∈ out, ∃ wc address, m.dest = .tag6 wc address) :
    (actionList packing out).actions maxActions = .error 33 ∨ (actionList packing out).actions maxActions = .error 34 := by
  obtain ⟨m, member, wc, address, dest⟩ := tagged
  have invalid : (actionList packing out).nodes.all Node.valid = false := by
    rw [List.all_eq_false]
    refine ⟨_, List.mem_map_of_mem member, ?_⟩
    simp [Node.valid, sendAction, suggested, MsgInfo.valid, dest, internalAddress]
  unfold ActionList.actions
  rw [invalid]
  split
  · exact .inl rfl
  · exact .inr rfl

theorem silent_delivered (early : Early tx) (paid : 0 < env.gasFees) : Delivered cellHash env tx newData packing [] := by
  refine ⟨_, prepareActionPhase_nil cellHash env newData early, rfl, ?_⟩
  simp only [promised, amounts, List.map_nil, List.sum_nil, if_true]
  omega

theorem tagged_not_delivered (tagged : ∃ m ∈ out, ∃ wc address, m.dest = .tag6 wc address) :
    ¬ Delivered cellHash env tx newData packing out := by
  rintro ⟨after, done, -⟩
  unfold prepareActionPhase at done
  rcases actions_tagged tagged with error | error <;> rw [error] at done <;> cases done

/-- The messages of the pool are delivered exactly if the order has none to send. -/
theorem delivered_iff_silent (cellHash : Cell → Uint 256) (env : ActionEnv) (tx : Tx) (newData : Option Cell)
    (packing : OutMsg → Nat → Packing) (s after : StakingPool.State) (order : Order) (out : List OutMsg)
    (current : order.Current s) (done : order.process s = .ok (after, out)) (ready : Ready env tx out) :
    Delivered cellHash env tx newData packing out ↔ order.Silent s := by
  obtain ⟨none, some⟩ := queued_tagged current done
  rw [← none]
  constructor
  · intro delivered
    by_contra messages
    exact tagged_not_delivered (some messages) delivered
  · rintro rfl
    exact silent_delivered ready.early ready.paid

/-- The sample pool with a deposit of 2 Gram, and the order of its subscriber to redeem it at once. -/
def depositedPool : StakingPool.State := run (StakingPool.receive sampleHash) sampleState [sampleDeposit 8 2000000000]

def redemption : Order := .redeem (sampleSender 8) 1 1000000000 2

/-- The transaction of the pool with 5 Gram, of which the order has brought one. -/
def redemptionTx : Tx :=
  { newTx (FailedActions.sampleInput []) with balance := ⟨5000000000, none⟩, msgBalanceRemaining := ⟨1000000000, none⟩ }

def redemptionEnv : ActionEnv := actionEnv (FailedActions.sampleInput []) 100

theorem redemption_queued :
    ∃ after out, redemption.Current depositedPool ∧ redemption.process depositedPool = .ok (after, out) ∧
      Ready redemptionEnv redemptionTx out := by
  have ran : ((redemption.process depositedPool).toOption.map fun r => r.2.map fun m => (m.value : Int)) =
      some [1805000000, 95000000] := by decide +kernel
  have current : ((depositedPool.subscriptions.udictGet? 2).map fun sub => sub.startPeriod) =
      some depositedPool.currentPeriod := by decide +kernel
  cases done : redemption.process depositedPool with
  | error e =>
    rw [done] at ran
    cases ran
  | ok result =>
    obtain ⟨after, out⟩ := result
    rw [done] at ran
    have values : (out.map fun m => (m.value : Int)) = [1805000000, 95000000] := Option.some.inj ran
    refine ⟨after, out, ?_, rfl, ⟨rfl, by decide, by decide, by decide⟩, rfl, by decide, ?_⟩
    · intro sub found
      rw [found] at current
      exact Option.some.inj current
    · rw [amounts, values]
      decide

/-- Neither the subscriber nor the owner is paid. -/
theorem redemption_not_delivered :
    ∃ after out, redemption.Current depositedPool ∧ redemption.process depositedPool = .ok (after, out) ∧
      Ready redemptionEnv redemptionTx out ∧
      ∀ packing newData, ¬ Delivered FailedActions.sampleHash redemptionEnv redemptionTx newData packing out := by
  obtain ⟨after, out, current, done, ready⟩ := redemption_queued
  obtain ⟨none, some⟩ := queued_tagged current done
  exact ⟨after, out, current, done, ready, fun _ _ => tagged_not_delivered (some fun empty => none.mp empty)⟩

theorem redemption_delivered_iff :
    ∃ after out, redemption.process depositedPool = .ok (after, out) ∧ ∀ packing,
      (Delivered FailedActions.sampleHash redemptionEnv redemptionTx none packing out ↔
        redemption.Silent depositedPool) := by
  obtain ⟨after, out, current, done, ready⟩ := redemption_queued
  exact ⟨after, out, done, fun packing =>
    delivered_iff_silent FailedActions.sampleHash redemptionEnv redemptionTx none packing depositedPool after redemption out
      current done ready⟩

end Queued

end TonStaking.Guarantees.PoolDelivery
