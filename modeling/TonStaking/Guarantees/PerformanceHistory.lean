import TonStaking.Source.StakingPool.RequestEffect

/-!
# Performance history

The performance dictionary of an initialised pool holds one record for every
period up to the current one. Closed periods have a positive rate: the rate of
a closing period is stored as an unsigned amount and divides the assets, so a
zero or negative quotient aborts `process_new_period`. A redemption therefore
finds both records it reads and never divides by zero.
-/
namespace TonStaking.Guarantees.PerformanceHistory
open Tvm Source.StakingPool

/-- The subscription has started by this period and has one of three statuses. -/
def Dated (period : Uint 16) (sub : Subscription) : Prop :=
  sub.startPeriod ≤ period ∧ (sub.status.val = 0 ∨ sub.status.val = 1 ∨ sub.status.val = 2)

structure History (s : State) : Prop where
  keys : ∀ k, (s.performance.get? k).isSome ↔ k ≤ s.currentPeriod.val
  closed : ∀ k p, k < s.currentPeriod.val → s.performance.get? k = some p → 1 ≤ p.rate.val
  current : ∀ p, s.performance.get? s.currentPeriod = some p → p.rate.val = 0
  subscriptions : ∀ id sub, s.subscriptions.get? id = some sub → Dated s.currentPeriod sub

variable {cellHash : Cell → Uint 256}
variable {s after : State} {m : InMsg} {request : Request} {out : List OutMsg} {msgValue : Int}

/-- Rewriting the record of the current period without touching its rate. -/
theorem History.update (history : History s) {current updated : Performance}
    (period : s.performance.get? s.currentPeriod = some current) (rate : (updated.rate : Int) = current.rate)
    (same : after.currentPeriod = s.currentPeriod) (performance : after.performance = s.recorded updated)
    (subscriptions : ∀ id sub, after.subscriptions.get? id = some sub → Dated s.currentPeriod sub) :
    History after where
  keys k := by
    rw [performance, Dict.get?_set, same]
    split
    · next here => simp [here]
    · exact history.keys k
  closed k p below found := by
    rw [same] at below
    rw [performance, Dict.get?_set, if_neg (by omega)] at found
    exact history.closed k p below found
  current p found := by
    rw [performance, same, Dict.get?_set, if_pos rfl] at found
    cases found
    have zero := history.current current period
    omega
  subscriptions id sub found := by
    rw [same]
    exact subscriptions id sub found

theorem initial_history {poolConfig : PoolConfig} {init : InitMessage} {balance : Grams}
    (h : tryInit cellHash 0 poolConfig init balance = .ok s) : History s := by
  obtain ⟨first, opened, sub, hash, effect⟩ := tryInit_effects h
  have lookup : ∀ k, s.performance.get? k =
      if k = 1 then some opened else if k = 0 then some first else none := by
    rw [effect.performance]
    simp
  refine ⟨?_, ?_, ?_, ?_⟩
  · intro k
    rw [lookup, effect.currentPeriod]
    split
    · simp; omega
    split
    · simp; omega
    · simp; omega
  · intro k p below found
    have zero : k = 0 := by have := effect.currentPeriod; omega
    rw [lookup, if_neg (by omega), if_pos zero] at found
    cases found
    rw [effect.firstRate]
    decide
  · intro p found
    rw [effect.currentPeriod, lookup, if_pos rfl] at found
    cases found
    exact_mod_cast effect.opens.rate
  · intro id x found
    rw [effect.subscriptions, Dict.get?_set] at found
    split at found
    · cases found
      refine ⟨?_, .inr (.inl effect.status)⟩
      rw [Fin.le_def, effect.start]
      exact Nat.zero_le _
    · cases found

theorem effect_subscriptions (history : History s) (effect : Effect cellHash s m request after out) (id : Nat)
    (sub : Subscription) (found : after.subscriptions.get? id = some sub) : Dated s.currentPeriod sub := by
  cases effect.origin found with
  | kept found => exact history.subscriptions id sub found
  | opened start status workchain => exact ⟨Nat.le_of_eq (congrArg Fin.val start), .inr (.inl status)⟩
  | redeemed found start status workchain =>
    refine ⟨?_, status.imp_right .inr⟩
    rw [start]
    exact (history.subscriptions id _ found).1

/-- Closing a period keeps its positive rate and opens the next record with rate zero. -/
theorem newPeriod_history {sAddr : MsgAddress} {current previous closed opened : Performance}
    {next : Uint 16} (history : History s)
    (effect : NewPeriodEffect s sAddr current previous closed opened next after)
    (subscriptions : ∀ id sub, after.subscriptions.get? id = some sub → Dated s.currentPeriod sub) :
    History after := by
  have advanced := effect.advanced
  have lookup : ∀ k, after.performance.get? k =
      if k = next.val then some opened
      else if k = s.currentPeriod.val then some closed else s.performance.get? k := by
    rw [effect.performance]
    simp
  refine ⟨?_, ?_, ?_, ?_⟩
  · intro k
    rw [lookup, effect.currentPeriod]
    split
    · simp; omega
    split
    · simp; omega
    · rw [history.keys]
      omega
  · intro k p below found
    rw [effect.currentPeriod] at below
    rw [lookup, if_neg (by omega)] at found
    split at found
    · cases found
      exact effect.ratePos
    · exact history.closed k p (by omega) found
  · intro p found
    rw [effect.currentPeriod, lookup, if_pos rfl] at found
    cases found
    exact_mod_cast effect.opens.rate
  · intro id sub found
    obtain ⟨start, status⟩ := subscriptions id sub found
    rw [effect.currentPeriod, Dated]
    rw [Fin.le_def] at start ⊢
    exact ⟨by omega, status⟩

theorem effect_history (history : History s) (effect : Effect cellHash s m request after out) : History after := by
  have subscriptions := effect_subscriptions history effect
  cases effect with
  | ignored | ownersTransfer owner => exact history
  | deposit effect | gotBalance effect =>
    exact history.update effect.period effect.holds.rate (by rw [effect.state]) (by rw [effect.state]) subscriptions
  | redeem effect =>
    exact history.update effect.period effect.rate (by rw [effect.state]) (by rw [effect.state]) subscriptions
  | fetch effect =>
    refine history.update effect.period ?_ (by rw [effect.state]) (by rw [effect.state]) subscriptions
    rfl
  | activate effect =>
    rw [effect.state]
    exact ⟨history.keys, history.closed, history.current, history.subscriptions⟩
  | newPeriod effect => exact newPeriod_history history effect subscriptions
  | setConfig parsed effect =>
    exact ⟨history.keys, history.closed, history.current, history.subscriptions⟩

theorem reachable_history (reachable : Reachable cellHash s) : History s := by
  apply reachable.invariant_effect
  · intro poolConfig init balance s initialised
    exact initial_history initialised
  · intro s m request after out before effect
    exact effect_history before effect

section Redeem

/-- The exceptions a redemption by the subscriber can still raise: too few assets
in the period (57), or an amount or query id outside of its field. -/
def RedeemExc (e : Exc) : Prop := e = .code 57 ∨ e = .rangeChk

variable {s : State} {sub : Subscription} {sAddr : MsgAddress} {queryId : Int} {current : Performance} {id : Nat}

private theorem product_fits {n : Nat} (narrow : n ≤ 120) (a : Grams) (b : Uint n) :
    mulInt (a : Int) b = .ok ((a : Int) * b) := by
  have below : (a.val : Int) * b.val < 2 ^ 256 := by
    have hb : b.val < 2 ^ 120 := lt_of_lt_of_le b.isLt (Nat.pow_le_pow_right two_pos narrow)
    have : a.val * b.val < 2 ^ 120 * 2 ^ 120 := Nat.mul_lt_mul'' a.isLt hb
    omega
  have above : (0 : Int) ≤ (a.val : Int) * b.val := by positivity
  exact mulInt_of_fits (by omega) below

theorem redeemCurrent_errors : ErrorsIn RedeemExc (redeemCurrent s sAddr queryId sub current) := by
  have range : RedeemExc .rangeChk := .inr rfl
  refine (throwUnless_errorsIn (.inl rfl) _).bind fun _ _ => ?_
  rw [product_fits (by decide), ok_bind, divInt_of_ne (by decide), ok_bind]
  refine ErrorsIn.bind (sendMessage_errorsIn range _ _ _ _ _ _) fun _ _ => ?_
  rw [getAddressSlice_owner, ok_bind]
  refine ErrorsIn.bind (sendMessage_errorsIn range _ _ _ _ _ _) fun _ _ => ?_
  exact errorsIn_ok _

/-- The records that a redemption of an earlier subscription reads. -/
structure EarlierRecords (s : State) (sub : Subscription) (current start last : Performance) : Prop where
  now : s.performance.get? s.currentPeriod = some current
  opening : s.performance.get? sub.startPeriod = some start
  closing : s.performance.udictGet? (s.currentPeriod - 1) = some last
  rate : 1 ≤ start.rate.val

theorem History.earlierRecords (history : History s) (found : s.subscriptions.get? id = some sub)
    (other : sub.startPeriod ≠ s.currentPeriod) : ∃ current start last, EarlierRecords s sub current start last := by
  have earlier : sub.startPeriod.val < s.currentPeriod.val := by
    have le := (history.subscriptions id sub found).1
    exact lt_of_le_of_ne le (fun equal => other (Fin.ext equal))
  have previous : (s.currentPeriod.val : Int) - 1 = ((s.currentPeriod.val - 1 : Nat) : Int) := by omega
  obtain ⟨current, now⟩ := Option.isSome_iff_exists.mp ((history.keys _).mpr le_rfl)
  obtain ⟨start, first⟩ := Option.isSome_iff_exists.mp ((history.keys _).mpr earlier.le)
  obtain ⟨last, closed⟩ :=
    Option.isSome_iff_exists.mp ((history.keys (s.currentPeriod.val - 1)).mpr (by omega))
  refine ⟨current, start, last, now, first, ?_, history.closed _ _ earlier first⟩
  rw [previous, Dict.udictGet?_natCast, closed]

/-- With its records at hand, a redemption can only fail in its guard and in the message it sends. -/
theorem EarlierRecords.redeemEarlier_eq {start last : Performance}
    (records : EarlierRecords s sub current start last) :
    redeemEarlier s sAddr queryId sub current = (do
      throwUnless 57 (sub.grams.val ≤ current.aum.val)
      let back ← sendMessage sAddr redeemOp queryId 0 (((last.rate : Int) * sub.grams).fdiv start.rate) 64
      .ok
        { grams := sub.grams
          endPeriod := s.currentPeriod
          status := 2
          aum := current.aum - ((last.rate : Int) * sub.grams).fdiv start.rate
          deposits := current.deposits
          withdrawals := current.withdrawals + (sub.grams : Int).fdiv start.rate
          sent := [back] }) := by
  have positive := records.rate
  have nonzero : (start.rate.val : Int) ≠ 0 := by omega
  unfold redeemEarlier
  rw [Dict.udictGet?_natCast, records.opening, records.closing]
  simp [orThrow, divInt_of_ne nonzero, product_fits le_rfl]

theorem redeemEarlier_errors (history : History s)
    (found : s.subscriptions.get? id = some sub) (period : s.performance.get? s.currentPeriod = some current)
    (other : sub.startPeriod ≠ s.currentPeriod) : ErrorsIn RedeemExc (redeemEarlier s sAddr queryId sub current) := by
  obtain ⟨now, start, last, records⟩ := history.earlierRecords found other
  cases period.symm.trans records.now
  rw [records.redeemEarlier_eq]
  refine (throwUnless_errorsIn (.inl rfl) _).bind fun _ _ => ?_
  refine ErrorsIn.bind (sendMessage_errorsIn (.inr rfl) _ _ _ _ _ _) fun _ _ => ?_
  exact errorsIn_ok _

/-- A redemption by the subscriber finds every record it needs. -/
theorem processRedeem_errors (history : History s)
    (found : s.subscriptions.get? id = some sub) (active : sub.status.val = 1)
    (owned : parseStdAddr sAddr = .ok (sub.subscriberWc.val, (sub.subscriber : Int)))
    (feePaid : (s.poolConfig.transactionFee : Int) ≤ msgValue) :
    ErrorsIn RedeemExc (processRedeem s sAddr queryId msgValue id) := by
  have range : RedeemExc .rangeChk := .inr rfl
  obtain ⟨current, period⟩ := Option.isSome_iff_exists.mp ((history.keys _).mpr le_rfl)
  have reward : ErrorsIn RedeemExc (redeem s sAddr queryId sub current) := by
    unfold redeem
    split
    · exact redeemCurrent_errors
    · next other => exact redeemEarlier_errors history found period other
  unfold processRedeem
  rw [owned, Dict.udictGet?_natCast, found, Dict.udictGet?_natCast, period]
  simp only [orThrow, ok_bind, active, feePaid]
  refine reward.bind fun r _ => ?_
  refine ErrorsIn.bind (packSubscription_errorsIn range _ _ _ _ _ _) fun _ _ => ?_
  refine ErrorsIn.bind (Dict.udictSet_errorsIn range _ _ _) fun _ _ => ?_
  refine ErrorsIn.bind (packPerformance_errorsIn range _ _ _ _ _) fun _ _ => ?_
  refine ErrorsIn.bind (Dict.udictSet_errorsIn range _ _ _) fun _ _ => ?_
  exact errorsIn_ok _

end Redeem

/-- In every reachable state the history is complete with positive closed rates, and
a redemption of an active subscription by its subscriber, with the fee paid, does not
fail for a missing record or a division. -/
theorem reachable_history_redeem (cellHash : Cell → Uint 256) (s : State)
    (reachable : Reachable cellHash s) :
    History s ∧ ∀ (id : Nat) (sub : Subscription) (sAddr : MsgAddress) (queryId msgValue : Int),
      s.subscriptions.get? id = some sub → sub.status.val = 1 →
      parseStdAddr sAddr = .ok (sub.subscriberWc.val, (sub.subscriber : Int)) →
      (s.poolConfig.transactionFee : Int) ≤ msgValue →
      ∀ e, processRedeem s sAddr queryId msgValue id = .error e →
        e ≠ .code 43 ∧ e ≠ .code 44 ∧ e ≠ .code 45 ∧ e ≠ .intOv := by
  have history := reachable_history reachable
  refine ⟨history, ?_⟩
  intro id sub sAddr queryId msgValue found active owned feePaid e failed
  rcases processRedeem_errors history found active owned feePaid e failed with rfl | rfl
  · decide
  · decide

/-- The owner redeeming the initial subscription of the sample pool. -/
theorem sample_history_redeem : Reachable sampleHash sampleState ∧ History sampleState ∧
    ∀ e, processRedeem sampleState (accountAddress ⟨0, by decide⟩ 7) 0 100000000 1 = .error e →
      e ≠ .code 43 ∧ e ≠ .code 44 ∧ e ≠ .code 45 ∧ e ≠ .intOv := by
  obtain ⟨history, redeem⟩ := reachable_history_redeem sampleHash sampleState sample_start
  refine ⟨sample_start, history, ?_⟩
  exact redeem 1 ⟨7, ⟨0, by decide⟩, 10000, 0, 0, 1⟩ (accountAddress ⟨0, by decide⟩ 7) 0
    100000000 (by decide +kernel) rfl rfl (by decide +kernel)

end TonStaking.Guarantees.PerformanceHistory
