import TonStaking.Guarantees.BalanceFetch
import TonStaking.Guarantees.ManagedFunds
import TonStaking.Source.StakingPool.Deposit

/-!
# Redemptions of earlier subscriptions

`process_redeem` compares the assets of the period with the grams that were
deposited (line 168) but pays them scaled by the growth of the rate, so its guard
is neither necessary nor sufficient for the payout; the rest of the check happens
in the unsigned store of the assets. The payout and the number of units removed
from the period are floored one after the other. A remainder of the grams that
buys no unit is still paid, at the expense of those who stay.
-/
namespace TonStaking.Guarantees.Redemption
open Tvm Source.StakingPool PerformanceHistory Solvency ManagedFunds
open BalanceFetch (sampleFetch)

/-- Units of the current period that have not been redeemed. -/
def managedUnits (s : State) : Int :=
  ((s.performance.get? s.currentPeriod).map fun p => (p.units : Int) - p.withdrawals).getD 0

def withdrawalsOf (s : State) : Int :=
  ((s.performance.get? s.currentPeriod).map fun p => (p.withdrawals : Int)).getD 0

/-- Rate at which a redemption pays: the one of the period that was closed last. -/
def endRate (s : State) : Int := rateOf s (s.currentPeriod - 1)

/-- Units that a redemption removes from the current period. -/
def unitsRedeemed (s : State) (sub : Subscription) : Int := (sub.grams : Int) / rateOf s sub.startPeriod

/-- Payout for the grams that are too few for a unit. -/
def remainderPayout (s : State) (sub : Subscription) : Int :=
  endRate s * (sub.grams % rateOf s sub.startPeriod) / rateOf s sub.startPeriod

/-- The managed value covers the units at the last rate. -/
def Priced (s : State) : Prop := endRate s * managedUnits s ≤ managed s

/-- The managed value per unit has not fallen. -/
def KeepsValue (s after : State) : Prop := managed s * managedUnits after ≤ managed after * managedUnits s

/-- An active subscription of an earlier period, asked for by its subscriber with the fee paid. -/
structure Due (s : State) (id : Nat) (sub : Subscription) (sAddr : MsgAddress) (msgValue : Int) : Prop where
  found : s.subscriptions.get? id = some sub
  active : sub.status.val = 1
  earlier : sub.startPeriod ≠ s.currentPeriod
  owned : parseStdAddr sAddr = .ok (sub.subscriberWc.val, (sub.subscriber : Int))
  feePaid : (s.poolConfig.transactionFee : Int) ≤ msgValue

section Records

variable {s : State} {sub : Subscription} {current start last : Performance}
  (records : EarlierRecords s sub current start last)

include records

theorem aumOf_records : aumOf s = current.aum := aumOf_of_get? records.now

theorem withdrawalsOf_records : withdrawalsOf s = current.withdrawals := by
  simp [withdrawalsOf, records.now]

theorem rateOf_records : rateOf s sub.startPeriod = start.rate := rateOf_of_get? records.opening

theorem endRate_records : endRate s = last.rate := by
  simp [endRate, rateOf, records.closing]

theorem payoff_records : payoff s sub = ((last.rate : Int) * sub.grams).fdiv start.rate := by
  rw [payoff, rateOf_records records, ← endRate, endRate_records records]

theorem payoff_nonneg : 0 ≤ payoff s sub := by
  rw [payoff_records records, Int.fdiv_eq_ediv_of_nonneg _ (Int.natCast_nonneg _)]
  positivity

theorem unitsRedeemed_records : unitsRedeemed s sub = (sub.grams : Int).fdiv start.rate := by
  rw [unitsRedeemed, rateOf_records records, Int.fdiv_eq_ediv_of_nonneg _ (Int.natCast_nonneg _)]

/-- The two floors of a redemption: whole units are paid at the rate, the remainder apart. -/
theorem payoff_eq : payoff s sub = endRate s * unitsRedeemed s sub + remainderPayout s sub := by
  have positive := records.rate
  rw [payoff_records records, unitsRedeemed, remainderPayout, endRate_records records, rateOf_records records,
    Int.fdiv_eq_ediv_of_nonneg _ (Int.natCast_nonneg _)]
  have split : (last.rate : Int) * sub.grams =
      last.rate * (sub.grams % start.rate) + start.rate * (last.rate * (sub.grams / start.rate)) := by
    nth_rewrite 1 [← Int.emod_add_mul_ediv (sub.grams : Int) start.rate]
    ring
  rw [split, Int.add_mul_ediv_left _ _ (by omega)]
  ring

end Records

section Honoured

variable {s : State} {sub : Subscription} {id : Nat} {sAddr : MsgAddress} {msgValue : Int}
  {current start last : Performance}

theorem sendMessage_succeeds (sAddr : MsgAddress) (queryId : Uint 64) {grams : Int} (low : 0 ≤ grams)
    (high : grams < 2 ^ 120) : ∃ m, sendMessage sAddr redeemOp queryId 0 grams 64 = .ok m := by
  obtain ⟨value, stored, -⟩ := storeUint_of_fits low high
  have op : storeUint 32 redeemOp = .ok 0x4d444552 := by decide
  have body : storeUint 32 0 = .ok 0 := by decide
  simp [sendMessage, op, body, storeGrams, stored]

/-- What is left of `process_redeem` when every record is found. -/
theorem Due.processRedeem_eq (due : Due s id sub sAddr msgValue) (records : EarlierRecords s sub current start last)
    (queryId : Int) :
    ∃ written, processRedeem s sAddr queryId msgValue id = (do
      throwUnless 57 (sub.grams.val ≤ current.aum.val)
      let back ← sendMessage sAddr redeemOp queryId 0 (payoff s sub) 64
      let updated ← packPerformance current.rate (current.aum - payoff s sub) current.units current.deposits
        (current.withdrawals + unitsRedeemed s sub)
      .ok ({ s with
        performance := s.recorded updated
        subscriptions := s.subscriptions.set id (Dict.lt_of_get? due.found) written }, [back])) := by
  have packed : packSubscription sub.subscriber sub.subscriberWc.val sub.grams sub.startPeriod s.currentPeriod 2 =
      .ok ⟨sub.subscriber, sub.subscriberWc, sub.grams, sub.startPeriod, s.currentPeriod, 2⟩ := by
    have status : storeUint 8 2 = .ok 2 := by decide
    simp [packSubscription, status]
  refine ⟨⟨sub.subscriber, sub.subscriberWc, sub.grams, sub.startPeriod, s.currentPeriod, 2⟩, ?_⟩
  have reward : redeem s sAddr queryId sub current = redeemEarlier s sAddr queryId sub current := if_neg due.earlier
  have active : throwUnless 42 (sub.status.val = 1) = .ok () := throwUnless_success.mpr due.active
  have feePaid : throwUnless 60 ((s.poolConfig.transactionFee : Int) ≤ msgValue) = .ok () :=
    throwUnless_success.mpr due.feePaid
  unfold processRedeem
  rw [due.owned, Dict.udictGet?_natCast, due.found, Dict.udictGet?_natCast, records.now]
  simp only [orThrow, ok_bind, active, and_self, feePaid]
  rw [(throwUnless_success (u := ())).mpr trivial, ok_bind]
  rw [reward, records.redeemEarlier_eq, ← payoff_records records, ← unitsRedeemed_records records, bind_assoc]
  refine bind_congr fun _ => ?_
  rw [bind_assoc]
  refine bind_congr fun back => ?_
  rw [ok_bind, packed, ok_bind, Dict.udictSet_natCast _ _ (Dict.lt_of_get? due.found), ok_bind]
  refine bind_congr fun updated => ?_
  rw [Dict.udictSet_natCast _ _ s.currentPeriod.isLt, ok_bind]

/-- The redemption goes through exactly if the deposited grams and the payout are both within the
assets and the withdrawals stay within their field. -/
theorem Due.succeeds_iff (due : Due s id sub sAddr msgValue) (records : EarlierRecords s sub current start last)
    (queryId : Uint 64) :
    (∃ result, processRedeem s sAddr queryId msgValue id = .ok result) ↔
      (sub.grams : Int) ≤ aumOf s ∧ payoff s sub ≤ aumOf s ∧ withdrawalsOf s + unitsRedeemed s sub < 2 ^ 120 := by
  obtain ⟨written, equation⟩ := due.processRedeem_eq records queryId
  have low := payoff_nonneg records
  have unitsLow : 0 ≤ unitsRedeemed s sub := by
    rw [unitsRedeemed, rateOf_records records]
    positivity
  rw [equation, aumOf_records records, withdrawalsOf_records records]
  constructor
  · rintro ⟨result, success⟩
    obtain ⟨_, guard, success⟩ := of_bind success
    obtain ⟨back, -, success⟩ := of_bind success
    obtain ⟨updated, packed, -⟩ := of_bind success
    rw [throwUnless_success] at guard
    obtain ⟨-, aum, -, -, withdrawals⟩ := packPerformance_success packed
    exact ⟨by exact_mod_cast guard, by omega, by omega⟩
  · rintro ⟨guard, paid, room⟩
    obtain ⟨back, sent⟩ := sendMessage_succeeds sAddr queryId low (by omega)
    obtain ⟨updated, packed⟩ : ∃ updated, packPerformance current.rate (current.aum - payoff s sub) current.units
        current.deposits (current.withdrawals + unitsRedeemed s sub) = .ok updated := packPerformance_fits (by omega)
    have passed : throwUnless 57 (sub.grams.val ≤ current.aum.val) = .ok () :=
      throwUnless_success.mpr (by exact_mod_cast guard)
    simp only [passed, sent, packed, ok_bind]
    exact ⟨_, rfl⟩

/-- An active subscription of an earlier period is paid exactly when its payout is within the assets
if and only if such a payout also finds the deposited grams covered and the withdrawals within their
field. -/
theorem honoured_iff_payable_iff (cellHash : Cell → Uint 256) (s : State) (reachable : Reachable cellHash s)
    (id : Nat) (sub : Subscription) (sAddr : MsgAddress) (queryId : Uint 64) (msgValue : Int)
    (due : Due s id sub sAddr msgValue) :
    ((∃ result, processRedeem s sAddr queryId msgValue id = .ok result) ↔
        payoff s sub ≤ aumOf s) ↔
      (payoff s sub ≤ aumOf s →
        (sub.grams : Int) ≤ aumOf s ∧ withdrawalsOf s + unitsRedeemed s sub < 2 ^ 120) := by
  obtain ⟨current, start, last, records⟩ := (reachable_history reachable).earlierRecords due.found due.earlier
  rw [due.succeeds_iff records queryId]
  tauto

/-- A deposit of 200000000 by 8 whose rate has halved two periods later. -/
def halved : State :=
  run (receive sampleHash) sampleState
    [sampleDeposit 8 300000000, sampleNewPeriod, sampleFetch 150005000, sampleNewPeriod]

def halvedDeposit : Subscription := ⟨8, ⟨0, base_fits⟩, 200000000, 1, 0, 1⟩

theorem halved_due : Due halved 2 halvedDeposit (sampleSender 8) 100000000 where
  found := by decide +kernel
  active := by decide
  earlier := by decide +kernel
  owned := by decide +kernel
  feePaid := by decide +kernel

/-- Half of the deposit could be paid, but the guard asks for all of it. -/
theorem halved_deposit_refused : Reachable sampleHash halved ∧ Due halved 2 halvedDeposit (sampleSender 8) 100000000 ∧
    payoff halved halvedDeposit ≤ aumOf halved ∧
    ¬ ∃ result, processRedeem halved (sampleSender 8) (1 : Uint 64) 100000000 2 = .ok result := by
  have reachable : Reachable sampleHash halved := sample_reachable _
  obtain ⟨current, start, last, records⟩ :=
    (reachable_history reachable).earlierRecords halved_due.found halved_due.earlier
  refine ⟨reachable, halved_due, by decide +kernel, fun success => ?_⟩
  have covered := ((halved_due.succeeds_iff records 1).mp success).1
  exact absurd covered (by decide +kernel)

theorem halved_honoured_iff :
    ((∃ result, processRedeem halved (sampleSender 8) (1 : Uint 64) 100000000 2 = .ok result) ↔
        payoff halved halvedDeposit ≤ aumOf halved) ↔
      (payoff halved halvedDeposit ≤ aumOf halved →
        (halvedDeposit.grams : Int) ≤ aumOf halved ∧
          withdrawalsOf halved + unitsRedeemed halved halvedDeposit < 2 ^ 120) :=
  honoured_iff_payable_iff sampleHash halved (sample_reachable _) 2 halvedDeposit (sampleSender 8) 1 100000000 halved_due

variable {after : State} {queryId : Int} {out : List OutMsg}

theorem managedUnits_of_get? {p : Performance} (found : s.performance.get? s.currentPeriod = some p) :
    managedUnits s = p.units - p.withdrawals := by
  simp [managedUnits, found]

/-- A redemption takes its payout from the managed value and its whole units from the managed units. -/
theorem redeemed_managed (history : History s) (found : s.subscriptions.get? id = some sub)
    (earlier : sub.startPeriod ≠ s.currentPeriod)
    (redeemed : processRedeem s sAddr queryId msgValue id = .ok (after, out)) :
    managed after = managed s - payoff s sub ∧ managedUnits after = managedUnits s - unitsRedeemed s sub := by
  obtain ⟨current, start, last, records⟩ := history.earlierRecords found earlier
  obtain ⟨id', sub', written, current', updated, same, effect⟩ := processRedeem_effects redeemed
  cases Int.ofNat.inj same
  cases found.symm.trans effect.found
  cases records.now.symm.trans effect.period
  have record : after.performance.get? after.currentPeriod = some updated := by
    rw [effect.state, Dict.get?_set, if_pos rfl]
  rw [managed_of_get? record, managed_of_get? records.now, managedUnits_of_get? record,
    managedUnits_of_get? records.now, payoff_records records, unitsRedeemed_records records]
  rcases effect.branch with now | ⟨start', last', branch⟩
  · exact absurd now.samePeriod earlier
  cases records.opening.symm.trans branch.startPeriod
  cases records.closing.symm.trans branch.lastPeriod
  rw [branch.holds.aum, branch.holds.deposits, branch.holds.withdrawals, branch.holds.units]
  constructor <;> ring

/-- The managed value per unit does not fall exactly if what the managed value is worth above the last
rate, for the redeemed units, makes up for the remainder that is paid without a unit. -/
theorem rounding_keeps_value_iff (cellHash : Cell → Uint 256) (s : State) (reachable : Reachable cellHash s)
    (id : Nat) (sub : Subscription) (found : s.subscriptions.get? id = some sub)
    (earlier : sub.startPeriod ≠ s.currentPeriod) (sAddr : MsgAddress) (queryId msgValue : Int) (after : State)
    (out : List OutMsg)
    (redeemed : processRedeem s sAddr queryId msgValue id = .ok (after, out)) :
    (Priced s → KeepsValue s after) ↔
      (Priced s → managedUnits s * remainderPayout s sub ≤
        (managed s - endRate s * managedUnits s) * unitsRedeemed s sub) := by
  have history := reachable_history reachable
  obtain ⟨current, start, last, records⟩ := history.earlierRecords found earlier
  obtain ⟨value, units⟩ := redeemed_managed history found earlier redeemed
  refine imp_congr_right fun _ => ?_
  rw [KeepsValue, value, units, payoff_eq records]
  constructor
  · intro kept
    linarith
  · intro covered
    linarith

/-- A deposit of 5000, less than the price of one unit, one period later. -/
def halfUnit : State := run (receive sampleHash) sampleState [sampleDeposit 8 100005000, sampleNewPeriod]

def halfUnitDeposit : Subscription := ⟨8, ⟨0, base_fits⟩, 5000, 1, 0, 1⟩

theorem halfUnit_redeemed :
    ∃ after out, processRedeem halfUnit (sampleSender 8) 1 100000000 (2 : Nat) = .ok (after, out) ∧
      managed after = 100010000 ∧ managedUnits after = 10001 := by
  obtain ⟨⟨after, out⟩, success⟩ : ∃ result,
      processRedeem halfUnit (sampleSender 8) 1 100000000 (2 : Nat) = .ok result :=
    ⟨_, eq_ok_get (by decide +kernel)⟩
  have history := reachable_history (sample_reachable [sampleDeposit 8 100005000, sampleNewPeriod])
  have found : halfUnit.subscriptions.get? 2 = some halfUnitDeposit := by decide +kernel
  obtain ⟨value, units⟩ := redeemed_managed history found (by decide +kernel) success
  refine ⟨after, out, success, ?_, ?_⟩
  · rw [value]
    decide +kernel
  · rw [units]
    decide +kernel

/-- The payout of 5000 takes no unit with it. -/
theorem half_unit_paid : Reachable sampleHash halfUnit ∧ Priced halfUnit ∧
    ∃ after out, processRedeem halfUnit (sampleSender 8) 1 100000000 (2 : Nat) = .ok (after, out) ∧
      ¬ KeepsValue halfUnit after := by
  obtain ⟨after, out, success, value, units⟩ := halfUnit_redeemed
  refine ⟨sample_reachable _, by unfold Priced; decide +kernel, after, out, success, ?_⟩
  rw [KeepsValue, value, units]
  decide +kernel

theorem half_unit_keeps_value_iff :
    ∃ after out, processRedeem halfUnit (sampleSender 8) 1 100000000 (2 : Nat) = .ok (after, out) ∧
      ((Priced halfUnit → KeepsValue halfUnit after) ↔
        (Priced halfUnit → managedUnits halfUnit * remainderPayout halfUnit halfUnitDeposit ≤
          (managed halfUnit - endRate halfUnit * managedUnits halfUnit) * unitsRedeemed halfUnit halfUnitDeposit)) := by
  obtain ⟨after, out, success, -, -⟩ := halfUnit_redeemed
  exact ⟨after, out, success, rounding_keeps_value_iff sampleHash halfUnit (sample_reachable _) 2 halfUnitDeposit
    (by decide +kernel) (by decide +kernel) (sampleSender 8) 1 100000000 after out success⟩

end Honoured

end TonStaking.Guarantees.Redemption
