import TonStaking.Guarantees.IndexAgreement
import TonStaking.Guarantees.Redemption

/-!
# Closing a period

With managed units and at least one nanogram for each of them, `process_new_period`
finds every record it reads, whoever the owner has become: the lookup of the owner's
index entry is not part of the compiled contract. What remains is the store of the
incentive fee. The configuration of `try_init` may hold any 32-bit owner fee, and a
fee above the whole profit can leave its field.
-/
namespace TonStaking.Guarantees.PeriodClosing
open Tvm Source.StakingPool PerformanceHistory Solvency ManagedFunds Redemption IndexAgreement
open BalanceFetch (sampleFetch)

/-- Rate at which the current period closes. -/
def closingRate (s : State) : Int := managed s / managedUnits s

/-- The incentive fee that a close issues to the owner; not positive without a profit. -/
def incentiveFee (s : State) : Int :=
  (managedUnits s * closingRate s - managedUnits s * endRate s) * s.poolConfig.ownerFee / 10000

variable {cellHash : Cell → Uint 256} {s : State} {sAddr : MsgAddress} {msgValue : Int}

/-- The new subscription can be stored if its grams fit their field. -/
theorem packSubscription_owner (s : State) {share : Int} (low : 0 ≤ share) (high : share < 2 ^ 120) :
    ∃ sub, packSubscription s.poolConfig.owner 0 share s.currentPeriod 0 1 = .ok sub := by
  obtain ⟨grams, stored, -⟩ := storeUint_of_fits low high
  have workchain : storeInt 8 0 = .ok ⟨0, by decide⟩ := by decide
  have noEnd : storeUint 16 0 = .ok 0 := by decide
  have active : storeUint 8 1 = .ok 1 := by decide
  simp [packSubscription, workchain, noEnd, active, storeGrams, stored]

/-- A period that can be closed: managed units with at least one nanogram each, and a next period. -/
structure Closable (s : State) : Prop where
  room : s.currentPeriod.val < 65535
  units : 0 < managedUnits s
  value : managedUnits s ≤ managed s

theorem Closable.rate_pos (closable : Closable s) : 1 ≤ closingRate s := by
  have units := closable.units
  exact Int.le_ediv_of_mul_le units (by linarith [closable.value])

section

variable (reachable : Reachable cellHash s)
include reachable

theorem reachable_opened : 1 ≤ s.currentPeriod.val := by
  apply reachable.invariant_effect
  · intro poolConfig init balance s initialised
    obtain ⟨_, _, _, _, effect⟩ := tryInit_effects initialised
    exact effect.currentPeriod.ge
  · intro s m request after out before effect
    cases effect with
    | ignored | ownersTransfer owner | setConfig parsed effect => exact before
    | deposit effect | redeem effect | activate effect | fetch effect | gotBalance effect =>
      rw [effect.state]
      exact before
    | newPeriod effect =>
      have advanced := effect.advanced
      rw [effect.currentPeriod]
      omega

theorem reachable_previous :
    ∃ key previous, s.performance.udictGetPrev? s.currentPeriod = some (key, previous) ∧
      (previous.rate : Int) = endRate s := by
  have history := reachable_history reachable
  have opened := reachable_opened reachable
  cases before : s.performance.udictGetPrev? s.currentPeriod with
  | none =>
    have present := (history.keys 0).mpr (Nat.zero_le _)
    rw [Dict.udictGetPrev?_none before 0 (by omega)] at present
    cases present
  | some entry => exact ⟨entry.1, entry.2, rfl, previous_rate history before⟩

/-- The incentive fee is issued, or there is none, if it fits its field. -/
theorem issueOwnersShare_succeeds {units rate previous : Int}
    (gross : 0 ≤ units * rate ∧ units * rate < 2 ^ 120) (base : 0 ≤ units * previous ∧ units * previous < 2 ^ 240)
    (small : (units * rate - units * previous) * s.poolConfig.ownerFee / 10000 < 2 ^ 120) :
    ∃ subscriptions, issueOwnersShare s 0 s.poolConfig.owner units rate previous = .ok subscriptions := by
  obtain ⟨lastId, last, search⟩ := reachable_greatest reachable
  obtain ⟨below, -, -⟩ := Dict.udictGetPrev?_some search
  have next : (lastId : Int) + 1 = ((lastId + 1 : Nat) : Int) := by omega
  have fits : lastId + 1 < 2 ^ 32 := by
    rw [lastIdx_eq] at below
    omega
  have feeLow : (0 : Int) ≤ s.poolConfig.ownerFee := Int.natCast_nonneg _
  have feeHigh : (s.poolConfig.ownerFee : Int) < 2 ^ 32 := by exact_mod_cast s.poolConfig.ownerFee.isLt
  unfold issueOwnersShare
  rw [mulInt_of_fits (by omega) (by omega), ok_bind, mulInt_of_fits (by omega) (by omega), ok_bind]
  by_cases profit : units * previous < units * rate
  · have scaledLow : 0 ≤ (units * rate - units * previous) * s.poolConfig.ownerFee :=
      mul_nonneg (by omega) feeLow
    have scaledHigh : (units * rate - units * previous) * s.poolConfig.ownerFee < 2 ^ 120 * 2 ^ 32 :=
      mul_lt_mul'' (by omega) feeHigh (by omega) feeLow
    rw [if_pos profit, mulInt_of_fits (by omega) (by omega), ok_bind, divInt_of_ne (by decide), ok_bind, search,
      Option.map_some, orNull_success.mpr rfl, ok_bind, next, Int.fdiv_eq_ediv_of_nonneg _ (by decide)]
    obtain ⟨sub, packed⟩ := packSubscription_owner s (Int.ediv_nonneg scaledLow (by decide)) small
    exact ⟨_, bind_success.mpr ⟨sub, packed, Dict.udictSet_natCast _ _ fits _⟩⟩
  · rw [if_neg profit]
    exact ⟨_, rfl⟩

/-- `process_new_period` goes through if the incentive fee fits its field. -/
theorem Closable.succeeds (closable : Closable s)
    (owner : parseStdAddr sAddr = .ok (0, (s.poolConfig.owner : Int)))
    (feePaid : (s.poolConfig.transactionFee : Int) ≤ msgValue) (fits : incentiveFee s < 2 ^ 120) :
    ∃ result, processNewPeriod s sAddr msgValue = .ok result := by
  have history := reachable_history reachable
  obtain ⟨current, period⟩ := Option.isSome_iff_exists.mp ((history.keys _).mpr le_rfl)
  obtain ⟨key, previous, before, rate⟩ := reachable_previous reachable
  have units := closable.units
  have positive := closable.rate_pos
  have room := closable.room
  have rateHigh : (previous.rate : Int) < 2 ^ 120 := by exact_mod_cast previous.rate.isLt
  have value := managed_of_get? period
  have number := managedUnits_of_get? period
  have floor : managedUnits s * closingRate s ≤ managed s := Int.mul_ediv_self_le (by omega)
  have rateLow : closingRate s ≤ managed s := by nlinarith
  have base : managedUnits s * previous.rate < 2 ^ 120 * 2 ^ 120 :=
    mul_lt_mul'' (by omega) rateHigh (by omega) (Int.natCast_nonneg _)
  have newUnits : 0 ≤ (current.aum : Int) / closingRate s ∧ (current.aum : Int) / closingRate s ≤ current.aum :=
    ⟨by positivity, Int.ediv_le_self _ (Int.natCast_nonneg _)⟩
  rw [incentiveFee, ← rate] at fits
  obtain ⟨subscriptions, issued⟩ := issueOwnersShare_succeeds reachable ⟨by positivity, by omega⟩
    ⟨by positivity, by omega⟩ fits
  obtain ⟨closed, packedClosed⟩ : ∃ closed, packPerformance (closingRate s) current.aum current.units
      current.deposits current.withdrawals = .ok closed := packPerformance_fits (by omega)
  obtain ⟨opened, packedOpened⟩ : ∃ opened, packPerformance 0 current.aum ((current.aum : Int) / closingRate s) 0 0 =
      .ok opened := packPerformance_fits (by omega)
  have next : (s.currentPeriod : Int) + 1 = ((s.currentPeriod.val + 1 : Nat) : Int) := by omega
  have bound : s.currentPeriod.val + 1 < 2 ^ 16 := by omega
  have closing : divInt ((current.aum : Int) - current.deposits) (current.units - current.withdrawals) =
      .ok (closingRate s) := by
    rw [divInt_of_ne (by omega), Int.fdiv_eq_ediv_of_nonneg _ (by omega), closingRate, value, number]
  have opening : divInt (current.aum : Int) (closingRate s) = .ok (current.aum / closingRate s) := by
    rw [divInt_of_ne (by omega), Int.fdiv_eq_ediv_of_nonneg _ (by omega)]
  rw [number] at issued
  refine ⟨({ s with
    currentPeriod := ⟨s.currentPeriod.val + 1, bound⟩
    performance := (s.recorded closed).set (s.currentPeriod.val + 1) bound
      opened
    subscriptions }, []), ?_⟩
  refine bind_success.mpr ⟨_, owner, bind_success.mpr ⟨(), throwUnless_success.mpr feePaid, ?_⟩⟩
  refine bind_success.mpr ⟨current, by rw [Dict.udictGet?_natCast, period]; rfl, ?_⟩
  refine bind_success.mpr ⟨(key, previous), by rw [before]; rfl, ?_⟩
  refine bind_success.mpr ⟨(), throwUnless_success.mpr ⟨rfl, rfl⟩, ?_⟩
  refine bind_success.mpr ⟨_, closing, bind_success.mpr ⟨_, opening, bind_success.mpr ⟨_, issued, ?_⟩⟩⟩
  refine bind_success.mpr ⟨_, packedClosed, ?_⟩
  refine bind_success.mpr ⟨_, Dict.udictSet_natCast _ _ s.currentPeriod.isLt _, ?_⟩
  refine bind_success.mpr ⟨_, packedOpened, ?_⟩
  refine bind_success.mpr ⟨_, by rw [next]; exact Dict.udictSet_natCast _ _ bound _, ?_⟩
  exact bind_success.mpr ⟨_, by rw [next]; exact storeUint_val ⟨_, bound⟩, rfl⟩

/-- The fee of a close that went through was stored. -/
theorem stored_fee_fits {current previous closed opened : Performance} {next : Uint 16} {after : State}
    (effect : NewPeriodEffect s sAddr current previous closed opened next after)
    (units : 0 < managedUnits s) : incentiveFee s < 2 ^ 120 := by
  obtain ⟨key, before⟩ := effect.before
  have rate : (previous.rate : Int) = endRate s := previous_rate (reachable_history reachable) before
  have number := managedUnits_of_get? effect.period
  have closing : (closed.rate : Int) = closingRate s := by
    rw [effect.closes.rate, closingRate, managed_of_get? effect.period, number, Int.fdiv_eq_ediv_of_nonneg _ (by omega)]
  have feeLow : (0 : Int) ≤ s.poolConfig.ownerFee := Int.natCast_nonneg _
  have change := effect.subscriptions
  rw [← number, closing, rate] at change
  rcases change with ⟨loss, -⟩ | ⟨-, lastId, sub, share⟩
  · have none : (managedUnits s * closingRate s - managedUnits s * endRate s) * s.poolConfig.ownerFee ≤ 0 :=
      mul_nonpos_of_nonpos_of_nonneg (by omega) feeLow
    rw [incentiveFee]
    omega
  · have grams := share.grams
    have high : (sub.grams : Int) < 2 ^ 120 := by exact_mod_cast sub.grams.isLt
    rw [Int.fdiv_eq_ediv_of_nonneg _ (by decide)] at grams
    rw [incentiveFee, ← grams]
    exact high

theorem Closable.fee_fits (closable : Closable s) (capped : s.poolConfig.ownerFee.val ≤ 10000) : incentiveFee s < 2 ^ 120 := by
  obtain ⟨current, period⟩ :=
    Option.isSome_iff_exists.mp (((reachable_history reachable).keys s.currentPeriod).mpr le_rfl)
  have value := managed_of_get? period
  have units := closable.units
  have floor : managedUnits s * closingRate s ≤ managed s := Int.mul_ediv_self_le (by omega)
  have base : 0 ≤ managedUnits s * endRate s := mul_nonneg units.le (rateOf_nonneg s _)
  have feeHigh : (s.poolConfig.ownerFee : Int) ≤ 10000 := by exact_mod_cast capped
  have share : (managedUnits s * closingRate s - managedUnits s * endRate s) * s.poolConfig.ownerFee ≤
      managed s * 10000 :=
    calc (managedUnits s * closingRate s - managedUnits s * endRate s) * s.poolConfig.ownerFee
        ≤ managed s * s.poolConfig.ownerFee := Int.mul_le_mul_of_nonneg_right (by omega) (Int.natCast_nonneg _)
      _ ≤ managed s * 10000 := Int.mul_le_mul_of_nonneg_left feeHigh (by linarith [closable.value])
  rw [incentiveFee]
  omega

end

/-- A message of the owner that asks for the next period and pays the fee. -/
structure OwnersClose (s : State) (m : InMsg) : Prop where
  asked : (Input.internal m).request = some .newPeriod
  owner : parseStdAddr m.src = .ok (0, (s.poolConfig.owner : Int))
  feePaid : (s.poolConfig.transactionFee : Int) ≤ m.value

/-- The owner closes a closable period exactly if the incentive fee fits its field, which a fee of at
most the whole profit always does. -/
theorem owner_closes_iff (cellHash : Cell → Uint 256) (s : State) (reachable : Reachable cellHash s)
    (closable : Closable s) (m : InMsg) (close : OwnersClose s m) :
    ((∃ after out, receive cellHash s (.internal m) = .ok (after, out) ∧
        after.currentPeriod.val = s.currentPeriod.val + 1) ↔
      incentiveFee s < 2 ^ 120) ∧
    (s.poolConfig.ownerFee.val ≤ 10000 → incentiveFee s < 2 ^ 120) := by
  refine ⟨?_, closable.fee_fits reachable⟩
  rw [receive_request close.asked]
  constructor
  · rintro ⟨after, out, closed, -⟩
    obtain ⟨-, current, previous, record, opened, next, effect⟩ := processNewPeriod_effects closed
    exact stored_fee_fits reachable effect closable.units
  · intro fits
    obtain ⟨⟨after, out⟩, closed⟩ := closable.succeeds reachable close.owner close.feePaid fits
    obtain ⟨-, current, previous, record, opened, next, effect⟩ := processNewPeriod_effects closed
    refine ⟨after, out, closed, ?_⟩
    rw [effect.currentPeriod, effect.advanced]

/-- The sample pool with the largest owner fee that the configuration can hold. -/
def greedyConfig : PoolConfig := { sampleConfig with ownerFee := ⟨2 ^ 32 - 1, by decide⟩ }

def greedyStart : State := (tryInit sampleHash 0 greedyConfig sampleInit 10000).toOption.get (by decide +kernel)

/-- A report of large assets. -/
def greedyState : State := run (receive sampleHash) greedyStart [sampleFetch ⟨2 ^ 119, by decide⟩]

theorem greedy_reachable : Reachable sampleHash greedyState :=
  ⟨greedyConfig, sampleInit, 10000, greedyStart, [sampleFetch ⟨2 ^ 119, by decide⟩], eq_ok_get _, rfl⟩

theorem greedy_closable : Closable greedyState := ⟨by decide +kernel, by decide +kernel, by decide +kernel⟩

def closeMessage : InMsg where
  flags := 0
  src := sampleSender 7
  value := 100000000
  body := ⟨sampleOperation 0x5057454e [], []⟩
  balance := 0

theorem greedy_close : OwnersClose greedyState closeMessage :=
  ⟨sampleNewPeriod_request, by decide +kernel, by decide +kernel⟩

/-- The incentive fee does not fit, and the period stays open. -/
theorem greedy_period_stuck : Reachable sampleHash greedyState ∧ Closable greedyState ∧
    OwnersClose greedyState closeMessage ∧
    ¬ ∃ after out, receive sampleHash greedyState (.internal closeMessage) = .ok (after, out) := by
  refine ⟨greedy_reachable, greedy_closable, greedy_close, ?_⟩
  rintro ⟨after, out, closed⟩
  rw [receive_request greedy_close.asked] at closed
  obtain ⟨-, current, previous, record, opened, next, effect⟩ := processNewPeriod_effects closed
  exact absurd (stored_fee_fits greedy_reachable effect greedy_closable.units) (by decide +kernel)

theorem greedy_closes_iff :
    ((∃ after out, receive sampleHash greedyState (.internal closeMessage) = .ok (after, out) ∧
        after.currentPeriod.val = greedyState.currentPeriod.val + 1) ↔ incentiveFee greedyState < 2 ^ 120) ∧
    (greedyState.poolConfig.ownerFee.val ≤ 10000 → incentiveFee greedyState < 2 ^ 120) :=
  owner_closes_iff sampleHash greedyState greedy_reachable greedy_closable closeMessage greedy_close

end TonStaking.Guarantees.PeriodClosing
