import Mathlib.Algebra.Order.Field.Rat
import TonStaking.Guarantees.PerformanceHistory

/-!
# Solvency at the close of a period

What the pool owes right after `process_new_period`, compared with the assets it
records. The unit rate is floored, so the units of old subscriptions are covered
only if the managed units are not below their exact number. The incentive fee is
issued as a new subscription on top of all claims, and only the fees kept from
deposits can pay for it.
-/
namespace TonStaking.Guarantees.Solvency
open Tvm Source.StakingPool PerformanceHistory Dict

section Definitions

variable (cellHash : Cell → Uint 256) (s start : State) (sub : Subscription) (inputs : List Input)

def rateOf (period : Int) : Int :=
  ((s.performance.udictGet? period).map fun p => (p.rate : Int)).getD 0

def aumOf : Int :=
  ((s.performance.get? s.currentPeriod).map fun p => (p.aum : Int)).getD 0

/-- What a redemption of an earlier subscription pays. -/
def payoff : Int :=
  (rateOf s (s.currentPeriod - 1) * sub.grams).fdiv (rateOf s sub.startPeriod)

def owed : Int := if sub.status.val = 1 then payoff s sub else 0

/-- Sum of the payoffs of all active subscriptions. -/
def liabilities : Int := s.subscriptions.sumBy fun _ sub => owed s sub

def Solvent : Prop := liabilities s ≤ aumOf s

/-- The state after the last close of a period (or after `try_init`) and the assets that
it and the deposits and redemptions since then account for. -/
structure Checkpoint where
  state : State
  expected : Int

def note (known : Checkpoint) (i : Input) : Checkpoint :=
  match i.request, receive cellHash s i with
  | some .newPeriod, .ok (after, _) => ⟨after, aumOf after⟩
  | some .newSubscription, .ok (after, _) =>
    { known with expected := known.expected + (aumOf after - aumOf s) }
  | some (.redeem _ _), .ok (after, _) =>
    { known with expected := known.expected + (aumOf after - aumOf s) }
  | _, _ => known

def checkpoint : Checkpoint :=
  track (receive cellHash) (note cellHash) start ⟨start, aumOf start⟩ inputs

/-- A pool that was solvent at the last checkpoint and has made no loss since is
solvent after every close of a period. -/
def StaysSolvent : Prop :=
  ∀ before i after next out, inputs = before ++ i :: after → i.request = some .newPeriod →
    receive cellHash (run (receive cellHash) start before) i = .ok (next, out) →
    Solvent (checkpoint cellHash start before).state →
    (checkpoint cellHash start before).expected ≤ aumOf (run (receive cellHash) start before) →
    Solvent next

/-- Exact number of units of a subscription that is active and started before. -/
def unitsOf : ℚ :=
  if sub.status.val = 1 ∧ sub.startPeriod ≠ s.currentPeriod then
    (sub.grams.val : ℚ) / rateOf s sub.startPeriod
  else 0

/-- Exact number of units of the active subscriptions of closed periods. -/
def exactUnits : ℚ := s.subscriptions.sumBy fun _ sub => unitsOf s sub

/-- Grams of a subscription that is active and started in the given period. -/
def gramsIn (period : Uint 16) (sub : Subscription) : Int :=
  if sub.status.val = 1 ∧ sub.startPeriod = period then (sub.grams : Int) else 0

/-- Active deposits of the current period, without their fees. -/
def currentGrams : Int :=
  s.subscriptions.sumBy fun _ sub => gramsIn s.currentPeriod sub

/-- The managed units cover the exact units, and the incentive fee on the growth of the
managed funds over the previous rate is covered by the fees kept from the deposits
of the period. -/
structure Covered (current : Performance) : Prop where
  units : exactUnits s ≤ ((current.units - current.withdrawals : Int) : ℚ)
  fee : ((current.aum - current.deposits : Int) -
      (current.units - current.withdrawals) * rateOf s (s.currentPeriod - 1)) * s.poolConfig.ownerFee ≤
    10000 * (current.deposits - currentGrams s)

/-- The step closes no period or finds it covered. -/
def CoveredClose (i : Input) : Prop :=
  i.request = some .newPeriod →
    ∀ current, s.performance.get? s.currentPeriod = some current → Covered s current

end Definitions

theorem rateOf_of_get? {s : State} {k : Nat} {p : Performance} (found : s.performance.get? k = some p) :
    rateOf s k = p.rate := by
  simp [rateOf, found]

theorem aumOf_of_get? {s : State} {p : Performance}
    (found : s.performance.get? s.currentPeriod = some p) : aumOf s = p.aum := by
  simp [aumOf, found]

theorem previous_rate {s : State} (history : History s) {key : Nat} {previous : Performance}
    (before : s.performance.udictGetPrev? s.currentPeriod = some (key, previous)) :
    (previous.rate : Int) = rateOf s (s.currentPeriod - 1) := by
  obtain ⟨below, found, greatest⟩ := udictGetPrev?_some before
  have adjacent : key + 1 = s.currentPeriod.val := by
    by_contra apart
    have none := greatest (key + 1) (by omega) (by omega)
    have some := (history.keys (key + 1)).mpr (by omega)
    rw [none] at some
    cases some
  have index : (s.currentPeriod : Int) - 1 = (key : Int) := by omega
  rw [index, rateOf_of_get? found]

theorem closed_rate_pos {s : State} (history : History s) {sub : Subscription} {id : Nat}
    (found : s.subscriptions.get? id = some sub) (closed : sub.startPeriod ≠ s.currentPeriod) :
    1 ≤ rateOf s sub.startPeriod := by
  have start := (history.subscriptions id sub found).1
  rw [Fin.le_def] at start
  have earlier : sub.startPeriod.val < s.currentPeriod.val := by
    apply lt_of_le_of_ne start
    intro equal
    exact closed (Fin.ext equal)
  obtain ⟨p, record⟩ := Option.isSome_iff_exists.mp ((history.keys sub.startPeriod).mpr start)
  rw [rateOf_of_get? record]
  exact_mod_cast history.closed _ p earlier record

section KeptFees

variable {cellHash : Cell → Uint 256}
variable {s after : State} {sAddr : MsgAddress} {msgValue : Int} {out : List OutMsg}

theorem gramsIn_nonneg (period : Uint 16) (sub : Subscription) : 0 ≤ gramsIn period sub := by
  unfold gramsIn
  split
  · exact Int.natCast_nonneg _
  · exact le_rfl

/-- The deposits of a period are recorded with their fees, so they stay above the grams
of its subscriptions. -/
def FeesKept (s : State) : Prop :=
  ∀ current, s.performance.get? s.currentPeriod = some current → currentGrams s ≤ current.deposits

theorem feesKept_of_started (earlier : ∀ id sub, s.subscriptions.get? id = some sub → sub.startPeriod ≠ s.currentPeriod) :
    FeesKept s := by
  intro found record
  have none : currentGrams s = 0 :=
    (sumBy_congr _ _ _ fun id sub stored => if_neg fun now => earlier id sub stored now.2).trans (sumBy_zero _)
  rw [none]
  exact Int.natCast_nonneg _

theorem redeem_feesKept {id : Nat} {sub written : Subscription} {current updated : Performance} (kept : FeesKept s)
    (effect : RedeemEffect s sAddr id sub written current updated after out) :
    FeesKept after := by
  intro found record
  have before := kept current effect.period
  unfold currentGrams at before ⊢
  rw [effect.state, get?_set, if_pos rfl] at record
  cases record
  rw [effect.state, sumBy_set, effect.found]
  have gone : gramsIn s.currentPeriod written = 0 := if_neg fun active => effect.settled active.1
  rcases effect.branch with now | ⟨start, last, earlier⟩
  · have own : gramsIn s.currentPeriod sub = sub.grams := if_pos ⟨effect.active, now.samePeriod⟩
    have deposits := now.holds.deposits
    simp only [Option.map_some, Option.getD_some]
    omega
  · have other : gramsIn s.currentPeriod sub = 0 := if_neg fun same => earlier.otherPeriod same.2
    simp only [Option.map_some, Option.getD_some, earlier.holds.deposits]
    omega

/-- At the close of a period every subscription has started in it or before. -/
theorem newPeriod_started {current previous closed opened : Performance} {next : Uint 16} (history : History s)
    (effect : NewPeriodEffect s sAddr current previous closed opened next after) (id : Nat)
    (sub : Subscription) (stored : after.subscriptions.get? id = some sub) :
    sub.startPeriod ≤ s.currentPeriod := by
  rcases effect.subscriptions with ⟨-, same⟩ | ⟨-, lastId, issued, share⟩
  · rw [same] at stored
    exact (history.subscriptions id sub stored).1
  obtain ⟨fits, set⟩ := share.stored
  rw [set, get?_set] at stored
  split at stored
  · cases stored
    exact Nat.le_of_eq (congrArg Fin.val share.start)
  · exact (history.subscriptions id sub stored).1

theorem effect_feesKept {m : InMsg} {request : Request} (history : History s) (kept : FeesKept s)
    (effect : Effect cellHash s m request after out) :
    FeesKept after := by
  cases effect with
  | ignored | ownersTransfer owner | setConfig parsed effect => exact kept
  | @deposit srcWc srcAddr hash lastId inner sub current updated after effect =>
    intro found record
    have before := kept current effect.period
    rw [effect.state, get?_set, if_pos rfl] at record
    cases record
    have stored := sumBy_set_le s.subscriptions (f := fun _ x => gramsIn s.currentPeriod x)
      (fun _ => gramsIn_nonneg _) _ effect.fits sub
    have own : gramsIn s.currentPeriod sub = sub.grams := if_pos ⟨effect.status, effect.start⟩
    have grams := effect.grams
    have deposits := effect.holds.deposits
    rw [effect.state]
    unfold currentGrams at before ⊢
    simp only
    omega
  | redeem effect => exact redeem_feesKept kept effect
  | activate effect =>
    rw [effect.state]
    exact kept
  | fetch effect =>
    intro found record
    have before := kept _ effect.period
    rw [effect.state, get?_set, if_pos rfl] at record
    cases record
    rw [effect.state]
    exact before
  | gotBalance effect =>
    intro found record
    have before := kept _ effect.period
    rw [effect.state, get?_set, if_pos rfl] at record
    cases record
    rw [effect.holds.deposits, effect.state]
    exact before
  | newPeriod effect =>
    refine feesKept_of_started fun id sub stored same => ?_
    have started := newPeriod_started history effect id sub stored
    have advanced := effect.advanced
    rw [same, effect.currentPeriod, Fin.le_def] at started
    omega

theorem reachable_feesKept (reachable : Reachable cellHash s) : FeesKept s := by
  have both : History s ∧ FeesKept s := by
    apply reachable.invariant_effect
    · intro poolConfig init balance s initialised
      obtain ⟨first, opened, sub, hash, effect⟩ := tryInit_effects initialised
      refine ⟨initial_history initialised, feesKept_of_started fun id x stored same => ?_⟩
      rw [effect.subscriptions, get?_set] at stored
      split at stored
      · cases stored
        have start := effect.start
        rw [same, effect.currentPeriod] at start
        cases start
      · cases stored
    · rintro s m request after out ⟨history, kept⟩ effect
      exact ⟨effect_history history effect, effect_feesKept history kept effect⟩
  exact both.2

variable {current previous closed opened : Performance} {next : Uint 16}

theorem rateOf_nonneg (s : State) (period : Int) : 0 ≤ rateOf s period := by
  unfold rateOf
  cases s.performance.udictGet? period with
  | none => exact le_rfl
  | some p => exact Int.natCast_nonneg _

theorem owed_nonneg (s : State) (sub : Subscription) : 0 ≤ owed s sub := by
  unfold owed
  split
  · apply Int.fdiv_nonneg
    · exact Int.mul_nonneg (rateOf_nonneg _ _) (Int.natCast_nonneg _)
    · exact rateOf_nonneg _ _
  · exact le_rfl

theorem unitsOf_nonneg (s : State) (sub : Subscription) : 0 ≤ unitsOf s sub := by
  unfold unitsOf
  split
  · apply div_nonneg
    · exact Nat.cast_nonneg _
    · exact Int.cast_nonneg (rateOf_nonneg _ _)
  · exact le_rfl

section Closing

variable (effect : NewPeriodEffect s sAddr current previous closed opened next after)

include effect

/-- The close writes the rate of the closed period and keeps the older ones. -/
theorem closing_rate (period : Uint 16) (started : period ≤ s.currentPeriod) :
    rateOf after period = if period = s.currentPeriod then (closed.rate : Int) else rateOf s period := by
  have advanced := effect.advanced
  rw [Fin.le_def] at started
  have lookup : after.performance.get? period =
      if period = s.currentPeriod then some closed else s.performance.get? period := by
    rw [effect.performance, get?_set, if_neg (by omega), get?_set]
    simp [Fin.ext_iff]
  unfold rateOf
  rw [udictGet?_natCast, udictGet?_natCast, lookup]
  split
  · rfl
  · rfl

theorem closing_last_rate : rateOf after (after.currentPeriod - 1) = closed.rate := by
  have advanced := effect.advanced
  have index : (after.currentPeriod : Int) - 1 = (s.currentPeriod : Int) := by
    rw [effect.currentPeriod]
    omega
  rw [index, closing_rate effect s.currentPeriod (Nat.le_refl _), if_pos rfl]

theorem closing_aum : aumOf after = current.aum := by
  unfold aumOf
  rw [effect.performance, effect.currentPeriod, get?_set, if_pos rfl, ← effect.opens.aum]
  rfl

theorem closing_owed_now {sub : Subscription} (active : sub.status.val = 1) (now : sub.startPeriod = s.currentPeriod) :
    owed after sub = sub.grams := by
  have ratePos := effect.ratePos
  rw [owed, if_pos active, payoff, closing_last_rate effect, now,
    closing_rate effect s.currentPeriod (Nat.le_refl _), if_pos rfl]
  exact Int.mul_fdiv_cancel_left _ (by omega)

/-- A claim is at most the exact units at the new rate, or the deposit itself. -/
theorem closing_owed_le (history : History s) {id : Nat} {sub : Subscription}
    (stored : s.subscriptions.get? id = some sub) :
    (owed after sub : ℚ) ≤ closed.rate.val * unitsOf s sub + gramsIn s.currentPeriod sub := by
  have started := (history.subscriptions id sub stored).1
  by_cases active : sub.status.val = 1
  · by_cases now : sub.startPeriod = s.currentPeriod
    · rw [closing_owed_now effect active now, unitsOf, if_neg (fun other => other.2 now), gramsIn, if_pos ⟨active, now⟩]
      simp
    have positive := closed_rate_pos history stored now
    have value : owed after sub = ((closed.rate : Int) * sub.grams).fdiv (rateOf s sub.startPeriod) := by
      rw [owed, if_pos active, payoff, closing_last_rate effect, closing_rate effect _ started, if_neg now]
    have floor : owed after sub * rateOf s sub.startPeriod ≤ closed.rate * sub.grams := by
      rw [value, Int.fdiv_eq_ediv_of_nonneg _ (by omega)]
      exact Int.ediv_mul_le _ (by omega)
    rw [unitsOf, if_pos ⟨active, now⟩, gramsIn, if_neg (fun same => now same.2), Int.cast_zero, add_zero,
      ← mul_div_assoc, le_div_iff₀ (by exact_mod_cast positive)]
    exact_mod_cast floor
  · have none : owed after sub = 0 := if_neg active
    rw [none, unitsOf, if_neg (fun h => active h.1), gramsIn, if_neg (fun h => active h.1)]
    simp

/-- Before the incentive fee, the claims are covered by the managed funds and the grams
of the period. -/
theorem closing_claims_le (history : History s)
    (units : exactUnits s ≤ ((current.units - current.withdrawals : Int) : ℚ)) :
    (s.subscriptions.sumBy fun _ sub => owed after sub) ≤
      closed.rate * (current.units - current.withdrawals) + currentGrams s := by
  have rates : (closed.rate.val : ℚ) * exactUnits s =
      s.subscriptions.sumBy fun _ sub => closed.rate.val * unitsOf s sub :=
    map_sumBy _ _ (AddMonoidHom.mulLeft (closed.rate.val : ℚ))
  have grams : (currentGrams s : ℚ) = s.subscriptions.sumBy fun _ sub => (gramsIn s.currentPeriod sub : ℚ) :=
    map_sumBy _ _ (Int.castAddHom ℚ)
  have bound : ((s.subscriptions.sumBy fun _ sub => owed after sub : Int) : ℚ) ≤
      closed.rate.val * exactUnits s + currentGrams s := by
    calc ((s.subscriptions.sumBy fun _ sub => owed after sub : Int) : ℚ)
        = s.subscriptions.sumBy fun _ sub => (owed after sub : ℚ) :=
          map_sumBy _ _ (Int.castAddHom ℚ)
      _ ≤ s.subscriptions.sumBy fun _ sub => closed.rate.val * unitsOf s sub + gramsIn s.currentPeriod sub :=
          sumBy_le _ _ _ fun _ _ stored => closing_owed_le effect history stored
      _ = (s.subscriptions.sumBy fun _ sub => closed.rate.val * unitsOf s sub) +
            s.subscriptions.sumBy fun _ sub => (gramsIn s.currentPeriod sub : ℚ) :=
          sumBy_add _ _ _
      _ = closed.rate.val * exactUnits s + currentGrams s := by rw [rates, grams]
  have scaled : (closed.rate.val : ℚ) * exactUnits s ≤
      closed.rate.val * ((current.units - current.withdrawals : Int) : ℚ) :=
    mul_le_mul_of_nonneg_left units (Nat.cast_nonneg _)
  have total := bound.trans (add_le_add_left scaled _)
  exact_mod_cast total

theorem managed_units_pos (units : exactUnits s ≤ ((current.units - current.withdrawals : Int) : ℚ)) :
    0 < (current.units : Int) - current.withdrawals := by
  have nonneg : 0 ≤ exactUnits s := by
    rw [← sumBy_zero s.subscriptions]
    exact sumBy_le _ _ _ fun _ _ _ => unitsOf_nonneg s _
  have low : (0 : Int) ≤ current.units - current.withdrawals := by
    exact_mod_cast nonneg.trans units
  have divisor := effect.divisor
  omega

end Closing

theorem incentive_fee_le {managedUnits managedAum newRate : Int} (prevRate : Int) {ownerFee : Int}
    (fee : 0 ≤ ownerFee) (floor : managedUnits * newRate ≤ managedAum) :
    ((managedUnits * newRate - managedUnits * prevRate) * ownerFee).fdiv 10000 * 10000 ≤
      (managedAum - managedUnits * prevRate) * ownerFee := by
  rw [Int.fdiv_eq_ediv_of_nonneg _ (by decide)]
  calc (managedUnits * newRate - managedUnits * prevRate) * ownerFee / 10000 * 10000
      ≤ (managedUnits * newRate - managedUnits * prevRate) * ownerFee := Int.ediv_mul_le _ (by decide)
    _ ≤ (managedAum - managedUnits * prevRate) * ownerFee :=
        Int.mul_le_mul_of_nonneg_right (by omega) fee

theorem closing_solvent (history : History s) (kept : FeesKept s) (covered : Covered s current)
    (effect : NewPeriodEffect s sAddr current previous closed opened next after) :
    Solvent after := by
  have claims := closing_claims_le effect history covered.units
  have positive := managed_units_pos effect covered.units
  have floor : ((current.units : Int) - current.withdrawals) * closed.rate ≤
      current.aum - current.deposits := by
    rw [effect.closes.rate, Int.fdiv_eq_ediv_of_nonneg _ (by omega)]
    exact Int.mul_ediv_self_le (by omega)
  have fees := kept current effect.period
  have product := Int.mul_comm (closed.rate : Int) (current.units - current.withdrawals)
  unfold Solvent
  rw [closing_aum effect]
  rcases effect.subscriptions with ⟨-, same⟩ | ⟨profit, lastId, issued, share⟩
  · rw [liabilities, same]
    omega
  obtain ⟨key, before⟩ := effect.before
  obtain ⟨fits, stored⟩ := share.stored
  have growth := incentive_fee_le (rateOf s (s.currentPeriod - 1))
    (Int.natCast_nonneg s.poolConfig.ownerFee.val) floor
  have paid := share.grams
  rw [previous_rate history before] at paid
  have covers := covered.fee
  have total : liabilities after ≤ (s.subscriptions.sumBy fun _ sub => owed after sub) + issued.grams := by
    rw [liabilities, stored, ← closing_owed_now effect share.status share.start]
    exact sumBy_set_le s.subscriptions (fun _ => owed_nonneg after) (lastId + 1) fits issued
  omega

instance (s : State) : Decidable (Solvent s) := inferInstanceAs (Decidable (_ ≤ _))

/-- If every close of a period finds it covered, the pool stays solvent. -/
theorem stays_solvent_when_covered {poolConfig : PoolConfig} {init : InitMessage} {balance : Grams}
    {start : State} (initialised : tryInit cellHash 0 poolConfig init balance = .ok start)
    (inputs : List Input) (covered : Meets (receive cellHash) CoveredClose start inputs) :
    StaysSolvent cellHash start inputs := by
  intro before i after next out split asked success _ _
  have reachable : Reachable cellHash (run (receive cellHash) start before) :=
    ⟨poolConfig, init, balance, start, before, initialised, rfl⟩
  rw [split] at covered
  rcases receive_effect reachable.indexed success with ⟨-, -, none⟩ | ⟨m, request, rfl, same, effect⟩
  · rw [asked] at none
    cases none
  rw [asked] at same
  cases same
  cases effect with
  | newPeriod effect =>
    have here := covered.at asked _ effect.period
    exact closing_solvent (reachable_history reachable) (reachable_feesKept reachable) here effect

/-- A close after one deposit: nothing is gained and the fee of the deposit is kept. -/
theorem sample_stays_solvent :
    (run (receive sampleHash) sampleState [sampleDeposit 8 2000000000, sampleNewPeriod]).currentPeriod = 2 ∧
      StaysSolvent sampleHash sampleState [sampleDeposit 8 2000000000, sampleNewPeriod] := by
  refine ⟨by decide +kernel, stays_solvent_when_covered sample_initialised _ ?_⟩
  refine ⟨?_, ?_, trivial⟩
  · nofun
  · intro _ current period
    have record : (commit (receive sampleHash) sampleState (sampleDeposit 8 2000000000)).1.performance.get?
        (commit (receive sampleHash) sampleState (sampleDeposit 8 2000000000)).1.currentPeriod =
          some ⟨0, 2000010000, 1, 2000000000, 0⟩ := by
      decide +kernel
    rw [record] at period
    cases period
    constructor
    · decide +kernel
    · decide +kernel

/-- A profit of 10000 nanograms doubles the rate, and the incentive fee of 500 comes on top. -/
theorem incentive_fee_breaks_solvency :
    ¬ StaysSolvent sampleHash sampleState [sampleGotBalance 10000 0, sampleNewPeriod] := by
  intro stays
  obtain ⟨⟨next, out⟩, success⟩ : ∃ result, receive sampleHash
      (run (receive sampleHash) sampleState [sampleGotBalance 10000 0]) sampleNewPeriod = .ok result :=
    ⟨_, eq_ok_get (by decide +kernel)⟩
  have solvent := stays [sampleGotBalance 10000 0] sampleNewPeriod [] next out rfl sampleNewPeriod_request
    success (by decide +kernel) (by decide +kernel)
  have reached : next =
      run (receive sampleHash) sampleState ([sampleGotBalance 10000 0] ++ [sampleNewPeriod]) := by
    rw [run_snoc, commit_of_success success]
  rw [reached] at solvent
  exact absurd solvent (by decide +kernel)

end KeptFees

end TonStaking.Guarantees.Solvency
