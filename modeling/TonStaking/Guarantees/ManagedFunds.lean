import TonStaking.Guarantees.Ownership
import TonStaking.Guarantees.Solvency

/-!
# Managed funds within a period

A deposit adds its whole value to the assets and to the deposits of the period,
a redemption in the same period takes the grams of the subscription from both.
The difference, which the next rate is computed from, changes only with balance
reports and with redemptions of older subscriptions. The two fees of the
configuration stay below their cap, which bounds the penalty.
-/
namespace TonStaking.Guarantees.ManagedFunds
open Tvm Source.StakingPool PerformanceHistory Solvency

section Definitions

/-- Assets without the deposits of the current period. -/
def managed (s : State) : Int :=
  ((s.performance.get? s.currentPeriod).map fun p => (p.aum : Int) - p.deposits).getD 0

/-- The subscription with this id, if there is one, has started in the current period. -/
def StartsNow (s : State) (id : Int) : Prop :=
  ∀ sub, s.subscriptions.udictGet? id = some sub → sub.startPeriod = s.currentPeriod

/-- Anything but the close of the period, balance reports and redemptions of
subscriptions of earlier periods. -/
def SamePeriod (s : State) (i : Input) : Prop :=
  match i.request with
  | some .newPeriod => False
  | some .fetchBalances => False
  | some (.gotBalance _ _) => False
  | some (.redeem _ id) => StartsNow s id
  | _ => True

/-- No redemption of the current period can take more than the recorded deposits. -/
def DepositsCover (s : State) : Prop :=
  ∀ current, s.performance.get? s.currentPeriod = some current →
    currentGrams s ≤ current.deposits ∧
      ∀ id sub, s.subscriptions.get? id = some sub → sub.status.val = 1 →
        sub.startPeriod = s.currentPeriod → sub.grams ≤ current.deposits

/-- The cap of `process_set_config` on both fees. -/
def FeesCapped (config : PoolConfig) : Prop := config.ownerFee.val ≤ 3000 ∧ config.penaltyFee.val ≤ 3000

variable (cellHash : Cell → Uint 256)

/-- A redemption in the period of its subscription pays at least seven tenths of it to
the sender, and never more than all of it. -/
def PaysFairly (s : State) : Prop :=
  ∀ m queryId id sub next out, (Input.internal m).request = some (.redeem queryId id) →
    s.subscriptions.udictGet? id = some sub → sub.startPeriod = s.currentPeriod →
    receive cellHash s (.internal m) = .ok (next, out) →
    ∃ back fine, out = [back, fine] ∧ back.dest = m.src ∧
      7 * sub.grams.val ≤ 10 * back.value.val ∧ back.value ≤ sub.grams

end Definitions

section Managed

variable {cellHash : Cell → Uint 256} {s after : State} {m : InMsg} {request : Request} {out : List OutMsg}
  {sAddr : MsgAddress}

theorem managed_of_get? {p : Performance} (found : s.performance.get? s.currentPeriod = some p) :
    managed s = p.aum - p.deposits := by
  simp [managed, found]

/-- A handler that rewrites the record of the current period. -/
theorem managed_updated {current updated : Performance} (period : s.performance.get? s.currentPeriod = some current)
    (same : after.currentPeriod = s.currentPeriod)
    (written : after.performance = s.recorded updated)
    (difference : (updated.aum : Int) - updated.deposits = current.aum - current.deposits) :
    managed after = managed s := by
  have found : after.performance.get? after.currentPeriod = some updated := by
    rw [same, written, Dict.get?_set, if_pos rfl]
  rw [managed_of_get? found, managed_of_get? period, difference]

theorem effect_managed (effect : Effect cellHash s m request after out)
    (asked : (Input.internal m).request = some request) (traffic : SamePeriod s (.internal m)) :
    managed after = managed s := by
  unfold SamePeriod at traffic
  rw [asked] at traffic
  cases effect with
  | ignored | ownersTransfer owner | setConfig parsed effect => rfl
  | activate effect =>
    rw [effect.state]
    rfl
  | deposit effect =>
    apply managed_updated effect.period
    · rw [effect.state]
    · rw [effect.state]
    · rw [effect.holds.aum, effect.holds.deposits]
      ring
  | @redeem queryId id sub written current updated after out effect =>
    have now : sub.startPeriod = s.currentPeriod :=
      traffic sub ((Dict.udictGet?_natCast _ _).trans effect.found)
    rcases effect.branch with current | ⟨start, last, earlier⟩
    · apply managed_updated effect.period
      · rw [effect.state]
      · rw [effect.state]
      · rw [current.holds.aum, current.holds.deposits]
        ring
    · exact absurd now earlier.otherPeriod
  | fetch effect | gotBalance effect | newPeriod effect => exact traffic.elim

theorem run_managed (indexed : Indexed s) (traffic : List Input)
    (same : Meets (receive cellHash) SamePeriod s traffic) :
    managed (run (receive cellHash) s traffic) = managed s := by
  have both : Indexed (run (receive cellHash) s traffic) ∧
      managed (run (receive cellHash) s traffic) = managed s := by
    refine run_preserves_of_meets (P := fun x => Indexed x ∧ managed x = managed s) ?_ s traffic same
      ⟨indexed, rfl⟩
    rintro x i next out condition ⟨known, equal⟩ success
    refine ⟨receive_indexed known success, ?_⟩
    rcases receive_effect known success with ⟨rfl, -, -⟩ | ⟨m, request, rfl, asked, effect⟩
    · exact equal
    · exact (effect_managed effect asked condition).trans equal
  exact both.2

theorem depositsCover (reachable : Reachable cellHash s) : DepositsCover s := by
  intro current period
  have kept := reachable_feesKept reachable current period
  refine ⟨kept, ?_⟩
  intro id sub found active start
  have own : gramsIn s.currentPeriod sub = sub.grams := if_pos ⟨active, start⟩
  have part : gramsIn s.currentPeriod sub ≤ currentGrams s :=
    Dict.le_sumBy _ _ (fun _ x => gramsIn_nonneg _ x) found
  rw [Fin.le_def]
  omega

/-- Both options with a fee check the cap before they write it. -/
theorem receive_capped {i : Input} (indexed : Indexed s) (success : receive cellHash s i = .ok (after, out))
    (capped : FeesCapped s.poolConfig) : FeesCapped after.poolConfig := by
  rcases Ownership.receive_config indexed success with ⟨kept, -⟩ | ⟨option, inMsg, srcWc, srcAddr, -, -, effect⟩
  · rw [kept]
    exact capped
  constructor
  · rcases effect.ownerFee with same | ⟨-, cap⟩
    · rw [same]
      exact capped.1
    · exact cap
  · rcases effect.penaltyFee with same | ⟨-, cap⟩
    · rw [same]
      exact capped.2
    · exact cap

theorem run_capped (indexed : Indexed s) (capped : FeesCapped s.poolConfig) (inputs : List Input) :
    FeesCapped (run (receive cellHash) s inputs).poolConfig := by
  have both : Indexed (run (receive cellHash) s inputs) ∧
      FeesCapped (run (receive cellHash) s inputs).poolConfig := by
    refine run_preserves (P := fun x => Indexed x ∧ FeesCapped x.poolConfig) ?_ s inputs ⟨indexed, capped⟩
    rintro x i next out ⟨known, below⟩ success
    exact ⟨receive_indexed known success, receive_capped known success below⟩
  exact both.2

/-- A penalty of at most 3000 in 10000 leaves seven tenths. -/
theorem penalty_bounds {grams penaltyFee : Int} (amount : 0 ≤ grams) (low : 0 ≤ penaltyFee)
    (high : penaltyFee ≤ 3000) :
    0 ≤ (grams * penaltyFee).fdiv 10000 ∧ 10 * (grams * penaltyFee).fdiv 10000 ≤ 3 * grams := by
  have product : 0 ≤ grams * penaltyFee := Int.mul_nonneg amount low
  have cap : grams * penaltyFee ≤ grams * 3000 := Int.mul_le_mul_of_nonneg_left high amount
  rw [Int.fdiv_eq_ediv_of_nonneg _ (by decide)]
  omega

theorem paysFairly (capped : FeesCapped s.poolConfig) : PaysFairly cellHash s := by
  intro m queryId id sub next out asked found now success
  rw [receive_request asked] at success
  obtain ⟨key, stored, written, current, updated, rfl, effect⟩ := processRedeem_effects success
  rw [Dict.udictGet?_natCast, effect.found] at found
  cases found
  obtain same | ⟨start, last, earlier⟩ := effect.branch
  swap
  · exact absurd now earlier.otherPeriod
  obtain ⟨back, fine, rfl, dest, -, sum, penalty⟩ := same.sent
  obtain ⟨nonneg, bound⟩ := penalty_bounds (Int.natCast_nonneg sub.grams)
    (Int.natCast_nonneg s.poolConfig.penaltyFee) (by exact_mod_cast capped.2)
  refine ⟨back, fine, rfl, dest, by omega, ?_⟩
  rw [Fin.le_def]
  omega

/-- After any run, traffic within one period leaves the managed funds as they are; the
deposits cover every redemption of the period; and fees that start below their cap
stay there, so that the penalty is at most three tenths. -/
theorem same_period_traffic_keeps_managed_funds {poolConfig : PoolConfig} {init : InitMessage} {balance : Grams}
    {start : State} (initialised : tryInit cellHash 0 poolConfig init balance = .ok start)
    (earlier traffic : List Input)
    (same : Meets (receive cellHash) SamePeriod (run (receive cellHash) start earlier) traffic) :
    managed (run (receive cellHash) start (earlier ++ traffic)) =
        managed (run (receive cellHash) start earlier) ∧
      DepositsCover (run (receive cellHash) start (earlier ++ traffic)) ∧
      (FeesCapped poolConfig →
        FeesCapped (run (receive cellHash) start (earlier ++ traffic)).poolConfig ∧
          PaysFairly cellHash (run (receive cellHash) start (earlier ++ traffic))) := by
  have indexed := tryInit_indexed initialised
  refine ⟨?_, ?_, ?_⟩
  · rw [run_append]
    exact run_managed (run_indexed indexed earlier) traffic same
  · exact depositsCover ⟨poolConfig, init, balance, start, earlier ++ traffic, initialised, rfl⟩
  · intro capped
    obtain ⟨first, opened, sub, hash, effect⟩ := tryInit_effects initialised
    have initial : FeesCapped start.poolConfig := by
      rw [effect.config]
      exact capped
    have later : FeesCapped (run (receive cellHash) start (earlier ++ traffic)).poolConfig :=
      run_capped indexed initial (earlier ++ traffic)
    exact ⟨later, paysFairly later⟩

theorem sampleRedeem_request (sender : Uint 256) (id : Uint 32) :
    (sampleRedeem sender id).request = some (.redeem 1 id) := by
  have op : (0x534D4452 : Uint 32).val = 0x534D4452 := by decide
  rw [sampleRedeem, sampleOperation_request _ _ _ _ _ (by decide)]
  rw [parseOperation, op]
  simp [Except.toOption]

/-- A deposit by 8 and its redemption in the same period. -/
theorem sample_traffic : Meets (receive sampleHash) SamePeriod sampleState
    [sampleDeposit 8 2000000000, sampleRedeem 8 2] := by
  refine ⟨?_, ?_, trivial⟩
  · rw [SamePeriod, sampleDeposit_request]
    trivial
  · rw [SamePeriod, sampleRedeem_request]
    intro sub found
    have stored : (commit (receive sampleHash) sampleState (sampleDeposit 8 2000000000)).1.subscriptions.udictGet?
        ((2 : Uint 32) : Int) = some ⟨8, ⟨0, by decide⟩, 1900000000, 1, 0, 1⟩ := by decide +kernel
    rw [stored] at found
    cases found
    decide +kernel

theorem sample_managed_funds :
    managed (run (receive sampleHash) sampleState [sampleDeposit 8 2000000000, sampleRedeem 8 2]) =
        managed sampleState ∧
      PaysFairly sampleHash
        (run (receive sampleHash) sampleState [sampleDeposit 8 2000000000, sampleRedeem 8 2]) := by
  have traffic : Meets (receive sampleHash) SamePeriod (run (receive sampleHash) sampleState [])
      [sampleDeposit 8 2000000000, sampleRedeem 8 2] := by
    rw [run_nil]
    exact sample_traffic
  have kept := same_period_traffic_keeps_managed_funds sample_initialised [] _ traffic
  rw [run_nil, List.nil_append] at kept
  have capped : FeesCapped sampleConfig := ⟨by decide, by decide⟩
  exact ⟨kept.1, (kept.2.2 capped).2⟩

end Managed

end TonStaking.Guarantees.ManagedFunds
