import TonStaking.Guarantees.IndexAgreement
import TonStaking.Guarantees.PerformanceHistory

/-!
# Deposits of one period

A deposit always opens a new subscription, because the branch that should add to
the subscription of the current period reads the sender's index with 32-bit keys
and aborts whenever it is reached. The deposits of a sender in one period
accumulate only as long as there is a single one, and a sender whose index the
search cannot read cannot deposit at all.
-/
namespace TonStaking.Guarantees.DepositAccumulation
open Tvm Source.StakingPool IndexAgreement PerformanceHistory

section Definitions

/-- An active subscription of this address that started in this period. -/
def ActiveIn (s : State) (period : Uint 16) (wc address : Int) (id : Nat) : Prop :=
  ∃ sub, s.subscriptions.get? id = some sub ∧ sub.subscriberWc.val = wc ∧
    (sub.subscriber : Int) = address ∧ sub.status.val = 1 ∧ sub.startPeriod = period

/-- The subscription has started in the current period. -/
def startsNow (s : State) (id : Int) : Bool :=
  (s.subscriptions.udictGet? id).map Subscription.startPeriod == some s.currentPeriod

variable (cellHash : Cell → Uint 256) (wc address : Int)

/-- What the sender has deposited in this period since its last redemption in the
same period, after one more input. -/
def contribute (s : State) (known : Int) (i : Input) : Int :=
  match i, i.request, receive cellHash s i with
  | .internal m, some .newSubscription, .ok _ =>
    if i.sender.toOption = some (wc, address) ∧ ¬ (wc = 0 ∧ address = s.poolConfig.owner) then
      known + (m.value - s.poolConfig.transactionFee)
    else known
  | .internal _, some (.redeem _ id), .ok _ =>
    if i.sender.toOption = some (wc, address) ∧ startsNow s id then 0 else known
  | .internal _, some .newPeriod, .ok _ => 0
  | _, _, _ => known

def contributed (start : State) (inputs : List Input) : Int :=
  track (receive cellHash) (contribute cellHash wc address) start 0 inputs

/-- The deposit `m` after the run `inputs` succeeds and leaves one active subscription of
the current period, with everything contributed. -/
def Accumulates (start : State) (inputs : List Input) (m : InMsg) : Prop :=
  ∃ after, receive cellHash (run (receive cellHash) start inputs) (.internal m) = .ok (after, []) ∧
    ∃ id sub, after.subscriptions.get? id = some sub ∧
      (∀ k, ActiveIn after after.currentPeriod wc address k ↔ k = id) ∧
      (sub.grams : Int) = contributed cellHash wc address start (inputs ++ [.internal m])

/-- What a deposit needs: a workchain that fits both stores, amounts within their
fields, an index the search can read, and no active subscription of the current
period, unless it sits under the very id that the deposit overwrites. -/
structure Depositable (s : State) (value : Grams) : Prop where
  workchain : 0 ≤ wc ∧ wc < 2 ^ 7
  amounts : ∀ current, s.performance.get? s.currentPeriod = some current →
    current.aum.val + value.val < 2 ^ 120 ∧ current.deposits.val + value.val < 2 ^ 120
  legible : ∀ hash, subscriberHash cellHash wc address = .ok hash → Legible s hash
  vacant : ∀ id, ActiveIn s s.currentPeriod wc address id →
    ∀ last sub, s.subscriptions.udictGetPrev? lastIdx = some (last, sub) → id = last + 1

end Definitions

variable {cellHash : Cell → Uint 256} {wc address : Int}

/-- The active subscriptions of the sender after a deposit: those before it, unless they
sat under the new id, and the new one. -/
theorem deposit_active {s after : State} {sAddr : MsgAddress} {msgValue : Int} {hash : Uint 256}
    {lastId : Uint 32} {inner : IndexTrie} {sub : Subscription} {current updated : Performance}
    (effect : DepositEffect cellHash s sAddr msgValue wc address hash lastId inner sub current updated after)
    (k : Nat) :
    ActiveIn after after.currentPeriod wc address k ↔
      k = lastId.val + 1 ∨ ActiveIn s s.currentPeriod wc address k := by
  have period : after.currentPeriod = s.currentPeriod := by rw [effect.state]
  by_cases new : k = lastId.val + 1
  · have stored : after.subscriptions.get? k = some sub := by
      rw [effect.state, Dict.get?_set, if_pos new]
    constructor
    · exact fun _ => .inl new
    · intro _
      refine ⟨sub, stored, effect.workchain, effect.subscriber, effect.status, ?_⟩
      rw [period]
      exact effect.start
  · have same : after.subscriptions.get? k = s.subscriptions.get? k := by
      rw [effect.state, Dict.get?_set, if_neg new]
    rw [period, ActiveIn, ActiveIn, same]
    constructor
    · exact fun active => .inr active
    · exact fun either => either.resolve_left new

section Deposit

variable {start : State} {inputs : List Input} {m : InMsg}

/-- A depositable message meets every check of `process_new_subscription`. -/
theorem Depositable.ready {s : State} (reachable : Reachable cellHash s)
    (depositable : Depositable cellHash wc address s m.value)
    (sent : parseStdAddr m.src = .ok (wc, address))
    (stranger : ¬ (wc = 0 ∧ address = s.poolConfig.owner))
    (feePaid : (s.poolConfig.transactionFee : Int) ≤ m.value) :
    ∃ current, DepositReady cellHash s m.src m.value wc address current := by
  have present := ((reachable_history reachable).keys s.currentPeriod).mpr le_rfl
  obtain ⟨current, period⟩ := Option.isSome_iff_exists.mp present
  obtain ⟨aum, deposits⟩ := depositable.amounts current period
  refine ⟨current, ?_⟩
  constructor
  case feePaid => exact feePaid
  case parsed => exact sent
  case workchain => exact depositable.workchain
  case stranger => exact stranger
  case greatest =>
    obtain ⟨lastId, last, greatest⟩ := reachable_greatest reachable
    rw [greatest]
    rfl
  case period => exact period
  case grams => omega
  case aum => omega
  case deposits => omega
  case legible => exact depositable.legible

section

variable (asked : (Input.internal m).request = some .newSubscription) (sent : parseStdAddr m.src = .ok (wc, address))
  (stranger : ¬ (wc = 0 ∧ address = (run (receive cellHash) start inputs).poolConfig.owner))
include asked sent stranger

theorem contributed_deposit {after : State} {out : List OutMsg}
    (success : receive cellHash (run (receive cellHash) start inputs) (.internal m) = .ok (after, out)) :
    contributed cellHash wc address start (inputs ++ [.internal m]) =
      contributed cellHash wc address start inputs +
        (m.value - (run (receive cellHash) start inputs).poolConfig.transactionFee) := by
  have sender : (Input.internal m).sender.toOption = some (wc, address) := by
    simp [Input.sender, sent, Except.toOption]
  rw [contributed, track_snoc]
  simp only [contribute, asked, success, sender, stranger, not_false_eq_true, and_self, if_true]
  rfl

variable (reachable : Reachable cellHash (run (receive cellHash) start inputs))
include reachable

theorem Depositable.accumulates
    (feePaid : ((run (receive cellHash) start inputs).poolConfig.transactionFee : Int) ≤ m.value)
    (depositable : Depositable cellHash wc address (run (receive cellHash) start inputs) m.value)
    (settled : contributed cellHash wc address start inputs = 0) :
    Accumulates cellHash wc address start inputs m := by
  obtain ⟨current, ready⟩ := depositable.ready reachable sent stranger feePaid
  obtain ⟨hash, lastId, inner, sub, updated, after, success, effect⟩ := ready.effect reachable.indexed
  have received := (receive_request asked).trans success
  refine ⟨after, received, lastId.val + 1, sub, ?_, ?_, ?_⟩
  · rw [effect.state, Dict.get?_set, if_pos rfl]
  · intro k
    rw [deposit_active effect]
    constructor
    · rintro (new | active)
      · exact new
      · obtain ⟨last, greatest⟩ := effect.greatest
        exact depositable.vacant k active lastId last greatest
    · exact fun new => .inl new
  · rw [contributed_deposit asked sent stranger received, settled, effect.grams]
    omega

/-- A deposit that accumulates was depositable and the first of the period. -/
theorem Accumulates.depositable
    (accumulates : Accumulates cellHash wc address start inputs m) :
    Depositable cellHash wc address (run (receive cellHash) start inputs) m.value ∧
      contributed cellHash wc address start inputs = 0 := by
  obtain ⟨after, received, id, kept, stored, only, grams⟩ := accumulates
  have success := (receive_request asked).symm.trans received
  obtain ⟨-, ⟨-, owner⟩ | ⟨srcWc, srcAddr, hash, lastId, inner, sub, current, updated, effect⟩⟩ :=
    processNewSubscription_effects reachable.indexed success
  · cases Except.ok.inj (sent.symm.trans owner)
    exact absurd ⟨rfl, rfl⟩ stranger
  cases Except.ok.inj (sent.symm.trans effect.parsed)
  have new : lastId.val + 1 = id := (only _).mp ((deposit_active effect _).mpr (.inl rfl))
  constructor
  · constructor
    case workchain =>
      obtain ⟨unsigned, storedWc, -⟩ := of_bind effect.hashed
      have low := storeUint_success storedWc
      have high := sub.subscriberWc.property
      have same := effect.workchain
      omega
    case amounts =>
      intro found period
      cases effect.period.symm.trans period
      have aum := effect.holds.aum
      have deposits := effect.holds.deposits
      omega
    case legible =>
      intro key hashed
      exact processNewSubscription_requires_legible success sent hashed stranger
    case vacant =>
      intro k active last x greatest
      have same := (only k).mp ((deposit_active effect k).mpr (.inr active))
      obtain ⟨y, found⟩ := effect.greatest
      cases found.symm.trans greatest
      omega
  · have equal : kept = sub := by
      rw [effect.state, Dict.get?_set, if_pos new.symm] at stored
      exact (Option.some.inj stored).symm
    rw [contributed_deposit asked sent stranger received, equal, effect.grams] at grams
    omega

end

/-- For every run and every deposit that pays the fee: it succeeds and leaves one
accumulated subscription exactly if it is depositable and nothing else of this period
is outstanding. -/
theorem deposit_accumulates_iff {poolConfig : PoolConfig} {init : InitMessage} {balance : Grams}
    (initialised : tryInit cellHash 0 poolConfig init balance = .ok start)
    (asked : (Input.internal m).request = some .newSubscription)
    (sent : parseStdAddr m.src = .ok (wc, address))
    (stranger : ¬ (wc = 0 ∧ address = (run (receive cellHash) start inputs).poolConfig.owner))
    (feePaid : ((run (receive cellHash) start inputs).poolConfig.transactionFee : Int) ≤ m.value) :
    Accumulates cellHash wc address start inputs m ↔
      Depositable cellHash wc address (run (receive cellHash) start inputs) m.value ∧
        contributed cellHash wc address start inputs = 0 := by
  have reachable : Reachable cellHash (run (receive cellHash) start inputs) :=
    ⟨poolConfig, init, balance, start, inputs, initialised, rfl⟩
  constructor
  · exact Accumulates.depositable asked sent stranger reachable
  · rintro ⟨depositable, settled⟩
    exact depositable.accumulates asked sent stranger reachable feePaid settled

/-- The first deposit of 8 in the sample pool. -/
theorem sample_deposit_accumulates :
    Accumulates sampleHash 0 (8 : Uint 256) sampleState [] (sampleTransfer 8 2000000000) := by
  refine (deposit_accumulates_iff sample_initialised (sampleDeposit_request 8 2000000000) rfl ?_ ?_).mpr
    ⟨?_, rfl⟩
  · decide +kernel
  · decide +kernel
  constructor
  case workchain => decide
  case amounts =>
    intro current period
    rw [run_nil] at period
    have only : sampleState.performance.get? sampleState.currentPeriod = some ⟨0, 10000, 1, 0, 0⟩ := by
      decide +kernel
    cases only.symm.trans period
    decide
  case legible =>
    intro hash hashed x known
    rw [sample_hashed] at hashed
    have absent : sampleState.subscribers.get? (sampleKey 8) = none := by decide +kernel
    rw [run_nil, ← Except.ok.inj hashed, absent] at known
    cases known
  case vacant =>
    rintro id ⟨sub, found, -, subscriber, -⟩
    obtain ⟨first, opened, founding, hash, effect⟩ := tryInit_effects sample_initialised
    rw [run_nil, effect.subscriptions, Dict.get?_set] at found
    split at found
    · cases found
      rw [effect.subscriber] at subscriber
      exact absurd subscriber (by decide +kernel)
    · cases found

/-- The second deposit of 8 in the same period opens a second subscription. -/
theorem second_deposit_opens_another :
    ¬ Accumulates sampleHash 0 (8 : Uint 256) sampleState [sampleDeposit 8 2000000000]
      (sampleTransfer 8 2000000000) := by
  intro accumulates
  obtain ⟨depositable, -⟩ := accumulates.depositable (sampleDeposit_request 8 2000000000) rfl (by decide +kernel)
    (sample_reachable _)
  have active : ActiveIn (run (receive sampleHash) sampleState [sampleDeposit 8 2000000000])
      (run (receive sampleHash) sampleState [sampleDeposit 8 2000000000]).currentPeriod 0 (8 : Uint 256) 2 :=
    ⟨⟨8, ⟨0, by decide⟩, 1900000000, 1, 0, 1⟩, by decide +kernel⟩
  have greatest : (run (receive sampleHash) sampleState
      [sampleDeposit 8 2000000000]).subscriptions.udictGetPrev? lastIdx =
        some (2, ⟨8, ⟨0, by decide⟩, 1900000000, 1, 0, 1⟩) := by
    decide +kernel
  exact absurd (depositable.vacant 2 active 2 _ greatest) (by decide)

end Deposit

end TonStaking.Guarantees.DepositAccumulation
