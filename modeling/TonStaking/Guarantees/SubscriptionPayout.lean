import TonStaking.Source.StakingPool.Deposit

/-!
# Payouts of subscriptions

`process_redeem` pays a subscription once and only to the address stored in it.
Ids come from the greatest key strictly below 2^32 - 1. As long as the id
2^32 - 1 is unused, the next id is unused too and no record is replaced. Once it
is used, every further deposit is stored over it.
-/
namespace TonStaking.Guarantees.SubscriptionPayout
open Tvm Source.StakingPool Dict

variable {s after : State} {id : Nat} {out : List OutMsg} {i : Input} {p : Payout} {sub : Subscription}

/-- What one redemption pays: the subscription and the queued messages. -/
structure Payout where
  id : Nat
  sent : List OutMsg

section Definitions

variable (cellHash : Cell → Uint 256)

def payout (s : State) (i : Input) : Option Payout :=
  match i.request, receive cellHash s i with
  | some (.redeem _ id), .ok (_, sent) => some ⟨id.toNat, sent⟩
  | _, _ => none

/-- All redemptions of a run, in order. -/
def payouts (s : State) : List Input → List Payout
  | [] => []
  | i :: rest => (payout cellHash s i).toList ++ payouts (commit (receive cellHash) s i).1 rest

/-- The payment goes to the recorded subscriber. Only a redemption in the period
of the subscription has a second message, the penalty to the owner. -/
def PaidTo (s : State) (sub : Subscription) (sent : List OutMsg) : Prop :=
  ∃ back rest, sent = back :: rest ∧
    parseStdAddr back.dest = .ok (sub.subscriberWc.val, (sub.subscriber : Int)) ∧
    (rest = [] ∨ sub.startPeriod = s.currentPeriod ∧
      ∃ fine, rest = [fine] ∧ fine.dest = .tag6 ⟨0, base_fits⟩ s.poolConfig.owner)

structure SameHolder (old new : Subscription) : Prop where
  subscriber : new.subscriber = old.subscriber
  workchain : new.subscriberWc = old.subscriberWc
  start : new.startPeriod = old.startPeriod

/-- No double payout and no payout to a stranger in the run from `start`. -/
structure PayoutSafety (start : State) (inputs : List Input) : Prop where
  once : ((payouts cellHash start inputs).map Payout.id).Nodup
  existing : ∀ before i after p, inputs = before ++ i :: after →
    payout cellHash (run (receive cellHash) start before) i = some p →
    ((run (receive cellHash) start before).subscriptions.get? p.id).isSome
  addressed : ∀ before later i after p, inputs = before ++ later ++ i :: after →
    payout cellHash (run (receive cellHash) start (before ++ later)) i = some p →
    ∀ sub, (run (receive cellHash) start before).subscriptions.get? p.id = some sub →
      PaidTo (run (receive cellHash) start (before ++ later)) sub p.sent
  kept : ∀ before later after, inputs = before ++ later ++ after →
    ∀ id sub, (run (receive cellHash) start before).subscriptions.get? id = some sub →
      ∃ new, (run (receive cellHash) start (before ++ later)).subscriptions.get? id = some new ∧
        SameHolder sub new
  notReused : ∀ before i after, inputs = before ++ i :: after →
    ∀ id sub, (run (receive cellHash) start before).subscriptions.get? id = some sub →
      (payout cellHash (run (receive cellHash) start before) i).map Payout.id ≠ some id →
      (run (receive cellHash) start (before ++ [i])).subscriptions.get? id = some sub

end Definitions

/-- The last id is free, or the input opens no subscription. -/
def FreeId (s : State) (i : Input) : Prop :=
  i.request = some .newSubscription ∨ i.request = some .newPeriod →
    s.subscriptions.get? (2 ^ 32 - 1) = none

theorem SameHolder.refl (sub : Subscription) : SameHolder sub sub := ⟨rfl, rfl, rfl⟩

theorem SameHolder.trans {a b c : Subscription} (first : SameHolder a b) (second : SameHolder b c) :
    SameHolder a c where
  subscriber := second.subscriber.trans first.subscriber
  workchain := second.workchain.trans first.workchain
  start := second.start.trans first.start

variable {cellHash : Cell → Uint 256}

/-- With the last id free, the id after the greatest one found is unused. -/
theorem next_id_unused {lastId : Nat} {last : Subscription}
    (greatest : s.subscriptions.udictGetPrev? lastIdx = some (lastId, last))
    (free : s.subscriptions.get? (2 ^ 32 - 1) = none) : s.subscriptions.get? (lastId + 1) = none := by
  obtain ⟨below, -, above⟩ := Dict.udictGetPrev?_some greatest
  rw [lastIdx_eq] at below above
  by_cases edge : lastId + 1 = 2 ^ 32 - 1
  · rw [edge]
    exact free
  · exact above (lastId + 1) (by omega) (by omega)

theorem payout_success (paid : payout cellHash s i = some p) :
    ∃ queryId id after, i.request = some (.redeem queryId id) ∧ id.toNat = p.id ∧
      receive cellHash s i = .ok (after, p.sent) := by
  unfold payout at paid
  split at paid
  · next queryId id after sent asked success =>
    cases paid
    exact ⟨queryId, id, after, asked, rfl, success⟩
  · cases paid

/-- A payout is a redemption of an active subscription by its subscriber. -/
theorem payout_effect (indexed : Indexed s) (paid : payout cellHash s i = some p) :
    ∃ m : InMsg, ∃ sub written current updated after, receive cellHash s i = .ok (after, p.sent) ∧
      RedeemEffect s m.src p.id sub written current updated after p.sent := by
  obtain ⟨queryId, id, after, asked, named, success⟩ := payout_success paid
  rcases receive_effect indexed success with ⟨-, -, none⟩ | ⟨m, request, rfl, same, effect⟩
  · rw [asked] at none
    cases none
  rw [asked] at same
  cases same
  cases effect with
  | redeem effect =>
    subst named
    exact ⟨m, _, _, _, _, after, success, effect⟩

/-- One transaction keeps every record, apart from the one it redeems. -/
theorem receive_keeps (indexed : Indexed s) (free : FreeId s i) (success : receive cellHash s i = .ok (after, out))
    (found : s.subscriptions.get? id = some sub) :
    after.subscriptions.get? id = some sub ∨
      (payout cellHash s i = some ⟨id, out⟩ ∧ sub.status.val = 1 ∧
        ∃ new, after.subscriptions.get? id = some new ∧ SameHolder sub new ∧ new.status.val ≠ 1) := by
  rcases receive_effect indexed success with ⟨rfl, -, -⟩ | ⟨m, request, rfl, asked, effect⟩
  · exact .inl found
  cases effect with
  | ignored | ownersTransfer owner | setConfig parsed effect => exact .inl found
  | deposit effect =>
    obtain ⟨last, greatest⟩ := effect.greatest
    have unused := next_id_unused greatest (free (.inl asked))
    rw [effect.state]
    exact .inl (get?_set_unused effect.fits unused found)
  | @redeem queryId redeemed old written current updated after out effect =>
    by_cases same : id = redeemed
    · subst same
      have equal : old = sub := by
        rw [effect.found] at found
        exact Option.some.inj found
      subst equal
      refine .inr ⟨by simp [payout, asked, success], effect.active, written, ?_, ?_, ?_⟩
      · rw [effect.state, get?_set, if_pos rfl]
      · exact ⟨effect.subscriber, effect.workchain, effect.start⟩
      · exact effect.settled
    · rw [effect.state, get?_set, if_neg same]
      exact .inl found
  | activate effect | fetch effect | gotBalance effect =>
    rw [effect.state]
    exact .inl found
  | newPeriod effect =>
    rcases effect.subscriptions with ⟨-, same⟩ | ⟨-, lastId, issued, share⟩
    · rw [same]
      exact .inl found
    · obtain ⟨last, greatest⟩ := share.greatest
      obtain ⟨fits, stored⟩ := share.stored
      have unused := next_id_unused greatest (free (.inr asked))
      rw [stored]
      exact .inl (get?_set_unused fits unused found)

theorem commit_keeps (indexed : Indexed s) (free : FreeId s i) (found : s.subscriptions.get? id = some sub) :
    (commit (receive cellHash) s i).1.subscriptions.get? id = some sub ∨
      ((payout cellHash s i).map Payout.id = some id ∧ sub.status.val = 1 ∧
        ∃ new, (commit (receive cellHash) s i).1.subscriptions.get? id = some new ∧
          SameHolder sub new ∧ new.status.val ≠ 1) := by
  cases outcome : receive cellHash s i with
  | error e =>
    rw [commit_of_error outcome]
    exact .inl found
  | ok result =>
    rw [commit_of_success outcome]
    rcases receive_keeps indexed free outcome found with same | ⟨paid, active, redeemed⟩
    · exact .inl same
    · exact .inr ⟨by rw [paid]; rfl, active, redeemed⟩

section Runs

variable {s : State} {inputs : List Input} {id : Nat} {sub : Subscription}

section

variable (indexed : Indexed s)
include indexed

section

variable (free : Meets (receive cellHash) FreeId s inputs)
include free

/-- Along a run every record keeps its holder. -/
theorem run_keeps (found : s.subscriptions.get? id = some sub) :
    ∃ new, (run (receive cellHash) s inputs).subscriptions.get? id = some new ∧ SameHolder sub new := by
  induction inputs generalizing s sub with
  | nil => exact ⟨sub, found, SameHolder.refl sub⟩
  | cons i rest ih =>
    obtain ⟨now, later⟩ := free
    have next : Indexed (commit (receive cellHash) s i).1 := commit_indexed indexed i
    rcases commit_keeps indexed now found with same | ⟨-, -, redeemed, stored, holder, -⟩
    · exact ih next later same
    · obtain ⟨new, kept, sameHolder⟩ := ih next later stored
      exact ⟨new, kept, holder.trans sameHolder⟩

theorem inactive_not_paid
    (found : s.subscriptions.get? id = some sub) (inactive : sub.status.val ≠ 1) :
    id ∉ (payouts cellHash s inputs).map Payout.id := by
  induction inputs generalizing s with
  | nil => simp [payouts]
  | cons i rest ih =>
    obtain ⟨now, later⟩ := free
    have notNow : ∀ p, payout cellHash s i = some p → p.id ≠ id := by
      intro p paid equal
      obtain ⟨m, old, written, current, updated, after, -, effect⟩ := payout_effect indexed paid
      have stored := effect.found
      rw [equal, found] at stored
      cases stored
      exact inactive effect.active
    have notLater := ih (commit_indexed indexed i) later
      ((commit_keeps indexed now found).resolve_right fun paid => inactive paid.2.1)
    simp only [payouts, List.map_append, List.mem_append, not_or]
    refine ⟨?_, notLater⟩
    cases paid : payout cellHash s i with
    | none => simp
    | some p =>
      have different := notNow p paid
      simpa using different.symm

theorem payouts_nodup : ((payouts cellHash s inputs).map Payout.id).Nodup := by
  induction inputs generalizing s with
  | nil => simp [payouts]
  | cons i rest ih =>
    obtain ⟨now, later⟩ := free
    have next : Indexed (commit (receive cellHash) s i).1 := commit_indexed indexed i
    have tail := ih next later
    simp only [payouts]
    cases paid : payout cellHash s i with
    | none => simpa using tail
    | some p =>
      -- the redeemed record is no longer active, so its id is not paid again
      obtain ⟨m, old, written, current, updated, after, success, effect⟩ := payout_effect indexed paid
      have stored : (commit (receive cellHash) s i).1.subscriptions.get? p.id = some written := by
        rw [commit_of_success success, effect.state, get?_set, if_pos rfl]
      have inactive : written.status.val ≠ 1 := effect.settled
      have fresh := inactive_not_paid next later stored inactive
      exact List.nodup_cons.mpr ⟨fresh, tail⟩

end

/-- A payment made now goes to the holder that any earlier state has recorded. -/
theorem payout_addressed {i : Input} {p : Payout} (paid : payout cellHash s i = some p)
    {new : Subscription} (found : s.subscriptions.get? p.id = some new) (holder : SameHolder sub new) :
    PaidTo s sub p.sent := by
  obtain ⟨m, old, written, current, updated, after, -, effect⟩ := payout_effect indexed paid
  have equal : old = new := Option.some.inj (effect.found.symm.trans found)
  subst equal
  have owned := effect.owned
  rw [holder.subscriber, holder.workchain] at owned
  rcases effect.branch with now | ⟨start, last, earlier⟩
  · obtain ⟨back, fine, sent, backDest, fineDest, -⟩ := now.sent
    have samePeriod := now.samePeriod
    rw [holder.start] at samePeriod
    refine ⟨back, [fine], sent, ?_, .inr ⟨samePeriod, fine, rfl, fineDest⟩⟩
    rw [backDest]
    exact owned
  · obtain ⟨back, sent, backDest, -⟩ := earlier.sent
    refine ⟨back, [], sent, ?_, .inl rfl⟩
    rw [backDest]
    exact owned

end

/-- While the last id is free whenever a subscription is opened, every run pays each
subscription at most once, pays only its recorded holder and keeps every record. -/
theorem payouts_safe_while_last_id_free {poolConfig : PoolConfig} {init : InitMessage} {balance : Grams}
    {start : State} (initialised : tryInit cellHash 0 poolConfig init balance = .ok start)
    (inputs : List Input) (free : Meets (receive cellHash) FreeId start inputs) :
    PayoutSafety cellHash start inputs := by
  have indexed : ∀ before, Indexed (run (receive cellHash) start before) :=
    run_indexed (tryInit_indexed initialised)
  have kept : ∀ before later after, inputs = before ++ later ++ after →
      ∀ id sub, (run (receive cellHash) start before).subscriptions.get? id = some sub →
        ∃ new, (run (receive cellHash) start (before ++ later)).subscriptions.get? id = some new ∧
          SameHolder sub new := by
    intro before later after split id sub found
    rw [split] at free
    have between := ((meets_append start before later).mp free.before).2
    obtain ⟨new, stored, holder⟩ := run_keeps (indexed before) between found
    rw [← run_append] at stored
    exact ⟨new, stored, holder⟩
  constructor
  case once => exact payouts_nodup (tryInit_indexed initialised) free
  case existing =>
    intro before i after p split paid
    obtain ⟨m, old, written, current, updated, next, -, effect⟩ := payout_effect (indexed before) paid
    rw [effect.found]
    rfl
  case addressed =>
    intro before later i after p split paid sub found
    obtain ⟨new, stored, holder⟩ := kept before later (i :: after) split p.id sub found
    exact payout_addressed (indexed _) paid stored holder
  case kept => exact kept
  case notReused =>
    intro before i after split id sub found other
    rw [split] at free
    rw [run_snoc]
    apply (commit_keeps (indexed before) free.at found).resolve_right
    intro redeemed
    exact other redeemed.1

/-- A deposit of 2 grams by 8, redeemed in the next period and once more. -/
theorem sample_payouts_safe :
    (payouts sampleHash sampleState
        [sampleDeposit 8 2000000000, sampleNewPeriod, sampleRedeem 8 2, sampleRedeem 8 2]).map
          Payout.id = [2] ∧
      PayoutSafety sampleHash sampleState
        [sampleDeposit 8 2000000000, sampleNewPeriod, sampleRedeem 8 2, sampleRedeem 8 2] := by
  refine ⟨by decide +kernel, payouts_safe_while_last_id_free sample_initialised _ ?_⟩
  refine ⟨fun _ => ?_, fun _ => ?_, fun _ => ?_, fun _ => ?_, trivial⟩
  · decide +kernel
  · decide +kernel
  · decide +kernel
  · decide +kernel

variable {n : Nat}

/-- The sample pool after `n` deposits of 1 gram by 8. -/
structure Deposited (n : Nat) (s : State) : Prop where
  indexed : Indexed s
  config : s.poolConfig = sampleState.poolConfig
  period : s.currentPeriod = 1
  performance : ∃ p, s.performance.get? 1 = some p ∧ p.aum.val = 10000 + n * 1000000000 ∧
    p.deposits.val = n * 1000000000
  ids : ∀ k, (s.subscriptions.get? k).isSome ↔ 1 ≤ k ∧ k ≤ n + 1
  latest : 0 < n → ∃ sub, s.subscriptions.get? (n + 1) = some sub ∧ sub.subscriber = 8
  index : s.subscribers.get? (sampleKey 8) = none ∨
    ∃ id, s.subscribers.get? (sampleKey 8) = some (IndexTrie.single 1 id).root
  other : s.subscribers.get? (sampleKey 9) = none

theorem Deposited.start : Deposited 0 sampleState where
  indexed := tryInit_indexed sample_initialised
  config := rfl
  period := by decide +kernel
  performance := ⟨_, (by decide +kernel : sampleState.performance.get? 1 =
    some ⟨0, 10000, 1, 0, 0⟩), rfl, rfl⟩
  ids k := by
    obtain ⟨first, opened, sub, hash, effect⟩ := tryInit_effects sample_initialised
    rw [effect.subscriptions, get?_set]
    split
    · next one => simp [one]
    · simp
      omega
  latest positive := by omega
  index := .inl (by decide +kernel)
  other := by decide +kernel

section

variable (deposited : Deposited n s)
include deposited

/-- The greatest id found is the last one, except for the id 2^32 - 1 itself. -/
theorem Deposited.greatest (room : n < 2 ^ 32 - 1) :
    ∃ last, s.subscriptions.udictGetPrev? lastIdx = some (min (n + 1) (2 ^ 32 - 2), last) := by
  have present : (s.subscriptions.get? (min (n + 1) (2 ^ 32 - 2))).isSome :=
    (deposited.ids _).mpr ⟨by omega, by omega⟩
  obtain ⟨last, found⟩ := Option.isSome_iff_exists.mp present
  refine ⟨last, Dict.udictGetPrev?_eq ?_ found ?_⟩
  · rw [lastIdx_eq]
    omega
  · intro j above below
    rw [lastIdx_eq] at below
    rw [← Option.not_isSome_iff_eq_none, deposited.ids]
    omega

theorem Deposited.ready (room : n < 2 ^ 32 - 1) (sender : Uint 256)
    (known : sender = 8 ∨ sender = 9) :
    ∃ p, DepositReady sampleHash s (sampleSender sender) 1000000000 0 sender p := by
  obtain ⟨p, period, aum, deposits⟩ := deposited.performance
  have fee : s.poolConfig.transactionFee = 100000000 := by
    rw [deposited.config]
    decide +kernel
  have owner : s.poolConfig.owner = 7 := by
    rw [deposited.config]
    decide +kernel
  refine ⟨p, ?_⟩
  constructor
  case feePaid =>
    rw [fee]
    decide
  case parsed => rfl
  case workchain => decide
  case stranger =>
    rw [owner]
    rcases known with rfl | rfl
    · decide
    · decide
  case greatest =>
    obtain ⟨last, found⟩ := deposited.greatest room
    rw [found]
    rfl
  case period =>
    rw [deposited.period]
    exact period
  case grams =>
    rw [fee]
    decide
  case aum => omega
  case deposits => omega
  case legible =>
    intro hash hashed x found
    rw [sample_hashed] at hashed
    rw [← Except.ok.inj hashed] at found
    rcases known with rfl | rfl
    · rcases deposited.index with absent | ⟨id, single⟩
      · rw [absent] at found
        cases found
      rw [single] at found
      rw [← Option.some.inj found, deposited.period]
      obtain ⟨k, v, search, wide⟩ := IndexTrie.single_found id
      refine ⟨k, v, search, ?_⟩
      rintro rfl
      exact absurd wide (by decide)
    · rw [deposited.other] at found
      cases found

/-- A deposit by either sender stores its subscription under the id after the greatest one. -/
theorem Deposited.deposit (room : n < 2 ^ 32 - 1) (sender : Uint 256)
    (known : sender = 8 ∨ sender = 9) :
    ∃ lastId inner sub current updated,
      DepositEffect sampleHash s (sampleSender sender) 1000000000 0 sender (sampleKey sender) lastId
        inner sub current updated (commit (receive sampleHash) s (sampleDeposit sender 1000000000)).1 ∧
      lastId.val = min (n + 1) (2 ^ 32 - 2) ∧ sub.subscriber = sender := by
  obtain ⟨current, ready⟩ := deposited.ready room sender known
  obtain ⟨hash, lastId, inner, sub, updated, after, success, effect⟩ := ready.effect deposited.indexed
  have received : receive sampleHash s (sampleDeposit sender 1000000000) = .ok (after, []) :=
    (receive_request (sampleDeposit_request sender 1000000000)).trans success
  rw [commit_of_success received]
  have key : hash = sampleKey sender := by
    have hashed := effect.hashed
    rw [sample_hashed] at hashed
    exact (Except.ok.inj hashed).symm
  rw [key] at effect
  obtain ⟨last, search⟩ := deposited.greatest room
  obtain ⟨greatest, found⟩ := effect.greatest
  have same := Option.some.inj (found.symm.trans search)
  have subscriber := effect.subscriber
  exact ⟨lastId, inner, sub, current, updated, effect, congrArg Prod.fst same, Fin.ext (by omega)⟩

theorem Deposited.next (room : n + 1 < 2 ^ 32 - 1) :
    Deposited (n + 1) (commit (receive sampleHash) s (sampleDeposit 8 1000000000)).1 := by
  obtain ⟨lastId, inner, sub, current, updated, effect, latest, subscriber⟩ :=
    deposited.deposit (by omega) 8 (.inl rfl)
  obtain ⟨p, period, aum, deposits⟩ := deposited.performance
  have same := effect.period
  rw [deposited.period] at same
  cases period.symm.trans same
  have newAum := effect.holds.aum
  have newDeposits := effect.holds.deposits
  constructor
  case indexed => exact commit_indexed deposited.indexed _
  case config =>
    rw [effect.state]
    exact deposited.config
  case period =>
    rw [effect.state]
    exact deposited.period
  case performance =>
    refine ⟨updated, ?_, by omega, by omega⟩
    simp [effect.state, deposited.period]
  case ids =>
    intro k
    rw [effect.state, get?_set]
    split
    · simp
      omega
    · rw [deposited.ids]
      omega
  case latest =>
    intro _
    refine ⟨sub, ?_, subscriber⟩
    rw [effect.state, get?_set, if_pos (by omega)]
  case index =>
    refine .inr ⟨lastId, ?_⟩
    rw [effect.state, get?_set, if_pos rfl]
    rcases effect.index with ⟨-, only⟩ | ⟨x, found, inserted⟩
    · rw [only, deposited.period]
    rcases deposited.index with absent | ⟨id, single⟩
    · rw [absent] at found
      cases found
    · have root := Option.some.inj (found.symm.trans single)
      rw [inserted, deposited.period, IndexTrie.insert_root_single root]
  case other =>
    have apart : (sampleKey 9).val ≠ (sampleKey 8).val := by decide +kernel
    rw [effect.state, get?_set, if_neg apart]
    exact deposited.other

end

theorem deposited_run (n : Nat) (room : n < 2 ^ 32 - 1) :
    Deposited n (run (receive sampleHash) sampleState (List.replicate n (sampleDeposit 8 1000000000))) := by
  induction n with
  | zero =>
    rw [List.replicate_zero, run_nil]
    exact Deposited.start
  | succ n ih =>
    rw [List.replicate_succ', run_snoc]
    exact (ih (by omega)).next room

/-- Once the last id is taken by 8, a deposit by 9 is stored over it. -/
theorem overwritten_after (full : n + 1 = 2 ^ 32 - 1) : ¬ PayoutSafety sampleHash sampleState
    (List.replicate n (sampleDeposit 8 1000000000) ++ [sampleDeposit 9 1000000000]) := by
  intro safe
  have deposited := deposited_run n (by omega)
  obtain ⟨old, stored, owner⟩ := deposited.latest (by omega)
  obtain ⟨new, kept, holder⟩ := safe.kept _ [sampleDeposit 9 1000000000] [] (by simp) _ old stored
  obtain ⟨lastId, inner, sub, current, updated, effect, latest, subscriber⟩ :=
    deposited.deposit (by omega) 9 (.inr rfl)
  rw [run_snoc, effect.state, get?_set, if_pos (by omega)] at kept
  have changed := holder.subscriber
  rw [← Option.some.inj kept, subscriber, owner] at changed
  exact absurd changed (by decide +kernel)

theorem last_id_overwritten : ¬ PayoutSafety sampleHash sampleState
    (List.replicate (2 ^ 32 - 2) (sampleDeposit 8 1000000000) ++ [sampleDeposit 9 1000000000]) :=
  overwritten_after (by norm_num)

end Runs

end TonStaking.Guarantees.SubscriptionPayout
