import TonStaking.Source.StakingPool.Run

/-!
# Staking pool: effects of the handlers

For every handler, what a successful call has checked and which records it has
written. Later results use these lemmas and do not open the handlers again.
-/
namespace TonStaking.Source.StakingPool
open Tvm Dict

section Redeem

variable {s after : State} {sAddr : MsgAddress} {msgValue queryId : Int} {sub : Subscription} {current : Performance}
  {out : List OutMsg} {r : Redemption}

/-- A redemption in the period of the subscription (lines 151-159). -/
structure CurrentRedeem (s : State) (sAddr : MsgAddress) (sub written : Subscription)
    (current updated : Performance) (out : List OutMsg) : Prop where
  samePeriod : sub.startPeriod = s.currentPeriod
  status : written.status.val = 0
  holds : updated.Holds current.rate (current.aum - sub.grams) current.units (current.deposits - sub.grams)
    current.withdrawals
  sent : ∃ back fine, out = [back, fine] ∧ back.dest = sAddr ∧
    fine.dest = .tag6 ⟨0, by decide⟩ s.poolConfig.owner ∧
    (back.value : Int) + fine.value = sub.grams ∧
    (fine.value : Int) = ((sub.grams : Int) * s.poolConfig.penaltyFee).fdiv 10000

/-- A redemption of an earlier subscription with its reward (lines 160-173). -/
structure EarlierRedeem (s : State) (sAddr : MsgAddress) (sub written : Subscription)
    (current updated : Performance) (start last : Performance) (out : List OutMsg) : Prop where
  otherPeriod : sub.startPeriod ≠ s.currentPeriod
  startPeriod : s.performance.get? sub.startPeriod = some start
  lastPeriod : s.performance.udictGet? (s.currentPeriod - 1) = some last
  status : written.status.val = 2
  holds : updated.Holds current.rate (current.aum - ((last.rate : Int) * sub.grams).fdiv start.rate) current.units
    current.deposits (current.withdrawals + (sub.grams : Int).fdiv start.rate)
  sent : ∃ back, out = [back] ∧ back.dest = sAddr ∧
    (back.value : Int) = ((last.rate : Int) * sub.grams).fdiv start.rate

structure RedeemEffect (s : State) (sAddr : MsgAddress) (id : Nat)
    (sub written : Subscription) (current updated : Performance) (after : State)
    (out : List OutMsg) : Prop where
  found : s.subscriptions.get? id = some sub
  active : sub.status.val = 1
  owned : parseStdAddr sAddr = .ok (sub.subscriberWc.val, (sub.subscriber : Int))
  period : s.performance.get? s.currentPeriod = some current
  subscriber : written.subscriber = sub.subscriber
  workchain : written.subscriberWc = sub.subscriberWc
  start : written.startPeriod = sub.startPeriod
  state : after = { s with
    performance := s.recorded updated
    subscriptions := s.subscriptions.set id (Dict.lt_of_get? found) written }
  branch : CurrentRedeem s sAddr sub written current updated out ∨
    ∃ start last, EarlierRedeem s sAddr sub written current updated start last out

theorem RedeemEffect.settled {id : Nat} {written : Subscription} {updated : Performance}
    (effect : RedeemEffect s sAddr id sub written current updated after out) :
    written.status.val ≠ 1 := by
  rcases effect.branch with now | ⟨start, last, earlier⟩
  · rw [now.status]
    decide
  · rw [earlier.status]
    decide

theorem RedeemEffect.rate {id : Nat} {written : Subscription} {updated : Performance}
    (effect : RedeemEffect s sAddr id sub written current updated after out) :
    (updated.rate : Int) = current.rate := by
  rcases effect.branch with now | ⟨start, last, earlier⟩
  · exact now.holds.rate
  · exact earlier.holds.rate

theorem sendMessage_success {addr : MsgAddress} {op body grams : Int} {mode : Nat} {m : OutMsg}
    (h : sendMessage addr op queryId body grams mode = .ok m) :
    m.dest = addr ∧ (m.value : Int) = grams := by
  obtain ⟨value, stored, h⟩ := of_bind h
  obtain ⟨op, -, h⟩ := of_bind h
  obtain ⟨queryId, -, h⟩ := of_bind h
  have value_eq := storeGrams_success stored
  split at h
  · obtain ⟨body, -, h⟩ := of_bind h
    cases h
    exact ⟨rfl, value_eq⟩
  · cases h
    exact ⟨rfl, value_eq⟩

theorem getAddressSlice_owner (owner : Uint 256) :
    getAddressSlice 0 (owner : Int) = .ok (.tag6 ⟨0, by decide⟩ owner) :=
  getAddressSlice_val ⟨0, by decide⟩ owner

variable {written : Subscription} {updated : Performance}

private theorem redeemCurrent_effect (samePeriod : sub.startPeriod = s.currentPeriod)
    (h : redeemCurrent s sAddr queryId sub current = .ok r) (status : (written.status : Int) = r.status)
    (holds : updated.Holds current.rate r.aum current.units r.deposits r.withdrawals) :
    CurrentRedeem s sAddr sub written current updated r.sent := by
  obtain ⟨-, -, h⟩ := of_bind h
  obtain ⟨scaled, product, h⟩ := of_bind h
  obtain ⟨penalty, quotient, h⟩ := of_bind h
  obtain ⟨back, sentBack, h⟩ := of_bind h
  obtain ⟨owner, address, h⟩ := of_bind h
  obtain ⟨fine, sentFine, h⟩ := of_bind h
  cases h
  obtain ⟨backDest, backValue⟩ := sendMessage_success sentBack
  obtain ⟨fineDest, fineValue⟩ := sendMessage_success sentFine
  rw [getAddressSlice_owner] at address
  cases address
  rw [mulInt_success product] at quotient
  exact ⟨samePeriod, Int.natCast_eq_zero.mp status, holds, back, fine, rfl, backDest, fineDest, by omega,
    fineValue.trans (divInt_success quotient).2⟩

private theorem redeemEarlier_effect (otherPeriod : sub.startPeriod ≠ s.currentPeriod)
    (h : redeemEarlier s sAddr queryId sub current = .ok r) (status : (written.status : Int) = r.status)
    (holds : updated.Holds current.rate r.aum current.units r.deposits r.withdrawals) :
    ∃ start last, EarlierRedeem s sAddr sub written current updated start last r.sent := by
  obtain ⟨start, foundStart, h⟩ := of_bind h
  obtain ⟨last, foundLast, h⟩ := of_bind h
  obtain ⟨units, divided, h⟩ := of_bind h
  obtain ⟨-, -, h⟩ := of_bind h
  obtain ⟨scaled, product, h⟩ := of_bind h
  obtain ⟨amount, quotient, h⟩ := of_bind h
  obtain ⟨back, sent, h⟩ := of_bind h
  cases h
  rw [orThrow_success, udictGet?_natCast] at foundStart
  rw [orThrow_success] at foundLast
  rw [mulInt_success product] at quotient
  obtain ⟨-, rfl⟩ := divInt_success divided
  obtain ⟨-, rfl⟩ := divInt_success quotient
  obtain ⟨dest, value⟩ := sendMessage_success sent
  exact ⟨start, last, otherPeriod, foundStart, foundLast, Int.ofNat_inj.mp status, holds, back, rfl, dest, value⟩

theorem processRedeem_effects {subscriptionId : Int}
    (h : processRedeem s sAddr queryId msgValue subscriptionId = .ok (after, out)) :
    ∃ id sub written current updated, subscriptionId = (id : Nat) ∧
      RedeemEffect s sAddr id sub written current updated after out := by
  obtain ⟨⟨srcWc, srcAddr⟩, parsed, h⟩ := of_bind h
  obtain ⟨sub, found, h⟩ := of_bind h
  obtain ⟨_, active, h⟩ := of_bind h
  obtain ⟨_, owned, h⟩ := of_bind h
  obtain ⟨current, period, h⟩ := of_bind h
  obtain ⟨_, -, h⟩ := of_bind h
  obtain ⟨r, redeemed, h⟩ := of_bind h
  obtain ⟨written, packed, h⟩ := of_bind h
  obtain ⟨subscriptions, stored, h⟩ := of_bind h
  obtain ⟨updated, packedPerformance, h⟩ := of_bind h
  obtain ⟨performance, storedPerformance, h⟩ := of_bind h
  cases h
  simp only [throwUnless_success] at active owned
  rw [orThrow_success] at found
  rw [orThrow_success, udictGet?_natCast] at period
  obtain ⟨nonneg, found⟩ := Dict.udictGet?_some found
  obtain ⟨fits, rfl⟩ := udictSet_success stored
  rw [udictSet_natCast _ _ s.currentPeriod.isLt] at storedPerformance
  cases storedPerformance
  obtain ⟨subscriber, workchain, -, startPeriod, -, status⟩ := packSubscription_success packed
  have holds := packPerformance_success packedPerformance
  refine ⟨subscriptionId.toNat, sub, written, current, updated,
    (Int.toNat_of_nonneg nonneg).symm, ?_⟩
  refine
    { found, active, period
      owned := by rw [parsed, owned.1, owned.2]
      subscriber := Fin.ext (by omega)
      workchain := Subtype.ext workchain
      start := Fin.ext (by omega)
      state := rfl
      branch := ?_ }
  unfold redeem at redeemed
  split at redeemed
  · next same => exact .inl (redeemCurrent_effect same redeemed status holds)
  · next different => exact .inr (redeemEarlier_effect different redeemed status holds)

end Redeem

section Subscribe

variable {cellHash : Cell → Uint 256}

/-- A deposit always opens a new subscription under the next id and notes the
id before it in the sender's index. -/
structure DepositEffect (cellHash : Cell → Uint 256) (s : State) (sAddr : MsgAddress)
    (msgValue srcWc srcAddr : Int) (hash : Uint 256) (lastId : Uint 32) (inner : IndexTrie)
    (sub : Subscription) (current updated : Performance) (after : State) : Prop where
  parsed : parseStdAddr sAddr = .ok (srcWc, srcAddr)
  hashed : subscriberHash cellHash srcWc srcAddr = .ok hash
  stranger : ¬ (srcWc = 0 ∧ srcAddr = s.poolConfig.owner)
  greatest : ∃ last, s.subscriptions.udictGetPrev? lastIdx = some (lastId.val, last)
  period : s.performance.get? s.currentPeriod = some current
  subscriber : (sub.subscriber : Int) = srcAddr
  workchain : sub.subscriberWc.val = srcWc
  grams : (sub.grams : Int) = msgValue - s.poolConfig.transactionFee
  start : sub.startPeriod = s.currentPeriod
  status : sub.status.val = 1
  holds : updated.Holds current.rate (current.aum + msgValue) current.units (current.deposits + msgValue)
    current.withdrawals
  index : (s.subscribers.get? hash = none ∧ inner = .single s.currentPeriod lastId) ∨
    ∃ x, s.subscribers.get? hash = some (IndexTrie.root x) ∧ inner = x.insert s.currentPeriod lastId
  fits : lastId.val + 1 < 2 ^ 32
  state : after = { s with
    performance := s.recorded updated
    subscriptions := s.subscriptions.set (lastId.val + 1) fits sub
    subscribers := s.subscribers.set hash.val hash.isLt inner.root }

theorem processNewSubscription_effects {s after : State} (indexed : Indexed s) {sAddr : MsgAddress}
    {msgValue : Int} {out : List OutMsg}
    (h : processNewSubscription cellHash s sAddr msgValue = .ok (after, out)) :
    out = [] ∧ (after = s ∧ parseStdAddr sAddr = .ok (0, (s.poolConfig.owner : Int)) ∨
      ∃ srcWc srcAddr hash lastId inner sub current updated, DepositEffect cellHash s sAddr
        msgValue srcWc srcAddr hash lastId inner sub current updated after) := by
  obtain ⟨_, -, h⟩ := of_bind h
  obtain ⟨⟨srcWc, srcAddr⟩, parsed, h⟩ := of_bind h
  obtain ⟨hash, hashed, h⟩ := of_bind h
  split at h
  · next owner =>
    simp only [Except.ok.injEq, Prod.mk.injEq] at h
    rw [owner.1, owner.2] at parsed
    exact ⟨h.2.symm, .inl ⟨h.1.symm, parsed⟩⟩
  rename_i stranger
  obtain ⟨⟨subscriber, subscriptions⟩, found, h⟩ := of_bind h
  obtain ⟨rfl, rfl⟩ := findSubscriber_success indexed found
  obtain ⟨lastId, greatest, h⟩ := of_bind h
  obtain ⟨entry, packedEntry, h⟩ := of_bind h
  obtain ⟨inner, storedInner, h⟩ := of_bind h
  obtain ⟨sub, packed, h⟩ := of_bind h
  obtain ⟨subscriptions, stored, h⟩ := of_bind h
  obtain ⟨current, period, h⟩ := of_bind h
  obtain ⟨updated, packedPerformance, h⟩ := of_bind h
  obtain ⟨performance, storedPerformance, h⟩ := of_bind h
  cases h
  rw [orNull_success] at greatest
  obtain ⟨⟨lastKey, last⟩, search, rfl⟩ := Option.map_eq_some_iff.mp greatest
  rw [orNull_success, udictGet?_natCast] at period
  rw [udictSet_natCast _ _ s.currentPeriod.isLt] at storedPerformance
  cases storedPerformance
  obtain ⟨lastId, lastId_eq, rfl⟩ := packSubscribersEntry_success packedEntry
  have lastKey_eq : lastKey = lastId.val := by
    omega
  subst lastKey_eq
  obtain ⟨fits, rfl⟩ := udictSet_success stored
  obtain ⟨subscriber, workchain, grams, startPeriod, -, status⟩ := packSubscription_success packed
  have index : ∃ x, inner = IndexTrie.root x ∧
      ((s.subscribers.get? hash = none ∧ x = .single s.currentPeriod lastId) ∨
      ∃ y, s.subscribers.get? hash = some (IndexTrie.root y) ∧ x = y.insert s.currentPeriod lastId) := by
    cases known : s.subscribers.get? hash with
    | none =>
      rw [known, Option.getD_none, IndexTrie.udictSet_absent] at storedInner
      exact ⟨_, (Except.ok.inj storedInner).symm, .inl ⟨rfl, rfl⟩⟩
    | some old =>
      obtain ⟨y, rfl⟩ := indexed _ _ known
      rw [known, Option.getD_some, IndexTrie.udictSet_root] at storedInner
      exact ⟨_, (Except.ok.inj storedInner).symm, .inr ⟨y, rfl, rfl⟩⟩
  obtain ⟨x, rfl, index⟩ := index
  refine ⟨rfl, .inr ⟨srcWc, srcAddr, hash, lastId, x, sub, current, updated, ?_⟩⟩
  exact
    { parsed, hashed, stranger, period, subscriber, workchain, grams, index
      greatest := ⟨last, search⟩
      start := Fin.ext (by omega)
      status := by omega
      holds := packPerformance_success packedPerformance
      fits := by simpa using fits
      state := by simp only [Int.toNat_natCast_add_one] }

end Subscribe

/-- The incentive fee as a new subscription of the owner in the closing period. -/
structure ShareEffect (s : State) (share : Int) (lastId : Nat) (sub : Subscription)
    (subscriptions : Dict 32 Subscription) : Prop where
  greatest : ∃ last, s.subscriptions.udictGetPrev? lastIdx = some (lastId, last)
  workchain : sub.subscriberWc.val = 0
  grams : (sub.grams : Int) = share
  start : sub.startPeriod = s.currentPeriod
  status : sub.status.val = 1
  stored : ∃ fits : lastId + 1 < 2 ^ 32, subscriptions = s.subscriptions.set (lastId + 1) fits sub

structure NewPeriodEffect (s : State) (sAddr : MsgAddress) (current previous closed opened : Performance)
    (next : Uint 16) (after : State) : Prop where
  owner : parseStdAddr sAddr = .ok (0, (s.poolConfig.owner : Int))
  period : s.performance.get? s.currentPeriod = some current
  before : ∃ key, s.performance.udictGetPrev? s.currentPeriod = some (key, previous)
  divisor : (current.units : Int) - current.withdrawals ≠ 0
  closes : closed.Holds (((current.aum : Int) - current.deposits).fdiv (current.units - current.withdrawals))
    current.aum current.units current.deposits current.withdrawals
  ratePos : 1 ≤ closed.rate.val
  opens : opened.Holds 0 current.aum ((current.aum : Int).fdiv closed.rate) 0 0
  advanced : next.val = s.currentPeriod.val + 1
  subscribers : after.subscribers = s.subscribers
  poolConfig : after.poolConfig = s.poolConfig
  currentPeriod : after.currentPeriod = next
  performance : after.performance =
    (s.recorded closed).set next next.isLt opened
  subscriptions :
    (((current.units : Int) - current.withdrawals) * closed.rate ≤
        (current.units - current.withdrawals) * previous.rate ∧
      after.subscriptions = s.subscriptions) ∨
    ((current.units - current.withdrawals : Int) * previous.rate <
        (current.units - current.withdrawals) * closed.rate ∧
      ∃ lastId sub, ShareEffect s
        ((((current.units - current.withdrawals : Int) * closed.rate -
          (current.units - current.withdrawals) * previous.rate) * s.poolConfig.ownerFee).fdiv 10000)
        lastId sub after.subscriptions)

private theorem issueOwnersShare_success {s : State} {managedUnits newRate prevRate : Int}
    {subscriptions : Dict 32 Subscription}
    (h : issueOwnersShare s 0 s.poolConfig.owner managedUnits newRate prevRate = .ok subscriptions) :
    (managedUnits * newRate ≤ managedUnits * prevRate ∧ subscriptions = s.subscriptions) ∨
    (managedUnits * prevRate < managedUnits * newRate ∧ ∃ lastId sub, ShareEffect s
      (((managedUnits * newRate - managedUnits * prevRate) * s.poolConfig.ownerFee).fdiv 10000)
      lastId sub subscriptions) := by
  obtain ⟨gross, grossProduct, h⟩ := of_bind h
  obtain ⟨base, baseProduct, h⟩ := of_bind h
  rw [mulInt_success grossProduct, mulInt_success baseProduct] at h
  split at h
  · next profit =>
    obtain ⟨scaled, product, h⟩ := of_bind h
    obtain ⟨share, quotient, h⟩ := of_bind h
    obtain ⟨lastId, greatest, h⟩ := of_bind h
    obtain ⟨sub, packed, stored⟩ := of_bind h
    rw [orNull_success] at greatest
    obtain ⟨⟨lastId, last⟩, search, rfl⟩ := Option.map_eq_some_iff.mp greatest
    rw [mulInt_success product] at quotient
    have share_eq := (divInt_success quotient).2
    obtain ⟨-, workchain, grams, startPeriod, -, status⟩ := packSubscription_success packed
    obtain ⟨fits, stored⟩ := udictSet_success stored
    refine .inr ⟨profit, lastId, sub, ?_⟩
    exact
      { greatest := ⟨last, search⟩
        workchain := workchain
        grams := by rw [grams, share_eq]
        start := Fin.ext (by omega)
        status := by omega
        stored := ⟨fits, stored⟩ }
  · next noProfit =>
    exact .inl ⟨not_lt.mp noProfit, (Except.ok.inj h).symm⟩

theorem processNewPeriod_effects {s after : State} {sAddr : MsgAddress} {msgValue : Int}
    {out : List OutMsg} (h : processNewPeriod s sAddr msgValue = .ok (after, out)) :
    out = [] ∧ ∃ current previous closed opened next,
      NewPeriodEffect s sAddr current previous closed opened next after := by
  obtain ⟨⟨srcWc, srcAddr⟩, parsed, h⟩ := of_bind h
  obtain ⟨_, -, h⟩ := of_bind h
  obtain ⟨current, period, h⟩ := of_bind h
  obtain ⟨⟨key, previous⟩, before, h⟩ := of_bind h
  obtain ⟨_, owner, h⟩ := of_bind h
  obtain ⟨newRate, divided, h⟩ := of_bind h
  obtain ⟨newUnits, unitsDivided, h⟩ := of_bind h
  obtain ⟨subscriptions, issued, h⟩ := of_bind h
  obtain ⟨closed, packedClosed, h⟩ := of_bind h
  obtain ⟨performance, storedClosed, h⟩ := of_bind h
  obtain ⟨opened, packedOpened, h⟩ := of_bind h
  obtain ⟨performance, storedOpened, h⟩ := of_bind h
  obtain ⟨next, advanced, h⟩ := of_bind h
  cases h
  obtain ⟨rfl, rfl⟩ := throwUnless_success.mp owner
  rw [orThrow_success, udictGet?_natCast] at period
  rw [orThrow_success] at before
  obtain ⟨divisor, rate_eq⟩ := divInt_success divided
  obtain ⟨rateNonzero, units_eq⟩ := divInt_success unitsDivided
  rw [udictSet_natCast _ _ s.currentPeriod.isLt] at storedClosed
  cases storedClosed
  have closes := packPerformance_success packedClosed
  have opens := packPerformance_success packedOpened
  have next_eq := storeUint_success advanced
  rw [← next_eq, udictSet_natCast _ _ next.isLt] at storedOpened
  cases storedOpened
  rw [← closes.rate] at issued units_eq rateNonzero
  rw [rate_eq] at closes
  rw [units_eq] at opens
  refine ⟨rfl, current, previous, closed, opened, next, ?_⟩
  exact
    { owner := parsed
      period, divisor, closes, opens
      before := ⟨key, before⟩
      ratePos := by omega
      advanced := by omega
      subscribers := rfl
      poolConfig := rfl
      currentPeriod := rfl
      performance := rfl
      subscriptions := issueOwnersShare_success issued }

end TonStaking.Source.StakingPool
