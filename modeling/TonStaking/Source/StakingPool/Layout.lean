import TonStaking.Tvm.Dict
import TonStaking.Tvm.Hashmap
import TonStaking.Tvm.Message

/-!
# Staking pool: stored data

`staking/smartcont/staking-pool-code.fc` 5-128. Records that only the contract
itself writes are typed: a field holds a value of its stored width, and packing
is the range check of the store. Nominator entries come from the init message
and stay raw slices that are decoded at every use. The inner dictionary of a
subscriber is a root cell, because the contract reads it with two key widths.
-/
namespace TonStaking.Source.StakingPool
open Tvm

structure Performance where
  rate : Grams
  aum : Grams
  units : Grams
  deposits : Grams
  withdrawals : Grams
  deriving DecidableEq, Repr

structure Subscription where
  subscriber : Uint 256
  subscriberWc : Sint 8
  grams : Grams
  startPeriod : Uint 16
  endPeriod : Uint 16
  status : Uint 8
  deriving DecidableEq, Repr

structure Nominator where
  status : Uint 8
  balance : Grams
  stake : Grams
  walletId : Uint 32
  deriving DecidableEq, Repr

structure PoolConfig where
  transactionFee : Grams
  minAmount : Grams
  ownerFee : Uint 32
  penaltyFee : Uint 32
  owner : Uint 256
  pendingOwner : Uint 256
  nominators : Dict 256 Slice

/-- Root of a subscriber's dictionary from periods to subscription ids. -/
abbrev Subscriber := Option Cell

structure State where
  currentPeriod : Uint 16
  poolConfig : PoolConfig
  performance : Dict 16 Performance
  subscriptions : Dict 32 Subscription
  subscribers : Dict 256 Subscriber

/-- The records with a new one for the current period. -/
abbrev State.recorded (s : State) (p : Performance) : Dict 16 Performance :=
  s.performance.set s.currentPeriod s.currentPeriod.isLt p

def packPerformance (rate aum units deposits withdrawals : Int) : Outcome Performance := do
  let rate ← storeGrams rate
  let aum ← storeGrams aum
  let units ← storeGrams units
  let deposits ← storeGrams deposits
  let withdrawals ← storeGrams withdrawals
  .ok { rate, aum, units, deposits, withdrawals }

def packSubscription (subscriber subscriberWc grams startPeriod endPeriod status : Int) :
    Outcome Subscription := do
  let subscriber ← storeUint 256 subscriber
  let subscriberWc ← storeInt 8 subscriberWc
  let grams ← storeGrams grams
  let startPeriod ← storeUint 16 startPeriod
  let endPeriod ← storeUint 16 endPeriod
  let status ← storeUint 8 status
  .ok { subscriber, subscriberWc, grams, startPeriod, endPeriod, status }

def loadInt8 (s : Slice) : Outcome (Sint 8 × Slice) := do
  let (raw, rest) ← loadUint 8 s
  if h : raw.val < 128 then .ok (⟨raw.val, by omega⟩, rest)
  else .ok (⟨(raw.val : Int) - 256, by have := raw.isLt; omega⟩, rest)

def unpackSubscription (cs : Slice) : Outcome Subscription := do
  let (subscriber, cs) ← loadUint 256 cs
  let (subscriberWc, cs) ← loadInt8 cs
  let (grams, cs) ← loadGrams cs
  let (startPeriod, cs) ← loadUint 16 cs
  let (endPeriod, cs) ← loadUint 16 cs
  let (status, _) ← loadUint 8 cs
  .ok { subscriber, subscriberWc, grams, startPeriod, endPeriod, status }

/-- The bits `pack_nominator` writes. -/
def Nominator.toSlice (x : Nominator) : Slice :=
  ⟨Uint.bits x.status ++ (gramsBits x.balance ++ (gramsBits x.stake ++ Uint.bits x.walletId)), []⟩

def packNominator (status balance stake walletId : Int) : Outcome Slice := do
  let status ← storeUint 8 status
  let balance ← storeGrams balance
  let stake ← storeGrams stake
  let walletId ← storeUint 32 walletId
  .ok (Nominator.toSlice { status, balance, stake, walletId })

def unpackNominator (cs : Slice) : Outcome Nominator := do
  let (status, cs) ← loadUint 8 cs
  let (balance, cs) ← loadGrams cs
  let (stake, cs) ← loadGrams cs
  let (walletId, _) ← loadUint 32 cs
  .ok { status, balance, stake, walletId }

def packSubscribersEntry (subscriptionId : Int) : Outcome Slice := do
  let id ← storeUint 32 subscriptionId
  .ok ⟨Uint.bits id, []⟩

def unpackSubscribersEntry (cs : Slice) : Outcome (Uint 32) := do
  let (id, _) ← loadUint 32 cs
  .ok id

/-- `send_message`; a negative body is not stored. -/
def sendMessage (addr : MsgAddress) (op queryId body grams : Int) (mode : Nat) : Outcome OutMsg := do
  let value ← storeGrams grams
  let op ← storeUint 32 op
  let queryId ← storeUint 64 queryId
  let header := Uint.bits op ++ Uint.bits queryId
  if 0 ≤ body then do
    let body ← storeUint 32 body
    .ok { dest := addr, value, body := ⟨header ++ Uint.bits body, []⟩, mode }
  else .ok { dest := addr, value, body := ⟨header, []⟩, mode }

@[simp] theorem unpackNominator_toSlice (x : Nominator) : unpackNominator x.toSlice = .ok x := by
  simp [unpackNominator, Nominator.toSlice]

theorem packNominator_success {status balance stake walletId : Int} {cs : Slice}
    (h : packNominator status balance stake walletId = .ok cs) :
    ∃ x : Nominator, cs = x.toSlice ∧ (x.status : Int) = status ∧ (x.balance : Int) = balance ∧
      (x.stake : Int) = stake ∧ (x.walletId : Int) = walletId := by
  obtain ⟨a, ha, h⟩ := of_bind h
  obtain ⟨b, hb, h⟩ := of_bind h
  obtain ⟨c, hc, h⟩ := of_bind h
  obtain ⟨d, hd, h⟩ := of_bind h
  exact ⟨⟨a, b, c, d⟩, (Except.ok.inj h).symm, storeUint_success ha, storeGrams_success hb,
    storeGrams_success hc, storeUint_success hd⟩

/-- The record holds these numbers. -/
structure Performance.Holds (p : Performance) (rate aum units deposits withdrawals : Int) : Prop where
  rate : (p.rate : Int) = rate
  aum : (p.aum : Int) = aum
  units : (p.units : Int) = units
  deposits : (p.deposits : Int) = deposits
  withdrawals : (p.withdrawals : Int) = withdrawals

theorem packPerformance_success {rate aum units deposits withdrawals : Int} {p : Performance}
    (h : packPerformance rate aum units deposits withdrawals = .ok p) :
    p.Holds rate aum units deposits withdrawals := by
  obtain ⟨a, ha, h⟩ := of_bind h
  obtain ⟨b, hb, h⟩ := of_bind h
  obtain ⟨c, hc, h⟩ := of_bind h
  obtain ⟨d, hd, h⟩ := of_bind h
  obtain ⟨e, he, h⟩ := of_bind h
  cases h
  exact ⟨storeGrams_success ha, storeGrams_success hb, storeGrams_success hc,
    storeGrams_success hd, storeGrams_success he⟩

theorem packSubscription_success {subscriber subscriberWc grams startPeriod endPeriod status : Int}
    {x : Subscription}
    (h : packSubscription subscriber subscriberWc grams startPeriod endPeriod status = .ok x) :
    (x.subscriber : Int) = subscriber ∧ x.subscriberWc.val = subscriberWc ∧
      (x.grams : Int) = grams ∧ (x.startPeriod : Int) = startPeriod ∧
      (x.endPeriod : Int) = endPeriod ∧ (x.status : Int) = status := by
  obtain ⟨a, ha, h⟩ := of_bind h
  obtain ⟨b, hb, h⟩ := of_bind h
  obtain ⟨c, hc, h⟩ := of_bind h
  obtain ⟨d, hd, h⟩ := of_bind h
  obtain ⟨e, he, h⟩ := of_bind h
  obtain ⟨f, hf, h⟩ := of_bind h
  cases h
  exact ⟨storeUint_success ha, storeInt_success hb, storeGrams_success hc,
    storeUint_success hd, storeUint_success he, storeUint_success hf⟩

section Exceptions

variable {allowed : Exc → Prop} (range : allowed .rangeChk)

include range

theorem packPerformance_errorsIn (rate aum units deposits withdrawals : Int) :
    ErrorsIn allowed (packPerformance rate aum units deposits withdrawals) := by
  repeat refine (storeUint_errorsIn range _ _).bind fun _ _ => ?_
  exact errorsIn_ok _

theorem packSubscription_errorsIn (subscriber subscriberWc grams startPeriod endPeriod status : Int) :
    ErrorsIn allowed
      (packSubscription subscriber subscriberWc grams startPeriod endPeriod status) := by
  refine (storeUint_errorsIn range _ _).bind fun _ _ => ?_
  refine (storeInt_errorsIn range _ _).bind fun _ _ => ?_
  repeat refine (storeUint_errorsIn range _ _).bind fun _ _ => ?_
  exact errorsIn_ok _

theorem sendMessage_errorsIn (addr : MsgAddress) (op queryId body grams : Int) (mode : Nat) :
    ErrorsIn allowed (sendMessage addr op queryId body grams mode) := by
  repeat refine (storeUint_errorsIn range _ _).bind fun _ _ => ?_
  split
  · refine (storeUint_errorsIn range _ _).bind fun _ _ => ?_
    exact errorsIn_ok _
  · exact errorsIn_ok _

end Exceptions

end TonStaking.Source.StakingPool
