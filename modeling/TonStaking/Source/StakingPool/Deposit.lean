import TonStaking.Source.StakingPool.RequestEffect

/-!
# Staking pool: when a deposit goes through

The exceptions of `process_new_subscription` come from the workchain of the
sender, from amounts that leave their fields and from reading the sender's
index with the wrong key width. An index of period 1 alone is read without an
exception, and the 32-bit key found there is no period.
-/
namespace TonStaking.Source.StakingPool
open Tvm Hashmap

theorem lastIdx_eq : lastIdx = 2 ^ 32 - 1 := by decide

namespace IndexTrie

/-- An index of period 1 alone is also a leaf with 32-bit keys. The five bits that give the length 16 and the clear
bit behind them give the length 32, and the front of the id ends the key. -/
theorem single_wide (id : Uint 32) {front back : List Bool} (bits : Uint.bits id = front ++ back)
    (len : front.length = 17) :
    (single 1 id).root = some ((Trie.leaf (false :: (bitsOf 14 1 ++ front)) ⟨back, []⟩).toCell 32) := by
  have wide : bitLen 32 = 6 := by decide
  have count : (bitsOf 14 1 ++ front).length + 1 = 32 := by simp [len]
  have mixed : (bitsOf 14 1 ++ front).all (· == false) = false := by
    rw [List.all_append]
    rfl
  have label : appendLabel (false :: (bitsOf 14 1 ++ front)) 32 =
      [true, false] ++ bitsOf 6 32 ++ false :: (bitsOf 14 1 ++ front) := by
    rw [appendLabel_cons, mixed, if_neg (by decide), if_pos (by omega), count, wide]
  have narrow : appendLabel (Uint.bits (1 : Uint 16)) 16 = [true, false] ++ bitsOf 6 32 ++ false :: bitsOf 14 1 := by
    decide
  rw [single_root, Trie.toCell, Trie.toCell, narrow, label, indexEntry, bits]
  simp only [List.append_assoc, List.cons_append]

/-- The period found in such an index lies above all 16-bit numbers. -/
theorem single_found (id : Uint 32) :
    ∃ k v, Hashmap.udictGetPrev? 32 (single 1 id).root lastIdx = .ok (some (k, v)) ∧ 2 ^ 17 ≤ k := by
  have bits := (List.take_append_drop 17 (Uint.bits id)).symm
  have len : ((Uint.bits id).take 17).length = 17 := by simp
  generalize (Uint.bits id).take 17 = front, (Uint.bits id).drop 17 = back at bits len
  have read := readNode_leaf (false :: (bitsOf 14 1 ++ front)) ⟨back, []⟩
  have count : (false :: (bitsOf 14 1 ++ front)).length = 32 := by simp [len]
  rw [count] at read
  have stored : storeUint 32 lastIdx = .ok ⟨2 ^ 32 - 1, by decide⟩ := by decide
  have ones : Uint.bits (⟨2 ^ 32 - 1, by decide⟩ : Uint 32) = [] ++ (!false) :: List.replicate 31 true := by decide
  have key : ([] ++ (!false) :: List.replicate 31 true).length = 32 := by decide
  refine ⟨natOf (false :: (bitsOf 14 1 ++ front)), ⟨back, []⟩, ?_, ?_⟩
  · rw [single_wide id bits len]
    simp only [udictGetPrev?, udictGetNear, stored, ones]
    rw [dictLookupNearest_diverge (by rw [key]; exact read), if_neg (by decide)]
    rw [dictLookupMinmax, key, read]
    simp [count]
  · have one : natOf (bitsOf 14 1) = 1 := by decide
    rw [natOf, natOf_append, one, len]
    omega
end IndexTrie

section Success

variable {cellHash : Cell → Uint 256}

theorem subscriberHash_ok (cellHash : Cell → Uint 256) {srcWc srcAddr : Int} (wc : 0 ≤ srcWc ∧ srcWc < 2 ^ 8)
    (addr : 0 ≤ srcAddr ∧ srcAddr < 2 ^ 256) :
    ∃ hash, subscriberHash cellHash srcWc srcAddr = .ok hash := by
  obtain ⟨w, stored, -⟩ := storeUint_of_fits wc.1 wc.2
  obtain ⟨a, storedAddr, -⟩ := storeUint_of_fits addr.1 addr.2
  simp only [subscriberHash, stored, storedAddr]
  exact ⟨_, rfl⟩

theorem packPerformance_fits {rate aum units deposits withdrawals : Int}
    (fits : (0 ≤ rate ∧ rate < 2 ^ 120) ∧ (0 ≤ aum ∧ aum < 2 ^ 120) ∧ (0 ≤ units ∧ units < 2 ^ 120) ∧
      (0 ≤ deposits ∧ deposits < 2 ^ 120) ∧ 0 ≤ withdrawals ∧ withdrawals < 2 ^ 120) :
    ∃ p, packPerformance rate aum units deposits withdrawals = .ok p := by
  obtain ⟨⟨r0, r1⟩, ⟨a0, a1⟩, ⟨u0, u1⟩, ⟨d0, d1⟩, ⟨w0, w1⟩⟩ := fits
  obtain ⟨r, hr, -⟩ := storeUint_of_fits r0 r1
  obtain ⟨a, ha, -⟩ := storeUint_of_fits a0 a1
  obtain ⟨u, hu, -⟩ := storeUint_of_fits u0 u1
  obtain ⟨d, hd, -⟩ := storeUint_of_fits d0 d1
  obtain ⟨w, hw, -⟩ := storeUint_of_fits w0 w1
  simp only [packPerformance, storeGrams, hr, ha, hu, hd, hw]
  exact ⟨_, rfl⟩

/-- What a deposit needs of the state and of the message. -/
structure DepositReady (cellHash : Cell → Uint 256) (s : State) (sAddr : MsgAddress)
    (msgValue srcWc srcAddr : Int) (current : Performance) : Prop where
  feePaid : (s.poolConfig.transactionFee : Int) ≤ msgValue
  parsed : parseStdAddr sAddr = .ok (srcWc, srcAddr)
  workchain : 0 ≤ srcWc ∧ srcWc < 2 ^ 7
  stranger : ¬ (srcWc = 0 ∧ srcAddr = s.poolConfig.owner)
  greatest : (s.subscriptions.udictGetPrev? lastIdx).isSome
  period : s.performance.get? s.currentPeriod = some current
  grams : msgValue - s.poolConfig.transactionFee < 2 ^ 120
  aum : (current.aum : Int) + msgValue < 2 ^ 120
  deposits : (current.deposits : Int) + msgValue < 2 ^ 120
  legible : ∀ hash, subscriberHash cellHash srcWc srcAddr = .ok hash → Legible s hash

/-- Storing an id in the sender's index, known or new, never fails. -/
theorem Indexed.udictSet_ok {s : State} (indexed : Indexed s) (hash : Uint 256) (id : Uint 32) :
    ∃ inner, Hashmap.udictSet 16 ((s.subscribers.get? hash).getD none) s.currentPeriod
      (indexEntry id) = .ok inner := by
  cases known : s.subscribers.get? hash with
  | none => exact ⟨_, IndexTrie.udictSet_absent _ _⟩
  | some subscriber =>
    obtain ⟨x, rfl⟩ := indexed _ _ known
    exact ⟨_, IndexTrie.udictSet_root _ _ _⟩

namespace DepositReady

variable {s : State} {sAddr : MsgAddress} {msgValue srcWc srcAddr : Int} {current : Performance}

variable (ready : DepositReady cellHash s sAddr msgValue srcWc srcAddr current)

include ready

theorem packs_subscription :
    ∃ sub, packSubscription srcAddr srcWc (msgValue - s.poolConfig.transactionFee) s.currentPeriod
      0 1 = .ok sub := by
  obtain ⟨low, high⟩ := parseStdAddr_range ready.parsed
  obtain ⟨wcLow, wcHigh⟩ := ready.workchain
  have feePaid := ready.feePaid
  obtain ⟨a, ha, -⟩ := storeUint_of_fits low high
  have hw : storeInt 8 srcWc = .ok ⟨srcWc, by omega, by omega⟩ := dif_pos ⟨by omega, by omega⟩
  obtain ⟨g, hg, -⟩ := storeUint_of_fits (show 0 ≤ msgValue - s.poolConfig.transactionFee by omega)
    ready.grams
  simp only [packSubscription, storeGrams, ha, hw, hg, storeUint_val]
  exact ⟨_, rfl⟩

theorem packs_performance :
    ∃ updated, packPerformance current.rate (current.aum + msgValue) current.units
      (current.deposits + msgValue) current.withdrawals = .ok updated := by
  have feePaid := ready.feePaid
  have aum := ready.aum
  have deposits := ready.deposits
  exact packPerformance_fits (by omega)

theorem succeeds (indexed : Indexed s) :
    ∃ after, processNewSubscription cellHash s sAddr msgValue = .ok (after, []) := by
  obtain ⟨wcLow, wcHigh⟩ := ready.workchain
  obtain ⟨hash, hashed⟩ : ∃ hash, subscriberHash cellHash srcWc srcAddr = .ok hash :=
    subscriberHash_ok cellHash ⟨wcLow, by omega⟩ (parseStdAddr_range ready.parsed)
  obtain ⟨⟨lastId, last⟩, search⟩ := Option.isSome_iff_exists.mp ready.greatest
  obtain ⟨lastBound, lastFound, -⟩ := Dict.udictGetPrev?_some search
  have lastFits := Dict.lt_of_get? lastFound
  have nextFits : lastId + 1 < 2 ^ 32 := by
    rw [lastIdx_eq] at lastBound
    omega
  have next : (lastId : Int) + 1 = ((lastId + 1 : Nat) : Int) := by omega
  have entry : packSubscribersEntry (lastId : Int) = .ok (indexEntry ⟨lastId, lastFits⟩) :=
    packSubscribersEntry_val ⟨lastId, lastFits⟩
  obtain ⟨inner, storedInner⟩ := indexed.udictSet_ok hash ⟨lastId, lastFits⟩
  obtain ⟨sub, packed⟩ := ready.packs_subscription
  obtain ⟨updated, packedPerformance⟩ := ready.packs_performance
  have reached : findSubscriber s hash srcWc srcAddr (msgValue - s.poolConfig.transactionFee) =
      .ok ((s.subscribers.get? hash).getD none, s.subscriptions) :=
    findSubscriber_legible indexed (ready.legible hash hashed) _ _ _
  refine ⟨{ s with
    performance := s.recorded updated
    subscriptions := s.subscriptions.set (lastId + 1) nextFits sub
    subscribers := s.subscribers.set hash.val hash.isLt inner }, ?_⟩
  refine bind_success.mpr ⟨(), throwUnless_success.mpr ready.feePaid, ?_⟩
  refine bind_success.mpr ⟨_, ready.parsed, bind_success.mpr ⟨_, hashed, ?_⟩⟩
  refine (if_neg ready.stranger).trans ?_
  refine bind_success.mpr ⟨_, reached, ?_⟩
  refine bind_success.mpr ⟨lastId, by rw [search]; rfl, ?_⟩
  refine bind_success.mpr ⟨_, entry, bind_success.mpr ⟨_, storedInner, ?_⟩⟩
  refine bind_success.mpr ⟨_, packed, ?_⟩
  refine bind_success.mpr ⟨_, by rw [next]; exact Dict.udictSet_natCast _ _ nextFits _, ?_⟩
  refine bind_success.mpr ⟨current, by rw [Dict.udictGet?_natCast, ready.period]; rfl, ?_⟩
  refine bind_success.mpr ⟨_, packedPerformance, ?_⟩
  refine bind_success.mpr ⟨_, Dict.udictSet_natCast _ _ s.currentPeriod.isLt _, ?_⟩
  rfl

theorem effect (indexed : Indexed s) :
    ∃ hash lastId inner sub updated after,
      processNewSubscription cellHash s sAddr msgValue = .ok (after, []) ∧
      DepositEffect cellHash s sAddr msgValue srcWc srcAddr hash lastId inner sub current updated
        after := by
  obtain ⟨after, success⟩ := ready.succeeds indexed
  obtain ⟨-, ⟨-, owner⟩ | ⟨wc, addr, hash, lastId, inner, sub, found, updated, effect⟩⟩ :=
    processNewSubscription_effects indexed success
  · rw [ready.parsed] at owner
    cases owner
    exact absurd ⟨rfl, rfl⟩ ready.stranger
  · have sender := ready.parsed.symm.trans effect.parsed
    cases sender
    have period := ready.period.symm.trans effect.period
    cases period
    exact ⟨hash, lastId, inner, sub, updated, after, success, effect⟩

end DepositReady

theorem processNewSubscription_requires_legible {s : State} {sAddr : MsgAddress}
    {msgValue srcWc srcAddr : Int} {hash : Uint 256} {result : State × List OutMsg}
    (h : processNewSubscription cellHash s sAddr msgValue = .ok result)
    (parsed : parseStdAddr sAddr = .ok (srcWc, srcAddr))
    (hashed : subscriberHash cellHash srcWc srcAddr = .ok hash)
    (stranger : ¬ (srcWc = 0 ∧ srcAddr = s.poolConfig.owner)) : Legible s hash := by
  obtain ⟨_, -, h⟩ := of_bind h
  obtain ⟨sender, parsed', h⟩ := of_bind h
  cases Except.ok.inj (parsed.symm.trans parsed')
  obtain ⟨key, hashed', h⟩ := of_bind h
  cases Except.ok.inj (hashed.symm.trans hashed')
  simp only [if_neg stranger] at h
  obtain ⟨found, reached, -⟩ := of_bind h
  exact findSubscriber_requires_legible reached

end Success

end TonStaking.Source.StakingPool
