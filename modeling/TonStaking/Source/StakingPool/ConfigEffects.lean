import TonStaking.Source.StakingPool.Effects

/-!
# Staking pool: effects on the configuration and the nominators

Successful calls of the nominator handlers (lines 288-366), of the two fund
orders (417-463), of `process_set_config` (368-415) and of `try_init` (549-601).
-/
namespace TonStaking.Source.StakingPool
open Tvm Dict

section Nominators

variable {s after : State} {sAddr : MsgAddress} {msgValue : Int} {out : List OutMsg} {balance stake : Grams}

structure ActivateEffect (s : State) (sAddr : MsgAddress) (msgValue : Int) (walletAddress : Uint 256)
    (walletStatus : Uint 8) (raw : Slice) (nominator : Nominator) (after : State) : Prop where
  feePaid : (s.poolConfig.transactionFee : Int) ≤ msgValue
  owner : parseStdAddr sAddr = .ok (0, (s.poolConfig.owner : Int))
  found : s.poolConfig.nominators.get? walletAddress = some raw
  unpacked : unpackNominator raw = .ok nominator
  valid : nominator.status.val ≠ 2
  different : nominator.status ≠ walletStatus
  fits : nominator.walletId.val < 2 ^ 256
  state : after = { s with
    poolConfig := { s.poolConfig with
      nominators := s.poolConfig.nominators.set nominator.walletId.val fits
        { nominator with status := walletStatus }.toSlice } }

theorem processActivateWallet_effects {walletAddress : Uint 256} {walletStatus : Uint 8}
    (h : processActivateWallet s sAddr msgValue walletAddress walletStatus = .ok (after, out)) :
    out = [] ∧ ∃ raw nominator, ActivateEffect s sAddr msgValue walletAddress walletStatus raw nominator after := by
  obtain ⟨_, feePaid, h⟩ := of_bind h
  obtain ⟨⟨srcWc, srcAddr⟩, parsed, h⟩ := of_bind h
  obtain ⟨_, owner, h⟩ := of_bind h
  obtain ⟨raw, found, h⟩ := of_bind h
  obtain ⟨nominator, unpacked, h⟩ := of_bind h
  obtain ⟨_, valid, h⟩ := of_bind h
  obtain ⟨_, different, h⟩ := of_bind h
  obtain ⟨packed, packing, h⟩ := of_bind h
  obtain ⟨nominators, stored, h⟩ := of_bind h
  cases h
  simp only [throwUnless_success, throwIf_success] at feePaid owner valid different
  obtain ⟨rfl, rfl⟩ := owner
  rw [orThrow_success, udictGet?_natCast] at found
  have packed_eq : packed = { nominator with status := walletStatus }.toSlice := by
    simp only [packNominator, storeUint_val, storeGrams_val, ok_bind, Except.ok.injEq] at packing
    exact packing.symm
  subst packed_eq
  have fits : nominator.walletId.val < 2 ^ 256 :=
    lt_of_lt_of_le nominator.walletId.isLt (Nat.pow_le_pow_right (by decide) (by decide))
  rw [udictSet_natCast _ _ fits] at stored
  cases stored
  refine ⟨rfl, raw, nominator, ?_⟩
  exact
    { owner := parsed
      feePaid, found, unpacked, valid, fits
      different := fun equal => different (by rw [equal])
      state := rfl }

structure FetchEffect (s : State) (sAddr : MsgAddress) (msgValue : Int) (balance : Grams)
    (current : Performance) (after : State) (out : List OutMsg) : Prop where
  feePaid : (s.poolConfig.transactionFee : Int) ≤ msgValue
  owner : parseStdAddr sAddr = .ok (0, (s.poolConfig.owner : Int))
  period : s.performance.get? s.currentPeriod = some current
  sent : requestBalances s.poolConfig.nominators (s.poolConfig.nominators.entries.length + 1) 0 = .ok out
  state : after = { s with
    performance := s.recorded { current with aum := balance } }

theorem processFetchBalances_effects (h : processFetchBalances s sAddr msgValue balance = .ok (after, out)) :
    ∃ current, FetchEffect s sAddr msgValue balance current after out := by
  obtain ⟨_, feePaid, h⟩ := of_bind h
  obtain ⟨⟨srcWc, srcAddr⟩, parsed, h⟩ := of_bind h
  obtain ⟨_, owner, h⟩ := of_bind h
  obtain ⟨sent, requested, h⟩ := of_bind h
  obtain ⟨current, period, h⟩ := of_bind h
  obtain ⟨updated, packing, h⟩ := of_bind h
  obtain ⟨performance, stored, h⟩ := of_bind h
  cases h
  simp only [throwUnless_success] at feePaid owner
  obtain ⟨rfl, rfl⟩ := owner
  rw [orNull_success, udictGet?_natCast] at period
  simp only [packPerformance, storeGrams_val, ok_bind, Except.ok.injEq] at packing
  subst packing
  rw [udictSet_natCast _ _ s.currentPeriod.isLt] at stored
  cases stored
  exact ⟨current, { feePaid, owner := parsed, period := period, sent := requested, state := rfl }⟩

structure GotBalanceEffect (s : State) (balance stake : Grams) (address : Uint 256) (raw : Slice)
    (nominator : Nominator) (current updated : Performance) (after : State) : Prop where
  found : s.poolConfig.nominators.get? address = some raw
  unpacked : unpackNominator raw = .ok nominator
  period : s.performance.get? s.currentPeriod = some current
  holds : updated.Holds current.rate (current.aum + balance + stake) current.units current.deposits current.withdrawals
  state : after = { s with
    performance := s.recorded updated
    poolConfig := { s.poolConfig with
      nominators := s.poolConfig.nominators.set address address.isLt
        { nominator with balance := balance, stake := stake }.toSlice } }

theorem processGotBalance_effects (h : processGotBalance s sAddr balance stake = .ok (after, out)) :
    out = [] ∧ ∃ address raw nominator current updated,
      GotBalanceEffect s balance stake address raw nominator current updated after := by
  obtain ⟨⟨srcWc, srcAddr⟩, parsed, h⟩ := of_bind h
  obtain ⟨_, registered, h⟩ := of_bind h
  obtain ⟨raw, found, h⟩ := of_bind h
  obtain ⟨nominator, unpacked, h⟩ := of_bind h
  obtain ⟨packed, packing, h⟩ := of_bind h
  obtain ⟨nominators, stored, h⟩ := of_bind h
  obtain ⟨current, period, h⟩ := of_bind h
  obtain ⟨updated, packedPerformance, h⟩ := of_bind h
  obtain ⟨performance, storedPerformance, h⟩ := of_bind h
  cases h
  rw [throwUnless_success] at registered
  obtain ⟨rfl, -⟩ := registered
  rw [orNull_success] at found
  rw [orNull_success, udictGet?_natCast] at period
  obtain ⟨low, high⟩ := parseStdAddr_range parsed
  obtain ⟨address, address_eq⟩ : ∃ address : Uint 256, (address : Int) = srcAddr := by
    obtain ⟨address, -, equal⟩ := storeUint_of_fits (n := 256) low high
    exact ⟨address, equal⟩
  subst address_eq
  simp only [packNominator, storeUint_val, storeGrams_val, ok_bind, Except.ok.injEq] at packing
  subst packing
  rw [udictSet_natCast _ _ address.isLt] at stored
  cases stored
  rw [udictSet_natCast _ _ s.currentPeriod.isLt] at storedPerformance
  cases storedPerformance
  refine ⟨rfl, address, raw, nominator, current, updated, ?_⟩
  exact
    { found, unpacked, period
      holds := packPerformance_success packedPerformance
      state := rfl }

/-- A report is accepted if the entry of its sender is readable and the aum fits. -/
theorem processGotBalance_succeeds {address : Uint 256} {raw : Slice} {x : Nominator} {current : Performance}
    {aum : Grams} (found : s.poolConfig.nominators.get? address = some raw) (unpacked : unpackNominator raw = .ok x)
    (period : s.performance.get? s.currentPeriod = some current) (sum : (aum : Int) = current.aum + balance + stake) :
    processGotBalance s (accountAddress ⟨-1, by decide⟩ address) balance stake = .ok ({ s with
      performance := s.recorded { current with aum }
      poolConfig := { s.poolConfig with
        nominators := s.poolConfig.nominators.set address address.isLt
          { x with balance := balance, stake := stake }.toSlice } }, []) := by
  have packed : packPerformance current.rate (current.aum + balance + stake) current.units current.deposits
      current.withdrawals = .ok { current with aum } := by
    rw [← sum]
    simp [packPerformance]
  have entry : packNominator x.status balance stake x.walletId =
      .ok { x with balance := balance, stake := stake }.toSlice := by
    simp [packNominator]
  have lookup : s.poolConfig.nominators.udictGet? (address : Int) = some raw :=
    (udictGet?_natCast _ _).trans found
  have guard : throwUnless 55 ((-1 : Int) = -1 ∧ (s.poolConfig.nominators.udictGet? address).isSome) = .ok () := by
    rw [throwUnless_success, lookup]
    exact ⟨rfl, rfl⟩
  unfold processGotBalance
  rw [parseStdAddr_account, ok_bind]
  dsimp only
  rw [guard, ok_bind, lookup, orNull, ok_bind, unpacked, ok_bind, entry, ok_bind,
    udictSet_natCast _ _ address.isLt, ok_bind, udictGet?_natCast, period, orNull, ok_bind,
    packed, ok_bind, udictSet_natCast _ _ s.currentPeriod.isLt, ok_bind]

/-- The negated guard lets only unknown addresses through, and these have no entry. -/
theorem orderNominator_fails (s : State) (nominatorAddress grams op : Int) (code : Nat)
    (result : State × List OutMsg) : orderNominator s nominatorAddress grams op code ≠ .ok result := by
  intro h
  obtain ⟨_, unknown, h⟩ := of_bind h
  obtain ⟨raw, found, -⟩ := of_bind h
  rw [throwUnless_success] at unknown
  rw [orNull_success] at found
  rw [found] at unknown
  exact unknown rfl

theorem processTransferToWallet_fails (s : State) (sAddr : MsgAddress)
    (msgValue nominatorAddress grams : Int) (balance : Grams) (result : State × List OutMsg) :
    processTransferToWallet s sAddr msgValue nominatorAddress grams balance ≠ .ok result := by
  intro h
  obtain ⟨_, -, h⟩ := of_bind h
  obtain ⟨_, -, h⟩ := of_bind h
  obtain ⟨_, -, h⟩ := of_bind h
  obtain ⟨_, -, h⟩ := of_bind h
  exact orderNominator_fails _ _ _ _ _ _ h

theorem processWithdrawFromWallet_fails (s : State) (sAddr : MsgAddress)
    (msgValue nominatorAddress grams : Int) (result : State × List OutMsg) :
    processWithdrawFromWallet s sAddr msgValue nominatorAddress grams ≠ .ok result := by
  intro h
  obtain ⟨_, -, h⟩ := of_bind h
  obtain ⟨_, -, h⟩ := of_bind h
  obtain ⟨_, -, h⟩ := of_bind h
  exact orderNominator_fails _ _ _ _ _ _ h

end Nominators

section SetConfig

variable {option : Uint 8} {bit code : Nat} {α : Type}

theorem onOption_success {block : PoolConfig → Slice → Outcome (PoolConfig × Slice)} {config written : PoolConfig}
    {inMsg rest : Slice} (h : onOption option bit block config inMsg = .ok (written, rest)) :
    (option.val.testBit bit = true ∧ block config inMsg = .ok (written, rest)) ∨
      (option.val.testBit bit = false ∧ written = config ∧ rest = inMsg) := by
  unfold onOption at h
  split at h
  · next set => exact .inl ⟨set, h⟩
  rename_i clear
  simp only [Except.ok.injEq, Prod.mk.injEq] at h
  exact .inr ⟨by simpa using clear, h.1.symm, h.2.symm⟩

theorem fromOwner_success {srcWc srcAddr : Int} {config : PoolConfig} {u : Unit} :
    fromOwner code srcWc srcAddr config = .ok u ↔ srcWc = -1 ∧ srcAddr = config.owner :=
  throwUnless_success

variable {srcWc srcAddr : Int} {config written : PoolConfig} {inMsg rest : Slice}

/-- The rest of the body after a field that is present only if the option is set. -/
def skipField {α : Type} (present : Bool) (load : Slice → Outcome (α × Slice)) (inMsg : Slice) :
    Outcome Slice :=
  if present then do
    let (_, rest) ← load inMsg
    .ok rest
  else .ok inMsg

/-- The address that the body of a `SETC` message with option 32 names: it follows
the fields of the options 1, 2, 4 and 8. -/
def namedOwner (option : Uint 8) (inMsg : Slice) : Outcome (Uint 256) := do
  let inMsg ← skipField (option.val.testBit 0) loadGrams inMsg
  let inMsg ← skipField (option.val.testBit 1) loadGrams inMsg
  let inMsg ← skipField (option.val.testBit 2) (loadUint 32) inMsg
  let inMsg ← skipField (option.val.testBit 3) (loadUint 32) inMsg
  let (owner, _) ← loadUint 256 inMsg
  .ok owner

/-- The owner has chosen the option with this bit. -/
def FromOwner (config : PoolConfig) (srcWc srcAddr : Int) (option : Uint 8) (bit : Nat) : Prop :=
  option.val.testBit bit = true ∧ srcWc = -1 ∧ srcAddr = config.owner

/-- A field option is skipped or written by the owner; both ways its field is consumed. -/
theorem onOption_setField {load : Slice → Outcome (α × Slice)} {valid : α → Prop} [DecidablePred valid]
    {write : PoolConfig → α → PoolConfig} (old : α) (same : write config old = config)
    (h : onOption option bit (setField load code valid write srcWc srcAddr) config inMsg =
      .ok (written, rest)) :
    skipField (option.val.testBit bit) load inMsg = .ok rest ∧
      ∃ new, written = write config new ∧
        (new = old ∨ (FromOwner config srcWc srcAddr option bit ∧ valid new)) := by
  rcases onOption_success h with ⟨set, block⟩ | ⟨clear, rfl, rfl⟩
  · obtain ⟨_, owner, block⟩ := of_bind block
    obtain ⟨⟨value, tail⟩, loaded, block⟩ := of_bind block
    obtain ⟨_, checked, block⟩ := of_bind block
    cases block
    constructor
    · simp [skipField, set, loaded]
    · exact ⟨value, rfl, .inr ⟨⟨set, fromOwner_success.mp owner⟩, throwUnless_success.mp checked⟩⟩
  · constructor
    · simp [skipField, clear]
    · exact ⟨old, same.symm, .inl rfl⟩

theorem acceptOwnership_success
    (h : acceptOwnership srcWc srcAddr config inMsg = .ok (written, rest)) :
    srcWc = -1 ∧ srcAddr = config.pendingOwner ∧ rest = inMsg ∧
      written = { config with owner := config.pendingOwner, pendingOwner := 0 } := by
  obtain ⟨_, pending, stored⟩ := of_bind h
  rw [throwUnless_success] at pending
  obtain ⟨rfl, rfl⟩ := pending
  simp only [storeUint_val, ok_bind, Except.ok.injEq, Prod.mk.injEq] at stored
  exact ⟨rfl, rfl, stored.2.symm, stored.1.symm⟩

theorem setPendingOwner_success
    (h : setPendingOwner srcWc srcAddr config inMsg = .ok (written, rest)) :
    srcWc = -1 ∧ srcAddr = config.owner ∧
      ∃ pendingOwner, loadUint 256 inMsg = .ok (pendingOwner, rest) ∧ written = { config with pendingOwner } := by
  obtain ⟨_, owner, h⟩ := of_bind h
  obtain ⟨⟨pendingOwner, tail⟩, loaded, h⟩ := of_bind h
  cases h
  obtain ⟨wc, addr⟩ := fromOwner_success.mp owner
  exact ⟨wc, addr, pendingOwner, loaded, rfl⟩

/-- What the four field options leave of the configuration. -/
structure FieldsEffect (config : PoolConfig) (srcWc srcAddr : Int) (option : Uint 8)
    (written : PoolConfig) : Prop where
  transactionFee : written.transactionFee = config.transactionFee ∨ FromOwner config srcWc srcAddr option 0
  minAmount : written.minAmount = config.minAmount ∨ FromOwner config srcWc srcAddr option 1
  ownerFee : written.ownerFee = config.ownerFee ∨
    (FromOwner config srcWc srcAddr option 2 ∧ written.ownerFee.val ≤ 3000)
  penaltyFee : written.penaltyFee = config.penaltyFee ∨
    (FromOwner config srcWc srcAddr option 3 ∧ written.penaltyFee.val ≤ 3000)
  nominators : written.nominators = config.nominators

/-- What the six option blocks, evaluated in sequence, leave of the configuration. -/
structure SetConfigEffect (config : PoolConfig) (srcWc srcAddr : Int) (option : Uint 8) (inMsg : Slice)
    (written : PoolConfig) : Prop extends FieldsEffect config srcWc srcAddr option written where
  owner : (option.val.testBit 4 = false ∧ written.owner = config.owner) ∨
    (option.val.testBit 4 = true ∧ srcWc = -1 ∧ srcAddr = config.pendingOwner ∧
      written.owner = config.pendingOwner)
  pendingOwner : (option.val.testBit 5 = true ∧ srcWc = -1 ∧ srcAddr = written.owner ∧
      namedOwner option inMsg = .ok written.pendingOwner) ∨
    (option.val.testBit 5 = false ∧
      ((option.val.testBit 4 = true ∧ written.pendingOwner = 0) ∨
        (option.val.testBit 4 = false ∧ written.pendingOwner = config.pendingOwner)))

theorem processSetConfig_effects {s after : State} {sAddr : MsgAddress} {msgValue : Int} {body : Slice}
    {out : List OutMsg} (h : processSetConfig s sAddr msgValue option body = .ok (after, out)) :
    out = [] ∧ ∃ srcWc srcAddr written, parseStdAddr sAddr = .ok (srcWc, srcAddr) ∧
      SetConfigEffect s.poolConfig srcWc srcAddr option body written ∧
      after = { s with poolConfig := written } := by
  obtain ⟨_, -, h⟩ := of_bind h
  obtain ⟨⟨srcWc, srcAddr⟩, parsed, h⟩ := of_bind h
  obtain ⟨⟨c0, m0⟩, fee, h⟩ := of_bind h
  obtain ⟨⟨c1, m1⟩, amount, h⟩ := of_bind h
  obtain ⟨⟨c2, m2⟩, ownerFee, h⟩ := of_bind h
  obtain ⟨⟨c3, m3⟩, penaltyFee, h⟩ := of_bind h
  obtain ⟨⟨c4, m4⟩, accepted, h⟩ := of_bind h
  obtain ⟨⟨c5, m5⟩, pending, h⟩ := of_bind h
  cases h
  refine ⟨rfl, srcWc, srcAddr, c5, parsed, ?_, rfl⟩
  obtain ⟨skipFee, _, rfl, newFee⟩ := onOption_setField s.poolConfig.transactionFee rfl fee
  obtain ⟨skipAmount, _, rfl, newAmount⟩ := onOption_setField s.poolConfig.minAmount rfl amount
  obtain ⟨skipOwnerFee, _, rfl, newOwnerFee⟩ := onOption_setField s.poolConfig.ownerFee rfl ownerFee
  obtain ⟨skipPenaltyFee, _, rfl, newPenaltyFee⟩ := onOption_setField s.poolConfig.penaltyFee rfl penaltyFee
  -- option 16 takes nothing from the body, so option 32 reads what the fields have left
  have named : ∀ owner, loadUint 256 m3 = .ok (owner, m5) → namedOwner option body = .ok owner := by
    intro owner loaded
    simp only [namedOwner, skipFee, skipAmount, skipOwnerFee, skipPenaltyFee, loaded, ok_bind]
  have accepting : m4 = m3 ∧ ((option.val.testBit 4 = false ∧ c4.owner = s.poolConfig.owner ∧
        c4.pendingOwner = s.poolConfig.pendingOwner) ∨
      (option.val.testBit 4 = true ∧ srcWc = -1 ∧ srcAddr = s.poolConfig.pendingOwner ∧
        c4.owner = s.poolConfig.pendingOwner ∧ c4.pendingOwner = 0)) ∧
      FieldsEffect s.poolConfig srcWc srcAddr option c4 := by
    rcases onOption_success accepted with ⟨bit, set⟩ | ⟨bit, rfl, rfl⟩
    · obtain ⟨wc, addr, rest, rfl⟩ := acceptOwnership_success set
      exact ⟨rest, .inr ⟨bit, wc, addr, rfl, rfl⟩,
        ⟨newFee.imp_right And.left, newAmount.imp_right And.left, newOwnerFee, newPenaltyFee, rfl⟩⟩
    · exact ⟨rfl, .inl ⟨bit, rfl, rfl⟩,
        ⟨newFee.imp_right And.left, newAmount.imp_right And.left, newOwnerFee, newPenaltyFee, rfl⟩⟩
  obtain ⟨rfl, accepting, fields⟩ := accepting
  rcases onOption_success pending with ⟨naming, set⟩ | ⟨silent, rfl, -⟩
  · obtain ⟨wc, addr, owner, loaded, rfl⟩ := setPendingOwner_success set
    refine ⟨⟨fields.transactionFee, fields.minAmount, fields.ownerFee, fields.penaltyFee, fields.nominators⟩, ?_,
      .inl ⟨naming, wc, addr, named owner loaded⟩⟩
    exact accepting.imp (fun kept => ⟨kept.1, kept.2.1⟩) fun ⟨bit, wc, addr, taken, _⟩ => ⟨bit, wc, addr, taken⟩
  · rcases accepting with ⟨clear, kept, same⟩ | ⟨bit, wc, addr, taken, zero⟩
    · exact ⟨fields, .inl ⟨clear, kept⟩, .inr ⟨silent, .inr ⟨clear, same⟩⟩⟩
    · exact ⟨fields, .inr ⟨bit, wc, addr, taken⟩, .inr ⟨silent, .inl ⟨bit, zero⟩⟩⟩

end SetConfig

section Init

variable {cellHash : Cell → Uint 256}

/-- The state `try_init` writes. -/
structure InitEffect (cellHash : Cell → Uint 256) (poolConfig : PoolConfig) (init : InitMessage)
    (balance : Grams) (first opened : Performance) (sub : Subscription) (hash : Uint 256)
    (s : State) : Prop where
  checked : checkNominators cellHash init.nominatorCode init.poolAddress
    (init.nominators.entries.length + 1) 0 init.nominators = .ok s.poolConfig.nominators
  config : s.poolConfig =
    { poolConfig with pendingOwner := 0, nominators := s.poolConfig.nominators }
  currentPeriod : s.currentPeriod.val = 1
  firstRate : first.rate.val = 10000
  opens : opened.Holds 0 balance ((balance : Int).fdiv 10000) 0 0
  performance : s.performance = (Dict.empty.set 0 (by decide) first).set 1 (by decide) opened
  subscriber : sub.subscriber = poolConfig.owner
  workchain : sub.subscriberWc.val = 0
  start : sub.startPeriod.val = 0
  status : sub.status.val = 1
  subscriptions : s.subscriptions = Dict.empty.set 1 (by decide) sub
  subscribers : s.subscribers = Dict.empty.set hash.val hash.isLt (IndexTrie.single 0 1).root

theorem tryInit_effects {poolConfig : PoolConfig} {init : InitMessage} {balance : Grams} {s : State}
    (h : tryInit cellHash 0 poolConfig init balance = .ok s) :
    ∃ first opened sub hash, InitEffect cellHash poolConfig init balance first opened sub hash s := by
  obtain ⟨_, -, h⟩ := of_bind h
  obtain ⟨_, -, h⟩ := of_bind h
  obtain ⟨nominators, checked, h⟩ := of_bind h
  obtain ⟨units, divided, h⟩ := of_bind h
  obtain ⟨first, packedFirst, h⟩ := of_bind h
  obtain ⟨performance, storedFirst, h⟩ := of_bind h
  obtain ⟨hash, -, h⟩ := of_bind h
  obtain ⟨entry, packedEntry, h⟩ := of_bind h
  obtain ⟨subscriber, storedEntry, h⟩ := of_bind h
  obtain ⟨sub, packed, h⟩ := of_bind h
  obtain ⟨subscriptions, stored, h⟩ := of_bind h
  obtain ⟨opened, packedOpened, h⟩ := of_bind h
  obtain ⟨performance, storedOpened, h⟩ := of_bind h
  obtain ⟨currentPeriod, advanced, h⟩ := of_bind h
  cases h
  have one : packSubscribersEntry 1 = .ok (indexEntry 1) := packSubscribersEntry_val 1
  rw [one] at packedEntry
  cases packedEntry
  rw [IndexTrie.udictSet_absent] at storedEntry
  cases storedEntry
  have units_eq := (divInt_success divided).2
  have firstRate := (packPerformance_success packedFirst).rate
  have opens := packPerformance_success packedOpened
  rw [units_eq] at opens
  obtain ⟨sSubscriber, sWorkchain, -, sStart, -, sStatus⟩ := packSubscription_success packed
  have advanced_eq := storeUint_success advanced
  rw [udictSet_natCast _ _ (Fin.isLt 0)] at storedFirst
  cases storedFirst
  have next : ((0 : Uint 16).val : Int) + 1 = ((1 : Nat) : Int) := by
    rfl
  rw [next, udictSet_natCast _ _ (by decide)] at storedOpened
  cases storedOpened
  cases stored
  refine ⟨first, opened, sub, hash, ?_⟩
  exact
    { checked, opens
      config := rfl
      currentPeriod := by exact_mod_cast advanced_eq
      firstRate := by omega
      performance := rfl
      subscriber := Fin.ext (by omega)
      workchain := sWorkchain
      start := by omega
      status := by omega
      subscriptions := rfl
      subscribers := rfl }

end Init

end TonStaking.Source.StakingPool
