import TonStaking.Source.Transaction.Effects

/-!
# Transactions: storage fees over the life of an account

`StoragePrices::compute_storage_fees` and `Transaction::prepare_storage_phase` of
`crypto/block/transaction.cpp` 406-453 and 610-663, with all of its arguments, the
tick-tock transactions of `Collator::create_ticktock_transaction`, and what
`Transaction::commit` (2180-2223) leaves for the next transaction. The size of the
new state is an input. A failed `CHECK` or a phase that cannot be prepared gives
no transaction.
-/
namespace TonStaking.Source.Transaction
open Tvm Currency

structure StoragePrices where
  validSince : Nat
  bitPrice : Uint 64
  cellPrice : Uint 64
  mcBitPrice : Uint 64
  mcCellPrice : Uint 64

/-- The size of the state of an account. -/
structure StorageStat where
  cells : Nat
  bits : Nat

def addPartialStoragePayment (payment : Int) (delta : Nat) (prices : StoragePrices) (storage : StorageStat)
    (isMc : Bool) : Option Int :=
  let c := toLong storage.cells * toLong (if isMc then prices.mcCellPrice else prices.cellPrice)
  let b := toLong storage.bits * toLong (if isMc then prices.mcBitPrice else prices.bitPrice)
  let b := (b + c) * delta
  if 0 ≤ b then some (payment + b) else none

/-- The `while` loop: one more than the last index whose prices were valid at the last payment. -/
def pricesFrom (pricing : List StoragePrices) (lastPaid : Nat) : Nat → Nat
  | 0 => 0
  | i + 1 =>
    match pricing[i]? with
    | some prices => if prices.validSince > lastPaid then pricesFrom pricing lastPaid i else i + 1
    | none => i + 1

/-- The `for` loop over the prices from an index on. -/
def addPayments (now : Nat) (storage : StorageStat) (isMc : Bool) : List StoragePrices → Nat → Int → Option Int
  | [], _, total => some total
  | prices :: rest, upto, total =>
    if upto < now then
      let validUntil :=
        match rest with
        | [] => now
        | next :: _ => min now next.validSince
      if upto < validUntil then do
        let total ← addPartialStoragePayment total (validUntil - upto) prices storage isMc
        addPayments now storage isMc rest validUntil total
      else addPayments now storage isMc rest validUntil total
    else some total

/-- `compute_storage_fees`, with none inside for a null result. -/
def computeStorageFees (now : Nat) (pricing : List StoragePrices) (storage : StorageStat) (lastPaid : Nat)
    (isSpecial isMasterchain : Bool) : Option (Option Int) :=
  match pricing with
  | [] => some none
  | first :: _ =>
    if now ≤ lastPaid ∨ lastPaid = 0 ∨ isSpecial ∨ now ≤ first.validSince then some none
    else do
      let i := pricesFrom pricing lastPaid pricing.length
      let upto := max lastPaid first.validSince
      let total ← addPayments now storage isMasterchain (pricing.drop (i - 1)) upto 0
      some (some (ceilShift total))

/-- `compute_gas_limits` of a transaction without a message: all the gas that the balance buys. -/
def ticktockGasLimits (x : OrdInput) (tx : Tx) : GasLimits :=
  let gasMax := if x.account.isSpecial then x.gasCfg.specialGasLimit.val else x.gasCfg.gasBoughtFor tx.balance.grams
  { gasMax, gasLimit := gasMax, gasCredit := 0 }

/-- The compute phase of a tick-tock transaction; there is no state in a message. -/
def prepareTicktockComputePhase (x : OrdInput) (tx : Tx) : Checked (Tx × Computed) :=
  let tx := chargeOriginal tx
  let limits := ticktockGasLimits x tx
  if tx.balance.grams ≤ 0 ∨ limits.gasLimit = 0 then .ok (tx, .skipped)
  else if tx.accStatus = .active then runMachine { x with init := none } limits tx
  else .ok (tx, .skipped)

section Life

variable (cellHash : Cell → Uint 256)

/-- What an account is between two transactions. -/
structure Stored where
  account : Account
  lastPaid : Nat
  storageStat : StorageStat

/-- What a transaction is about, besides the account. -/
inductive Occasion where
  | message (inMsg : Inbound) (init : Option InitState) (ihrDelivered : Bool)
  | ticktock

/-- A transaction to be made: its time and configuration, and the results of the machine and of the serialization. -/
structure Event where
  -- the account has been unpacked from a state that has a frozen account as an uninitialised one
  storedUninit : Bool
  now : Nat
  occasion : Occasion
  pricing : List StoragePrices
  forceCollect : Bool
  storageCfg : StorageConfig
  gasCfg : GasConfig
  cfg : ActionConfig
  reqStartLt : Nat
  vm : VmRun
  storageStat : StorageStat

/-- The account at the start of the transaction; `compute_state` stores a frozen account whose state has the hash of
the address as an uninitialised one. -/
def Event.unpacked (e : Event) (account : Account) : Account :=
  if e.storedUninit ∧ account.status = .frozen then { account with status := .uninit } else account

/-- The arguments of the phases; a tick-tock transaction has no message, and its phases read none. -/
def Event.input (e : Event) (account : Account) (fees : Nat) : OrdInput where
  storageCfg := e.storageCfg
  gasCfg := e.gasCfg
  cfg := e.cfg
  account := account
  inMsg := match e.occasion with
    | .message inMsg _ _ => inMsg
    | .ticktock => .ext 0 0
  init := match e.occasion with
    | .message _ init _ => init
    | .ticktock => none
  ihrDelivered := match e.occasion with
    | .message _ _ ihrDelivered => ihrDelivered
    | .ticktock => false
  reqStartLt := e.reqStartLt
  storageFees := fees
  vm := e.vm

/-- The money phases of the transaction. -/
def chargeEvent (e : Event) (x : OrdInput) (pay : Tx → Tx × StoragePhase) : Option Charged :=
  match e.occasion with
  | .message .. => (unpackInputMsg x (newTx x)).bind (chargeMoney x pay)
  | .ticktock => some ⟨(pay (newTx x)).1, (pay (newTx x)).2, 0⟩

/-- The phases after those. -/
def finishEvent (e : Event) (x : OrdInput) (tx : Tx) : Checked (Option Tx) :=
  match e.occasion with
  | .message .. => do
    let (tx, computed) ← prepareComputePhase x tx
    prepareLast cellHash x tx computed
  | .ticktock => do
    let (tx, computed) ← prepareTicktockComputePhase x tx
    match computed with
    | .ran true gasFees => do
      let (tx, _) ← prepareActionPhase cellHash { cfg := x.cfg, account := x.account, gasFees } tx x.vm.newData
        x.vm.actions
      .ok (some tx)
    | .rejected => .ok none
    | _ => .ok (some tx)

/-- `commit`: the fields of the account that the transaction has changed. -/
def commit (account : Account) (tx : Tx) : Option Account :=
  match storeGrams tx.balance.grams, storeGrams tx.duePayment with
  | .ok grams, .ok duePayment => some { account with
      status := if tx.accStatus = .deleted then .nonexist else tx.accStatus
      balance := ⟨grams, tx.balance.extra⟩, duePayment, code := tx.newCode, data := tx.newData
      library := tx.newLibrary, lastTransEndLt := tx.endLt }
  | _, _ => none

/-- What a transaction had to take for storage, and what it took from the balance and from the message. -/
structure Entry where
  fees : Int
  collected : Int
  dueCollected : Int

def transact (s : Stored) (e : Event) : Option (Stored × Entry) :=
  if e.now < s.lastPaid then none
  else do
    let account := e.unpacked s.account
    let toPay ← computeStorageFees e.now e.pricing s.storageStat s.lastPaid account.isSpecial account.isMasterchain
    if toPay.any (· < 0) then none
    else do
      let x := e.input account (toPay.getD 0).toNat
      let charged ← chargeEvent e x (prepareStoragePhase e.storageCfg account e.forceCollect toPay)
      match finishEvent cellHash e x charged.tx with
      | .ok (some tx) => do
        let committed ← commit account tx
        some (⟨committed, if account.isSpecial then 0 else e.now, e.storageStat⟩,
          ⟨toPay.getD 0, charged.storage.feesCollected, charged.dueCollected⟩)
      | _ => none

def transactAll : Stored → List Event → Option (Stored × List Entry)
  | s, [] => some (s, [])
  | s, e :: rest => do
    let (s, entry) ← transact cellHash s e
    let (s, entries) ← transactAll s rest
    some (s, entry :: entries)

end Life

section Effects

variable {cellHash : Cell → Uint 256} {x : OrdInput} {tx after : Tx}
variable {toPay : Option Int} {fees : Int} {pay : Tx → Tx × StoragePhase} {charged : Charged} {e : Event}
  {computed : Computed} {newData : Option Cell}

/-- The balance that the storage phase of an ordinary transaction finds. Without a bounce the message has been
credited by then, less the debt that is taken from it. -/
def storageFunds (x : OrdInput) : Int :=
  match x.inMsg with
  | .ext cells bits => x.account.balance.grams - inFwdFee x cells bits
  | .int m =>
    let value : Int := m.value.grams + if x.ihrDelivered then 0 else (m.ihrFee : Int)
    x.account.balance.grams + if m.bounce then 0 else value - min value x.account.duePayment

def Event.funds (e : Event) (account : Account) : Int :=
  match e.occasion with
  | .message .. => storageFunds (e.input account 0)
  | .ticktock => account.balance.grams

/-- Money phases leave the debt but for what is collected from the message. They never collect more than the fees,
and all of them exactly if the storage phase finds enough. -/
structure Charges (fees due funds : Int) (charged : Charged) : Prop where
  due : charged.tx.duePayment = due - charged.dueCollected
  collected : charged.storage.feesCollected ≤ fees
  full : charged.storage.feesCollected = fees ↔ fees ≤ funds

/-- A storage phase that takes the fees if the balance covers them and less otherwise, and leaves the debt as it is. -/
structure Pays (fees : Int) (pay : Tx → Tx × StoragePhase) : Prop where
  due : ∀ tx, (pay tx).1.duePayment = tx.duePayment
  collected : ∀ tx, (pay tx).2.feesCollected ≤ fees
  full : ∀ tx, 0 ≤ tx.balance.grams → ((pay tx).2.feesCollected = fees ↔ fees ≤ tx.balance.grams)

theorem prepareStoragePhase_pays (cfg : StorageConfig) (account : Account) (forceCollect : Bool)
    (nonneg : 0 ≤ toPay.getD 0) :
    Pays (toPay.getD 0) (prepareStoragePhase cfg account forceCollect toPay) := by
  suffices each : ∀ tx, (prepareStoragePhase cfg account forceCollect toPay tx).1.duePayment = tx.duePayment ∧
      (prepareStoragePhase cfg account forceCollect toPay tx).2.feesCollected ≤ toPay.getD 0 ∧
      (0 ≤ tx.balance.grams → ((prepareStoragePhase cfg account forceCollect toPay tx).2.feesCollected =
        toPay.getD 0 ↔ toPay.getD 0 ≤ tx.balance.grams)) from
    ⟨fun tx => (each tx).1, fun tx => (each tx).2.1, fun tx => (each tx).2.2⟩
  intro tx
  cases toPay with
  | none => exact ⟨rfl, le_refl _, fun enough => ⟨fun _ => enough, fun _ => rfl⟩⟩
  | some p =>
    change 0 ≤ p at nonneg
    simp only [Option.getD_some]
    unfold prepareStoragePhase
    dsimp only
    split
    · next nothing => exact ⟨rfl, nonneg, fun enough => by simp [nothing, enough]⟩
    next positive =>
    split
    · next covered => exact ⟨rfl, le_refl _, fun _ => by simp [covered]⟩
    next short =>
    split
    · exact ⟨rfl, nonneg, fun _ => by simp [short, Ne.symm positive]⟩
    have less : tx.balance.grams ≤ p := by omega
    have unpaid : tx.balance.grams = p ↔ p ≤ tx.balance.grams := by omega
    split
    · exact ⟨rfl, less, fun _ => unpaid⟩
    · exact ⟨rfl, less, fun _ => unpaid⟩

theorem prepareCreditPhase_due (h : prepareCreditPhase tx = some after) :
    after.duePayment = tx.duePayment - dueFeesCollected tx ∧
      after.balance.grams = tx.balance.grams + (tx.msgBalanceRemaining.grams - dueFeesCollected tx) := by
  unfold prepareCreditPhase at h
  dsimp only at h
  split at h
  · cases h
  · next summed =>
    cases h
    exact ⟨rfl, (Funds.add_success summed).1⟩

theorem unpackInputMsg_funds (h : unpackInputMsg x (newTx x) = some tx) :
    storageFunds x = if x.inMsg.bounceEnabled ∨ x.inMsg.isExternal then tx.balance.grams
      else tx.balance.grams + (tx.msgBalanceRemaining.grams - dueFeesCollected tx) := by
  unfold unpackInputMsg at h
  unfold storageFunds
  split at h
  · next m message =>
    rw [message]
    split at h
    · cases h
    dsimp only at h
    split at h
    · next delivered =>
      cases h
      cases bounce : m.bounce <;>
        simp [Inbound.bounceEnabled, Inbound.isExternal, bounce, delivered, dueFeesCollected, newTx, Value.funds]
    · next delivered =>
      cases h
      cases bounce : m.bounce <;>
        simp [Inbound.bounceEnabled, Inbound.isExternal, bounce, delivered, dueFeesCollected, newTx, Value.funds,
          Funds.addGrams]
  · next cells bits message =>
    rw [message]
    split at h
    · cases h
    split at h
    · cases h
    split at h
    · cases h
    next taken =>
    cases h
    simp [Inbound.isExternal, (Funds.subGrams_success taken).1, newTx, Value.funds]

theorem chargeMoney_charges (pays : Pays fees pay) (early : Early tx) (h : chargeMoney x pay tx = some charged) :
    Charges fees tx.duePayment (if x.inMsg.bounceEnabled ∨ x.inMsg.isExternal then tx.balance.grams
      else tx.balance.grams + (tx.msgBalanceRemaining.grams - dueFeesCollected tx)) charged := by
  unfold chargeMoney at h
  split at h
  · next bounce =>
    obtain ⟨credited, done, rfl⟩ := Option.map_eq_some_iff.mp h
    rw [if_pos (.inl bounce)]
    refine ⟨?_, pays.collected tx, pays.full tx early.balance⟩
    rw [(prepareCreditPhase_due done).1, pays.due tx]
  next plain =>
  split at h
  · next external =>
    cases h
    rw [if_pos (.inr external)]
    exact ⟨by rw [pays.due tx, sub_zero], pays.collected tx, pays.full tx early.balance⟩
  · next internal =>
    obtain ⟨credited, done, rfl⟩ := Option.map_eq_some_iff.mp h
    obtain ⟨due, balance⟩ := prepareCreditPhase_due done
    rw [if_neg (by simp [plain, internal]), ← balance]
    refine ⟨?_, pays.collected credited, pays.full credited (prepareCreditPhase_early early done).1.balance⟩
    rw [pays.due credited, due]

theorem chargeEvent_charges {account : Account} {paid : Nat} (pays : Pays fees pay)
    (h : chargeEvent e (e.input account paid) pay = some charged) :
    Charges fees account.duePayment (e.funds account) charged := by
  unfold chargeEvent at h
  unfold Event.funds
  split at h
  · obtain ⟨start, unpacked, money⟩ := Option.bind_eq_some_iff.mp h
    obtain ⟨early, -, -, due⟩ := unpackInputMsg_early unpacked
    have charges := chargeMoney_charges pays early money
    rw [← unpackInputMsg_funds unpacked, due] at charges
    exact charges
  · cases h
    refine ⟨?_, pays.collected _, pays.full _ (Int.natCast_nonneg _)⟩
    rw [pays.due, sub_zero]
    rfl

theorem prepareTicktockComputePhase_due (h : prepareTicktockComputePhase x tx = .ok (after, computed)) :
    after.duePayment = tx.duePayment := by
  unfold prepareTicktockComputePhase at h
  dsimp only at h
  split at h
  · cases h
    rfl
  · split at h
    · exact (runMachine_computes h).2
    · cases h
      rfl

theorem finishActions_due {st : Acting} (h : finishActions st newData = .ok after) :
    after.duePayment = st.tx.duePayment := by
  unfold finishActions at h
  split at h
  · cases h
  obtain ⟨_, -, h⟩ := of_bind h
  obtain ⟨_, -, h⟩ := of_bind h
  cases h
  rfl

theorem prepareActionPhase_due {env : ActionEnv} {list : ActionList} {code : Int}
    (h : prepareActionPhase cellHash env tx newData list = .ok (after, code)) : after.duePayment = tx.duePayment := by
  unfold prepareActionPhase at h
  split at h
  · cases h
    rfl
  obtain ⟨⟨st, result⟩, tried, h⟩ := of_bind h
  have framed : st.tx.duePayment = tx.duePayment := by
    rw [(tryActions_attempted tried).framed]
    rfl
  dsimp only at h
  split at h
  · obtain ⟨done, finished, h⟩ := of_bind h
    cases h
    exact (finishActions_due finished).trans framed
  · cases h
    exact framed

theorem prepareBouncePhase_due {m : IntMsg} {gasFees : Int} (h : prepareBouncePhase x m tx gasFees = .ok (some after)) :
    after.duePayment = tx.duePayment := by
  unfold prepareBouncePhase at h
  split at h
  · cases h
  split at h
  · cases h
    rfl
  split at h
  · cases h
  dsimp only at h
  split at h
  · cases h
    rfl
  · cases h

theorem prepareLast_due (h : prepareLast cellHash x tx computed = .ok (some after)) :
    after.duePayment = tx.duePayment := by
  unfold prepareLast at h
  split at h
  · cases h
  · obtain ⟨done, phase, h⟩ := of_bind h
    cases h
    exact prepareActionPhase_due phase
  · split at h
    · split at h
      · exact prepareBouncePhase_due h
      · cases h
        rfl
    · cases h
      rfl
  · split at h
    · split at h
      · exact prepareBouncePhase_due h
      · cases h
        rfl
    · cases h

theorem finishEvent_due (h : finishEvent cellHash e x tx = .ok (some after)) : after.duePayment = tx.duePayment := by
  unfold finishEvent at h
  split at h
  · obtain ⟨⟨mid, computed⟩, compute, h⟩ := of_bind h
    exact (prepareLast_due h).trans (prepareComputePhase_computes compute).2
  obtain ⟨⟨mid, computed⟩, compute, h⟩ := of_bind h
  have before := prepareTicktockComputePhase_due compute
  dsimp only at h
  split at h
  · obtain ⟨done, phase, h⟩ := of_bind h
    cases h
    exact (prepareActionPhase_due phase).trans before
  · cases h
  · cases h
    exact before

theorem commit_success {account committed : Account} (h : commit account tx = some committed) :
    (committed.duePayment : Int) = tx.duePayment ∧ committed.isSpecial = account.isSpecial ∧
      committed.isMasterchain = account.isMasterchain := by
  unfold commit at h
  split at h
  · next grams due storedBalance storedDue =>
    cases h
    exact ⟨storeGrams_success storedDue, rfl, rfl⟩
  · cases h

end Effects

end TonStaking.Source.Transaction
