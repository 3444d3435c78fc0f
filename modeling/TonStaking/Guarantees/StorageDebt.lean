import TonStaking.Source.Transaction.Storage

/-!
# Storage debt

Over a sequence of transactions of an account, what was collected for storage and
the debt that is recorded at the end are compared with the fees of the intervals
between the transactions and the debt at the start. A fee that the balance does
not cover is reported as due by the storage phase, but never added to the debt,
and the time up to which the account is paid moves on: the two sides differ by
just what was not collected.
-/
namespace TonStaking.Guarantees.StorageDebt
open Tvm TonStaking.Source.Transaction

variable {cellHash : Cell → Uint 256}
variable {account other : Account} {s after : Stored} {e : Event} {entry : Entry} {entries : List Entry}

def intervalFees (account : Account) (lastPaid : Nat) (storage : StorageStat) (e : Event) : Int :=
  ((computeStorageFees e.now e.pricing storage lastPaid account.isSpecial account.isMasterchain).join).getD 0

/-- The fees of all the intervals, each from one transaction to the next. -/
def elapsedFees (account : Account) : Nat → StorageStat → List Event → Int
  | _, _, [] => 0
  | lastPaid, storage, e :: rest =>
    intervalFees account lastPaid storage e + elapsedFees account e.now e.storageStat rest

/-- What was collected for storage, from balances and from messages. -/
def totalCollected (entries : List Entry) : Int := (entries.map fun entry => entry.collected + entry.dueCollected).sum

/-- Fees that were due in transactions and have not been collected. -/
def totalLost (entries : List Entry) : Int := (entries.map fun entry => entry.fees - entry.collected).sum

/-- The account, with the message if it is credited before, has the storage fee of the transaction. -/
def Covered (s : Stored) (e : Event) : Prop :=
  intervalFees s.account s.lastPaid s.storageStat e ≤ e.funds s.account

instance : Decidable (Covered s e) := inferInstanceAs (Decidable (_ ≤ _))

variable (cellHash) in
/-- Every transaction finds its storage fee. -/
def CoveredThroughout : Stored → List Event → Prop
  | _, [] => True
  | s, e :: rest => Covered s e ∧
    ∀ after entry, transact cellHash s e = some (after, entry) → CoveredThroughout after rest

/-- What one transaction does to the debt. -/
structure Accounts (s after : Stored) (e : Event) (entry : Entry) : Prop where
  due : (after.account.duePayment : Int) = s.account.duePayment - entry.dueCollected
  fees : entry.fees = intervalFees s.account s.lastPaid s.storageStat e
  collected : entry.collected ≤ entry.fees
  full : entry.collected = entry.fees ↔ Covered s e
  special : after.account.isSpecial = s.account.isSpecial
  masterchain : after.account.isMasterchain = s.account.isMasterchain
  lastPaid : after.lastPaid = if s.account.isSpecial then 0 else e.now
  storage : after.storageStat = e.storageStat

theorem unpacked_same (e : Event) (account : Account) :
    (e.unpacked account).isSpecial = account.isSpecial ∧ (e.unpacked account).isMasterchain = account.isMasterchain ∧
      (e.unpacked account).duePayment = account.duePayment ∧ e.funds (e.unpacked account) = e.funds account := by
  unfold Event.unpacked
  split
  · exact ⟨rfl, rfl, rfl, rfl⟩
  · exact ⟨rfl, rfl, rfl, rfl⟩

theorem transact_accounts (done : transact cellHash s e = some (after, entry)) : Accounts s after e entry := by
  obtain ⟨special, masterchain, due, funds⟩ := unpacked_same e s.account
  unfold transact at done
  split at done
  · cases done
  simp only [Option.bind_eq_bind, Option.bind_eq_some_iff] at done
  obtain ⟨toPay, computed, done⟩ := done
  split at done
  · cases done
  rename_i positive
  obtain ⟨charged, money, done⟩ := Option.bind_eq_some_iff.mp done
  split at done
  · next tx finished =>
    obtain ⟨committed, stored, done⟩ := Option.bind_eq_some_iff.mp done
    cases done
    have nonneg : 0 ≤ toPay.getD 0 := by
      cases toPay with
      | none => exact le_refl _
      | some p => simpa using positive
    have charges := chargeEvent_charges (prepareStoragePhase_pays _ _ _ nonneg) money
    have kept := commit_success stored
    have fees : toPay.getD 0 = intervalFees s.account s.lastPaid s.storageStat e := by
      rw [special, masterchain] at computed
      rw [intervalFees, computed]
      rfl
    refine ⟨?_, fees, charges.collected, ?_, kept.2.1.trans special, kept.2.2.trans masterchain, ?_, rfl⟩
    · rw [kept.1, finishEvent_due finished, charges.due, due]
    · rw [Covered, ← fees, ← funds]
      exact charges.full
    · rw [special]
  · cases done

/-- The fees of the later intervals do not depend on what the transactions do to the account. -/
theorem elapsedFees_congr (special : other.isSpecial = account.isSpecial)
    (masterchain : other.isMasterchain = account.isMasterchain) (events : List Event) (lastPaid : Nat)
    (storage : StorageStat) :
    elapsedFees other lastPaid storage events = elapsedFees account lastPaid storage events := by
  induction events generalizing lastPaid storage with
  | nil => rfl
  | cons e rest ih => rw [elapsedFees, elapsedFees, ih, intervalFees, intervalFees, special, masterchain]

theorem elapsedFees_special (special : account.isSpecial = true) (events : List Event) (lastPaid : Nat)
    (storage : StorageStat) : elapsedFees account lastPaid storage events = 0 := by
  induction events generalizing lastPaid storage with
  | nil => rfl
  | cons e rest ih =>
    rw [elapsedFees, ih, add_zero]
    unfold intervalFees computeStorageFees
    split
    · rfl
    · simp [special]

/-- The intervals after a transaction begin at its time. -/
theorem Accounts.later {mid : Stored} (accounts : Accounts s mid e entry) (rest : List Event) :
    elapsedFees mid.account mid.lastPaid mid.storageStat rest = elapsedFees s.account e.now e.storageStat rest := by
  rw [elapsedFees_congr accounts.special accounts.masterchain, accounts.lastPaid, accounts.storage]
  cases special : s.account.isSpecial with
  | true => rw [elapsedFees_special special, elapsedFees_special special]
  | false => rfl

/-- The two sides differ by what was lost. -/
theorem transactAll_accounts {events : List Event} (done : transactAll cellHash s events = some (after, entries)) :
    totalCollected entries + after.account.duePayment + totalLost entries =
      elapsedFees s.account s.lastPaid s.storageStat events + s.account.duePayment ∧
    (∀ entry ∈ entries, entry.collected ≤ entry.fees) ∧
    ((∀ entry ∈ entries, entry.collected = entry.fees) ↔ CoveredThroughout cellHash s events) := by
  induction events generalizing s entries with
  | nil =>
    cases done
    simp [totalCollected, totalLost, elapsedFees, CoveredThroughout]
  | cons e rest ih =>
    simp only [transactAll, Option.bind_eq_bind, Option.bind_eq_some_iff] at done
    obtain ⟨⟨mid, entry⟩, first, ⟨last, others⟩, run, done⟩ := done
    cases done
    have accounts := transact_accounts first
    obtain ⟨balanced, bounded, full⟩ := ih run
    refine ⟨?_, ?_, ?_⟩
    · have due := accounts.due
      have fees := accounts.fees
      rw [accounts.later] at balanced
      simp only [totalCollected, totalLost, elapsedFees, List.map_cons, List.sum_cons] at balanced ⊢
      omega
    · intro other member
      rcases List.mem_cons.mp member with rfl | later
      · exact accounts.collected
      · exact bounded other later
    · rw [List.forall_mem_cons, accounts.full, full, CoveredThroughout]
      refine and_congr_right fun _ => ⟨fun later after entry done => ?_, fun later => later mid entry first⟩
      obtain ⟨rfl, -⟩ := Prod.mk.inj (Option.some.inj (first.symm.trans done))
      exact later

theorem totalLost_eq_zero (bounded : ∀ entry ∈ entries, entry.collected ≤ entry.fees) :
    totalLost entries = 0 ↔ ∀ entry ∈ entries, entry.collected = entry.fees := by
  have lost : ∀ d ∈ entries.map fun entry => entry.fees - entry.collected, 0 ≤ d := by
    intro d member
    obtain ⟨entry, inside, rfl⟩ := List.mem_map.mp member
    exact sub_nonneg.mpr (bounded entry inside)
  constructor
  · intro none entry inside
    have zero := List.all_zero_of_le_zero_le_of_sum_eq_zero lost none (List.mem_map_of_mem inside)
    omega
  · intro full
    refine List.sum_eq_zero fun d member => ?_
    obtain ⟨entry, inside, rfl⟩ := List.mem_map.mp member
    have paid := full entry inside
    omega

/-- The debt is accounted for exactly in those runs in which every transaction finds a balance that covers its fee. -/
theorem debt_kept_iff {s after : Stored} {events : List Event} {entries : List Entry}
    (done : transactAll cellHash s events = some (after, entries)) :
    totalCollected entries + after.account.duePayment =
      elapsedFees s.account s.lastPaid s.storageStat events + s.account.duePayment ↔
    CoveredThroughout cellHash s events := by
  obtain ⟨balanced, bounded, full⟩ := transactAll_accounts done
  rw [← full, ← totalLost_eq_zero bounded]
  omega

/-- No charge for gas or messages, and a nanogram for each cell and second of storage. -/
def sampleEvent (now : Nat) : Event where
  storedUninit := false
  now := now
  occasion := .message (.int {
    ihrDisabled := true, bounce := false, src := .none, value := ⟨0, none⟩, ihrFee := 0, createdLt := 5
    extraCells := 0, extraBits := 0 }) none false
  pricing := [⟨1, 0, 65536, 0, 65536⟩]
  forceCollect := true
  storageCfg := { freezeDueLimit := 100, deleteDueLimit := 1000 }
  gasCfg := { gasLimit := 10000, specialGasLimit := 10000, gasCredit := 0, gasPrice := 65536, flatGasLimit := 0
              flatGasPrice := 0 }
  cfg := { maxActions := 255, mcPrices := ⟨0, 0, 0, 0, 0⟩, basePrices := ⟨0, 0, 0, 0, 0⟩
           workchains := fun _ => none }
  reqStartLt := 11
  vm := { newLimit := none, consumed := 0, committed := true, newData := none, actions := ⟨[], false⟩ }
  storageStat := ⟨1, 0⟩

/-- An active account of one cell, paid up to time 100. -/
def sampleStored (balance : Grams) : Stored where
  account := {
    addr := 7, myAddr := .none, myAddrExact := .none, isMasterchain := false, isSpecial := false, status := .active
    balance := ⟨balance, none⟩, duePayment := 0, code := none, data := none, library := Dict.empty
    lastTransEndLt := 10 }
  lastPaid := 100
  storageStat := ⟨1, 0⟩

/-- A balance that covers the fees of both transactions. -/
theorem debt_kept_covered :
    ∃ after entries, transactAll (fun _ => 0) (sampleStored 100) [sampleEvent 110, sampleEvent 125] =
        some (after, entries) ∧
      totalCollected entries + after.account.duePayment =
        elapsedFees (sampleStored 100).account 100 ⟨1, 0⟩ [sampleEvent 110, sampleEvent 125] + 0 := by
  have ran : (transactAll (fun _ => 0) (sampleStored 100) [sampleEvent 110, sampleEvent 125]).isSome = true := by
    decide +kernel
  obtain ⟨⟨after, entries⟩, done⟩ := Option.isSome_iff_exists.mp ran
  refine ⟨after, entries, done, (debt_kept_iff done).mpr ⟨?_, fun mid entry first => ⟨?_, fun _ _ _ => trivial⟩⟩⟩
  · decide +kernel
  · have second : (transact (fun _ => 0) (sampleStored 100) (sampleEvent 110)).all
        (fun run => Covered run.1 (sampleEvent 125)) = true := by decide +kernel
    rw [first] at second
    exact of_decide_eq_true second

/-- The second fee of 15 meets a balance of 2: the other 13 are neither collected nor recorded. -/
theorem debt_forgotten :
    (transactAll (fun _ => 0) (sampleStored 12) [sampleEvent 110, sampleEvent 125]).map
      (fun run => (totalCollected run.2, (run.1.account.duePayment : Int))) = some (12, 0) ∧
    elapsedFees (sampleStored 12).account 100 ⟨1, 0⟩ [sampleEvent 110, sampleEvent 125] = 25 := by
  decide +kernel

end TonStaking.Guarantees.StorageDebt
