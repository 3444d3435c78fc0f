import TonStaking.Guarantees.FailedActions

/-!
# Conservation of value

What an account holds and what a message brings is, after an ordinary
transaction, in the balance, in the new messages and in the fees. A transaction
that ends always keeps this, but for a bounced message whose forwarding fee does
not fit into 63 bits. Not every transaction ends: the checks on gas fees, on an
external message with mode 128 + 32, and on sums and values too large for their
fields can fail. The conditions below are all there are.
-/
namespace TonStaking.Guarantees.ValueConservation
open Tvm Source.Currency Source.Transaction

section Definitions

variable (cellHash : Cell → Uint 256)

/-- No check fails, and a transaction that is made holds this many grams. -/
def Keeps (total : Int) (made : Checked (Option Tx)) : Prop :=
  ∃ result, made = .ok result ∧ ∀ tx, result = some tx → tx.worth = total

/-- The transaction keeps what the account had and what the message brought. -/
def Conserves (x : OrdInput) : Prop :=
  Keeps (x.account.balance.grams + x.inMsg.worth) (createOrdinaryTransaction cellHash x)

/-- A check of an internal message fails. -/
inductive InternalFails (env : ActionEnv) (st : Acting) (mode : Uint 8) (packing : Packing) (info : IntInfo)
    (value : Value) (toMc : Bool) : Prop
  /-- The extra currencies of the message and of the inbound message add up to too much. -/
  | inbound (some64 : mode.val.testBit 7 = false ∧ mode.val.testBit 6 = true) (pays : mode.val.testBit 0 = true)
      (beyond : Overflows value.extra st.tx.msgBalanceRemaining.extra)
  /-- The value does not fit into its field. -/
  | value {req : Funds} {settled : Settled} (asked : request env st mode value = .ok (some req))
      (paid : settle st.ap.remainingBalance mode req (messageFees env toMc packing info) = .ok settled)
      (large : 2 ^ 120 ≤ settled.value.grams)

/-- An external message with mode 128 + 32 takes no more than its fee, and something is left. -/
structure ExternalFails (env : ActionEnv) (st : Acting) (mode : Uint 8) (packing : Packing) (toMc : Bool) : Prop where
  all : mode.val.testBit 7 = true ∧ mode.val.testBit 5 = true
  covered : raiseFee 0 (computedFees env toMc packing true).1 ≤ st.ap.remainingBalance.grams
  packed : packing.fits = true ∧ packing.valid = true
  left : st.ap.remainingBalance ≠ ⟨raiseFee 0 (computedFees env toMc packing true).1, none⟩

/-- One attempt to send a message fails. -/
inductive AttemptFails (env : ActionEnv) (st : Acting) (mode : Uint 8) (outMsg : Message) (redoing : Nat) : Prop
  | int {info : IntInfo} {value : Value} {dest : MsgAddress} {toMc : Bool} (valid : invalidMode mode = false)
      (message : outMsg.info = .int info) (worth : info.value = some value)
      (checked : checkedDest env mode info.src info.dest (outMsg.packing (redoLevel redoing outMsg)) = .ok (dest, toMc))
      (fails : InternalFails env st mode (outMsg.packing (redoLevel redoing outMsg)) info value toMc)
  | ext {info : ExtInfo} {dest : MsgAddress} {toMc : Bool} (valid : invalidMode mode = false)
      (message : outMsg.info = .ext info)
      (checked : checkedDest env mode info.src info.dest (outMsg.packing (redoLevel redoing outMsg)) = .ok (dest, toMc))
      (fails : ExternalFails env st mode (outMsg.packing (redoLevel redoing outMsg)) toMc)

/-- The attempts that are made to send a message. -/
inductive Attempt (env : ActionEnv) (st : Acting) (mode : Uint 8) (outMsg : Message) : Nat → Prop
  | first : Attempt env st mode outMsg 0
  | again {redoing : Nat} (before : Attempt env st mode outMsg redoing) (more : redoing < 2)
      (unpacked : tryActionSendMsg env st mode outMsg redoing = .ok (st, -2)) : Attempt env st mode outMsg (redoing + 1)

/-- The sum of what is reserved is too large. -/
structure ReserveFails (st : Acting) (mode : Uint 8) (currency : Option Value) : Prop where
  valid : mode.val < 16
  overflow : ∃ amount reserve extra, currency = some amount ∧
    reserveAmount st.tx.originalBalance mode amount.funds = some reserve ∧
    (mode.val.testBit 1 = true ∨ reserve.grams ≤ st.ap.remainingBalance.grams) ∧
    Extra.sub st.ap.remainingBalance.extra reserve.extra = some extra ∧
    Overflows st.ap.reservedBalance.extra (if mode.val.testBit 0 then extra else reserve.extra)

/-- An action fails a check. -/
inductive ActionFails (env : ActionEnv) (st : Acting) : Action → Prop
  | send {mode : Uint 8} {outMsg : Message} {redoing : Nat} (attempt : Attempt env st mode outMsg redoing)
      (fails : AttemptFails env st mode outMsg redoing) : ActionFails env st (.sendMsg mode outMsg)
  | reserve {mode : Uint 8} {currency : Option Value} (fails : ReserveFails st mode currency) :
      ActionFails env st (.reserveCurrency mode currency)

/-- Some action of a list fails a check, or the sum of the balances after all of them. -/
inductive ActionsFail (env : ActionEnv) : Acting → List Action → Prop
  | here {st : Acting} {a : Action} {rest : List Action} (fails : ActionFails env st a) :
      ActionsFail env st (a :: rest)
  | later {st next : Acting} {a : Action} {rest : List Action} (done : tryAction cellHash env st a = .ok (next, 0))
      (fails : ActionsFail env next rest) : ActionsFail env st (a :: rest)
  | total {st : Acting} (beyond : Overflows st.ap.remainingBalance.extra st.ap.reservedBalance.extra) :
      ActionsFail env st []

/-- What is collected of the forwarding fee of a bounced message. -/
def collectedPart (x : OrdInput) (toMc : Bool) (fwdFees : Nat) : Nat :=
  ((x.cfg.fetchMsgPrices (toMc || x.account.isMasterchain)).getFirstPart fwdFees).toNat

/-- The fee or the value of a bounced message does not fit. -/
structure BounceFails (x : OrdInput) (m : IntMsg) (tx : Tx) (gasFees : Int) : Prop where
  large : ∃ dest toMc b, checkRewriteDestAddr x.cfg x.account m.src = some (dest, toMc) ∧
    bounceFunds x m toMc tx gasFees = some b ∧
    (2 ^ 63 ≤ b.fwdFees ∧ collectedPart x toMc b.fwdFees < 2 ^ 63 ∨
      2 ^ 120 ≤ b.msgBalance.grams - toLong b.fwdFees)

/-- The machine runs, with the account as it is after the storage and credit phases. -/
structure Runs (x : OrdInput) (start : Tx) : Prop where
  prepared : (unpackInputMsg x (newTx x)).bind (prepareMoney x) = some start
  funded : 0 < start.balance.grams
  gas : ¬ ((computeGasLimits x (chargeOriginal start)).gasLimit = 0 ∧
    (computeGasLimits x (chargeOriginal start)).gasCredit = 0)
  loaded : (loadState x.init (chargeOriginal start)).2 = true
  accepted : (finalLimits (computeGasLimits x (chargeOriginal start)) x.vm).2 = 0

/-- The transactions that do not keep all grams. -/
inductive Fails (x : OrdInput) : Prop
  /-- The account cannot pay for the gas. -/
  | gas {start : Tx} (runs : Runs x start) (ordinary : x.account.isSpecial = false)
      (short : start.balance.grams <
        x.gasCfg.computeGasPrice (gasUsed (computeGasLimits x (chargeOriginal start)) x.vm))
  | action {tx : Tx} {gasFees : Int} {actions : List Action} (acts : Acts x tx gasFees)
      (list : x.vm.actions.actions x.cfg.maxActions = .ok actions)
      (fails : ActionsFail cellHash (actionEnv x gasFees) (beginActions tx) actions)
  | bounce {m : IntMsg} {start tx : Tx} {computed : Computed} (message : x.inMsg = .int m) (bounces : m.bounce = true)
      (prepared : (unpackInputMsg x (newTx x)).bind (prepareMoney x) = some start)
      (ended : prepareComputePhase x start = .ok (tx, computed))
      (failed : computed = .skipped ∨ ∃ gasFees, computed = .ran false gasFees)
      (fails : BounceFails x m tx computed.fees)

end Definitions

section Crashes

variable {α β : Type} {condition : Prop} {failure : Failure}

/-- The computation ends in a failed check. -/
def Crashes (c : Checked α) : Prop := ∃ failure, c = .error failure

@[simp] theorem not_crashes_ok (a : α) : ¬ Crashes (.ok a) := fun ⟨_, h⟩ => by cases h

@[simp] theorem crashes_error (failure : Failure) : Crashes (.error failure : Checked α) := ⟨failure, rfl⟩

@[simp] theorem crashes_check [Decidable condition] : Crashes (check failure condition) ↔ ¬ condition := by
  unfold check
  split
  · next holds => simp [holds]
  · next fails => simp [fails]

theorem crashes_bind {step : Checked α} {next : α → Checked β} :
    Crashes (step >>= next) ↔ Crashes step ∨ ∃ a, step = .ok a ∧ Crashes (next a) := by
  cases step with
  | error e => exact iff_of_true (crashes_error e) (.inl (crashes_error e))
  | ok a =>
    constructor
    · intro h
      exact .inr ⟨a, rfl, h⟩
    · rintro (h | ⟨_, same, h⟩)
      · exact absurd h (not_crashes_ok a)
      · cases same
        exact h

/-- After a check that passes, the rest decides. -/
theorem crashes_check_bind [Decidable condition] {next : Unit → Checked β} :
    Crashes (check failure condition >>= next) ↔ ¬ condition ∨ condition ∧ Crashes (next ()) := by
  rw [crashes_bind, crashes_check]
  simp only [check_success]
  exact or_congr Iff.rfl ⟨fun h => h.elim fun _ => id, fun h => ⟨(), h⟩⟩

/-- A computation that may return at once. -/
theorem crashes_ite [Decidable condition] {a : α} {next : Checked α} :
    Crashes (if condition then .ok a else next) ↔ ¬ condition ∧ Crashes next := by
  split
  · next holds => simp [holds]
  · next fails => simp [fails]

end Crashes

section Sending

variable {env : ActionEnv} {st : Acting} {mode : Uint 8} {level : Nat} {packing : Packing} {dest : MsgAddress}
  {toMc : Bool} {outMsg : Message} {value : Value}

theorem appendMsg_crashes {msg : OutMessage} {collected : Int} :
    Crashes (appendMsg st mode msg collected) ↔
      (mode.val.testBit 7 = true ∧ mode.val.testBit 5 = true) ∧ st.ap.remainingBalance ≠ .zero := by
  unfold appendMsg
  dsimp only
  split
  · next all =>
    rw [crashes_check_bind]
    simp [all, Funds.isZero_iff]
  · next all => simp [all]

theorem request_crashes :
    Crashes (request env st mode value) ↔
      (mode.val.testBit 7 = false ∧ mode.val.testBit 6 = true) ∧ mode.val.testBit 0 = true ∧
        Overflows value.extra st.tx.msgBalanceRemaining.extra := by
  unfold request
  generalize mode.val.testBit 7 = all, mode.val.testBit 6 = inbound, mode.val.testBit 0 = pays
  cases all <;> cases inbound <;> simp only [if_true, if_false, not_crashes_ok, false_and, true_and, reduceCtorEq]
  cases added : value.funds.add st.tx.msgBalanceRemaining with
  | none =>
    have beyond : Overflows value.extra st.tx.msgBalanceRemaining.extra := add_none_iff.mp (Funds.add_none.mp added)
    cases pays <;> simp [beyond]
  | some sum =>
    have fits : ¬ Overflows value.extra st.tx.msgBalanceRemaining.extra := by
      intro beyond
      rw [Funds.add_none.mpr (add_none_iff.mpr beyond)] at added
      cases added
    cases pays <;> simp [fits]

theorem settle_all {remaining : Funds} {fees : Fees} {settled : Settled} (all : mode.val.testBit 7 = true)
    (nonneg : 0 ≤ remaining.grams) (paid : settle remaining mode remaining fees = .ok settled) :
    (⟨remaining.grams - settled.brutto, settled.newExtra⟩ : Funds) = .zero := by
  obtain ⟨-, -, -, taken, brutto⟩ := settle_success nonneg paid
  have whole : settled.brutto = remaining.grams := brutto (by simp [paysFees, all])
  rw [sub_self] at taken
  rw [whole, ← Option.some.inj taken, Int.sub_self]
  rfl

theorem packInternal_crashes {info : IntInfo} (sane : Sane st) :
    Crashes (packInternal env st level mode packing info value dest toMc) ↔
      InternalFails env st mode packing info value toMc := by
  obtain ⟨fwd, ihr⟩ := messageFees_fits env toMc packing info
  unfold packInternal
  rw [crashes_bind, request_crashes]
  constructor
  · rintro (⟨inbound, pays, beyond⟩ | ⟨requested, asked, crashes⟩)
    · exact .inbound inbound pays beyond
    · cases requested with
      | none => exact absurd crashes (not_crashes_ok _)
      | some req =>
        dsimp only at crashes
        split at crashes
        · exact absurd crashes (not_crashes_ok _)
        rename_i settled paid
        obtain ⟨nonneg, whole⟩ := request_success sane asked
        obtain ⟨-, valueNonneg, -, -, -⟩ := settle_success nonneg paid
        rcases crashes_check_bind.mp crashes with large | ⟨-, crashes⟩
        · exact .value asked paid (not_lt.mp fun small => large ⟨valueNonneg, small⟩)
        exfalso
        rcases crashes_check_bind.mp crashes with unfit | ⟨-, crashes⟩
        · obtain ⟨mineNonneg, mine⟩ :=
            getFirstPart_bounds (env.cfg.fetchMsgPrices (toMc || env.account.isMasterchain)) fwd.1
          have below := fwd.2
          exact unfit ⟨⟨by omega, by omega⟩, ihr⟩
        · obtain ⟨⟨all, -⟩, left⟩ := appendMsg_crashes.mp (crashes_ite.mp (crashes_ite.mp crashes).2).2
          rw [whole all] at paid
          exact left (settle_all all sane.remaining paid)
  · rintro (⟨inbound, pays, beyond⟩ | ⟨asked, paid, large⟩)
    · exact .inl ⟨inbound, pays, beyond⟩
    · refine .inr ⟨_, asked, ?_⟩
      dsimp only
      rw [paid]
      exact crashes_check_bind.mpr (.inl fun fits => absurd fits.2 (not_lt.mpr large))

theorem packExternal_crashes :
    Crashes (packExternal env st level mode packing dest toMc) ↔ ExternalFails env st mode packing toMc := by
  have left (fee : Int) :
      ({ st.ap.remainingBalance with grams := st.ap.remainingBalance.grams - fee } : Funds) = .zero ↔
        st.ap.remainingBalance = ⟨fee, none⟩ := by
    simp [Funds.ext_iff, Int.sub_eq_zero]
  unfold packExternal
  rw [crashes_ite, crashes_ite, crashes_ite, appendMsg_crashes]
  constructor
  · rintro ⟨covered, fits, valid, all, rest⟩
    exact ⟨all, not_lt.mp covered, ⟨by simpa using fits, by simpa using valid⟩, fun same => rest ((left _).mpr same)⟩
  · rintro ⟨all, covered, ⟨fits, valid⟩, rest⟩
    exact ⟨not_lt.mpr covered, by simp [fits], by simp [valid], all, fun same => rest ((left _).mp same)⟩

theorem tryActionSendMsg_crashes {redoing : Nat} (sane : Sane st) :
    Crashes (tryActionSendMsg env st mode outMsg redoing) ↔ AttemptFails env st mode outMsg redoing := by
  unfold tryActionSendMsg
  rw [crashes_ite]
  constructor
  · rintro ⟨valid, crashes⟩
    dsimp only at crashes
    split at crashes
    · next info message =>
      split at crashes
      · exact absurd crashes (not_crashes_ok _)
      · next dest toMc checked =>
        exact .ext (by simpa using valid) message checked (packExternal_crashes.mp crashes)
    · next info message =>
      split at crashes
      · exact absurd crashes (not_crashes_ok _)
      rename_i value worth
      split at crashes
      · exact absurd crashes (not_crashes_ok _)
      · next dest toMc checked =>
        exact .int (by simpa using valid) message worth checked ((packInternal_crashes sane).mp crashes)
  · rintro (⟨valid, message, worth, checked, fails⟩ | ⟨valid, message, checked, fails⟩)
    · simp only [valid, message, worth, checked]
      exact ⟨Bool.false_ne_true, (packInternal_crashes sane).mpr fails⟩
    · simp only [valid, message, checked]
      exact ⟨Bool.false_ne_true, packExternal_crashes.mpr fails⟩

/-- A message is sent from one of its attempts, and each one starts from the same state. -/
theorem sendMsg_crashes (sane : Sane st) :
    Crashes (sendMsg env st mode outMsg) ↔
      ∃ redoing, Attempt env st mode outMsg redoing ∧ AttemptFails env st mode outMsg redoing := by
  unfold sendMsg
  constructor
  · intro crashes
    rcases crashes_bind.mp crashes with now | ⟨⟨first, code⟩, one, rest⟩
    · exact ⟨0, .first, (tryActionSendMsg_crashes sane).mp now⟩
    clear crashes
    dsimp only at rest
    split at rest
    · next again =>
      subst again
      obtain rfl := (tryActionSendMsg_attempted one).2 rfl
      rcases crashes_bind.mp rest with now | ⟨⟨second, code⟩, two, last⟩
      · exact ⟨1, .again .first (by decide) one, (tryActionSendMsg_crashes sane).mp now⟩
      clear rest
      split at last
      · next again =>
        subst again
        obtain rfl := (tryActionSendMsg_attempted two).2 rfl
        exact ⟨2, .again (.again .first (by decide) one) (by decide) two, (tryActionSendMsg_crashes sane).mp last⟩
      · exact absurd last (not_crashes_ok _)
    · exact absurd rest (not_crashes_ok _)
  · rintro ⟨redoing, attempt, fails⟩
    have crashes := (tryActionSendMsg_crashes sane).mpr fails
    rw [crashes_bind]
    cases attempt with
    | first => exact .inl crashes
    | again before more one =>
      cases before with
      | first => exact .inr ⟨_, one, crashes_bind.mpr (.inl crashes)⟩
      | again before _ two =>
        cases before with
        | first => exact .inr ⟨_, two, crashes_bind.mpr (.inr ⟨_, one, crashes⟩)⟩
        | again => omega

variable {cellHash : Cell → Uint 256}
variable {newData : Option Cell} {tx : Tx} {list : ActionList}

theorem reserveFunds_crashes {reserve : Funds} :
    Crashes (reserveFunds st mode reserve) ↔
      (mode.val.testBit 1 = true ∨ reserve.grams ≤ st.ap.remainingBalance.grams) ∧
        ∃ extra, Extra.sub st.ap.remainingBalance.extra reserve.extra = some extra ∧
          Overflows st.ap.reservedBalance.extra (if mode.val.testBit 0 then extra else reserve.extra) := by
  have refused (put : Funds) :
      st.ap.reservedBalance.add put = none ↔ Overflows st.ap.reservedBalance.extra put.extra :=
    Funds.add_none.trans add_none_iff
  unfold reserveFunds
  dsimp only
  generalize mode.val.testBit 1 = reduce, mode.val.testBit 0 = swap
  split
  · next short =>
    obtain ⟨more, strict⟩ := short
    simp [strict, not_le.mpr more]
  rename_i covered
  have enough : reduce = true ∨ reserve.grams ≤ st.ap.remainingBalance.grams := by
    cases reduce with
    | true => exact .inl rfl
    | false => exact .inr (not_lt.mp fun more => covered ⟨more, rfl⟩)
  cases taken : Extra.sub st.ap.remainingBalance.extra reserve.extra with
  | none => simp
  | some extra =>
    have put (a b : Int) : (if swap = true then ((⟨a, reserve.extra⟩ : Funds), (⟨b, extra⟩ : Funds))
        else (⟨b, extra⟩, ⟨a, reserve.extra⟩)).2.extra = if swap = true then extra else reserve.extra := by
      cases swap <;> rfl
    simp only [enough, true_and, Option.some.injEq, exists_eq_left']
    rw [← put (min reserve.grams st.ap.remainingBalance.grams)
      (st.ap.remainingBalance.grams - min reserve.grams st.ap.remainingBalance.grams), ← refused]
    split
    · next failed => exact iff_of_true (crashes_error _) failed
    · next sum summed => exact iff_of_false (not_crashes_ok _) (by rw [summed]; exact Option.some_ne_none _)

theorem tryActionReserveCurrency_crashes {currency : Option Value} :
    Crashes (tryActionReserveCurrency st mode currency) ↔ ReserveFails st mode currency := by
  unfold tryActionReserveCurrency
  rw [crashes_ite]
  constructor
  · rintro ⟨valid, crashes⟩
    split at crashes
    · exact absurd crashes (not_crashes_ok _)
    rename_i amount
    split at crashes
    · exact absurd crashes (not_crashes_ok _)
    rename_i reserve asked
    obtain ⟨covered, extra, taken, beyond⟩ := reserveFunds_crashes.mp crashes
    exact ⟨not_le.mp valid, amount, reserve, extra, rfl, asked, covered, taken, beyond⟩
  · rintro ⟨valid, amount, reserve, extra, rfl, asked, covered, taken, beyond⟩
    simp only [asked]
    exact ⟨not_le.mpr valid, reserveFunds_crashes.mpr ⟨covered, extra, taken, beyond⟩⟩

theorem tryAction_crashes {a : Action} (sane : Sane st) :
    Crashes (tryAction cellHash env st a) ↔ ActionFails env st a := by
  cases a with
  | setCode newCode | changeLibrary mode libref => exact iff_of_false (not_crashes_ok _) nofun
  | sendMsg mode outMsg =>
    refine (sendMsg_crashes sane).trans ⟨fun ⟨_, attempt, fails⟩ => .send attempt fails, fun fails => ?_⟩
    cases fails with
    | send attempt fails => exact ⟨_, attempt, fails⟩
  | reserveCurrency mode currency =>
    refine tryActionReserveCurrency_crashes.trans ⟨.reserve, fun fails => ?_⟩
    cases fails with
    | reserve fails => exact fails

/-- What is left after all actions is valid unless a currency has too much. -/
theorem finishActions_crashes (sane : Sane st) :
    Crashes (finishActions st newData) ↔ Overflows st.ap.remainingBalance.extra st.ap.reservedBalance.extra := by
  rw [← add_none_iff, ← Funds.add_none]
  unfold finishActions
  split
  · next refused => simp [refused]
  rename_i balance summed
  have deleted (delete : st.ap.accDeleteReq = true) : balance.isZero = true := by
    obtain ⟨remaining, reserved⟩ := sane.deleted delete
    rw [remaining, reserved] at summed
    cases summed
    rfl
  refine iff_of_false (fun crashes => ?_) (by simp [summed])
  rcases crashes_check_bind.mp crashes with negative | ⟨-, crashes⟩
  · exact negative ⟨sane.remaining, sane.reserved⟩
  rcases crashes_check_bind.mp crashes with nonzero | ⟨-, crashes⟩
  · exact nonzero deleted
  · exact not_crashes_ok _ crashes

theorem tryActions_crashes {actions : List Action} (sane : Sane st) :
    (Crashes (tryActions cellHash env st actions) ∨
      ∃ after, tryActions cellHash env st actions = .ok (after, 0) ∧ Crashes (finishActions after newData)) ↔
      ActionsFail cellHash env st actions := by
  induction actions generalizing st with
  | nil =>
    constructor
    · rintro (crashes | ⟨after, done, crashes⟩)
      · exact absurd crashes (not_crashes_ok _)
      · cases done
        exact .total ((finishActions_crashes sane).mp crashes)
    · intro fails
      cases fails with
      | total beyond => exact .inr ⟨st, rfl, (finishActions_crashes sane).mpr beyond⟩
  | cons a rest ih =>
    have saneNext {next : Acting} (one : tryAction cellHash env st a = .ok (next, 0)) : Sane next :=
      ((tryAction_attempted one).kept rfl sane).1
    have step {next : Acting} (one : tryAction cellHash env st a = .ok (next, 0)) :
        tryActions cellHash env st (a :: rest) = tryActions cellHash env next rest := by
      simp only [tryActions, one]
      rfl
    constructor
    · rintro (crashes | ⟨after, done, crashes⟩)
      · rcases crashes_bind.mp crashes with now | ⟨⟨next, code⟩, one, later⟩
        · exact .here ((tryAction_crashes sane).mp now)
        dsimp only at later
        split at later
        · next success =>
          subst success
          exact .later one ((ih (saneNext one)).mp (.inl later))
        · exact absurd later (not_crashes_ok _)
      · obtain ⟨⟨next, code⟩, one, later⟩ := of_bind done
        dsimp only at later
        split at later
        · next success =>
          subst success
          exact .later one ((ih (saneNext one)).mp (.inr ⟨after, later, crashes⟩))
        · next failure =>
          have code := (Prod.mk.inj (Except.ok.inj later)).2
          split at code
          · cases code
          · exact absurd code failure
    · intro fails
      cases fails with
      | here now => exact .inl (crashes_bind.mpr (.inl ((tryAction_crashes sane).mpr now)))
      | later one fails =>
        rw [step one]
        exact (ih (saneNext one)).mpr fails

theorem beginActions_sane (early : Early tx) : Sane (beginActions tx) :=
  ⟨early.balance, le_refl _, early.inbound, nofun⟩

theorem prepareActionPhase_crashes (early : Early tx) :
    Crashes (prepareActionPhase cellHash env tx newData list) ↔
      ∃ actions, list.actions env.cfg.maxActions = .ok actions ∧
        ActionsFail cellHash env (beginActions tx) actions := by
  have fails (actions : List Action) :
      (Crashes (tryActions cellHash env (beginActions tx) actions) ∨
        ∃ after, tryActions cellHash env (beginActions tx) actions = .ok (after, 0) ∧
          Crashes (finishActions after newData)) ↔ ActionsFail cellHash env (beginActions tx) actions :=
    tryActions_crashes (beginActions_sane early)
  unfold prepareActionPhase
  split
  · next invalid => exact iff_of_false (not_crashes_ok _) fun ⟨_, valid, _⟩ => by cases invalid.symm.trans valid
  rename_i actions valid
  rw [crashes_bind]
  constructor
  · rintro (crashes | ⟨⟨after, code⟩, ran, crashes⟩)
    · exact ⟨actions, valid, (fails actions).mp (.inl crashes)⟩
    · dsimp only at crashes
      split at crashes
      · next success =>
        subst success
        rcases crashes_bind.mp crashes with finish | ⟨_, -, crashes⟩
        · exact ⟨actions, valid, (fails actions).mp (.inr ⟨after, ran, finish⟩)⟩
        · exact absurd crashes (not_crashes_ok _)
      · exact absurd crashes (not_crashes_ok _)
  · rintro ⟨others, same, failing⟩
    obtain rfl := Except.ok.inj (valid.symm.trans same)
    rcases (fails actions).mpr failing with crashes | ⟨after, ran, finish⟩
    · exact .inl crashes
    · exact .inr ⟨_, ran, crashes_bind.mpr (.inl finish)⟩

theorem finishActions_worth (h : finishActions st newData = .ok tx) : tx.worth = st.worth + st.tx.totalFees.grams := by
  unfold finishActions at h
  split at h
  · cases h
  rename_i balance summed
  obtain ⟨_, -, h⟩ := of_bind h
  obtain ⟨_, -, h⟩ := of_bind h
  cases h
  have total := (Funds.add_success summed).1
  simp only [Tx.worth, Acting.worth, Funds.addGrams]
  omega

/-- An action phase that ends, with or without an error, keeps all grams. -/
theorem prepareActionPhase_worth {after : Tx} {code : Int} (early : Early tx)
    (h : prepareActionPhase cellHash env tx newData list = .ok (after, code)) :
    after.worth = tx.worth := by
  unfold prepareActionPhase at h
  split at h
  · cases h
    rfl
  obtain ⟨⟨st, code⟩, ran, h⟩ := of_bind h
  have attempted := tryActions_attempted ran
  dsimp only at h
  split at h
  · next success =>
    obtain ⟨done, finished, h⟩ := of_bind h
    cases h
    have kept := (attempted.kept success (beginActions_sane early)).2
    have fees : st.tx.totalFees = tx.totalFees := by rw [attempted.framed]; rfl
    rw [finishActions_worth finished, kept, fees]
    simp only [Tx.worth, Acting.worth, beginActions, early.noMsgs, Funds.zero_grams]
    omega
  · cases h
    rw [attempted.framed]
    rfl

variable {x : OrdInput} {m : IntMsg} {gasFees total : Int} {b : Bounced}

@[simp] theorem keeps_some : Keeps total (.ok (some tx)) ↔ tx.worth = total := by
  constructor
  · rintro ⟨result, same, kept⟩
    cases same
    exact kept tx rfl
  · intro kept
    refine ⟨some tx, rfl, ?_⟩
    rintro _ ⟨⟩
    exact kept

@[simp] theorem keeps_none : Keeps total (.ok none) := ⟨none, rfl, fun _ made => by cases made⟩

theorem Crashes.not_keeps {made : Checked (Option Tx)} (crashes : Crashes made) : ¬ Keeps total made := by
  rintro ⟨result, done, -⟩
  rw [done] at crashes
  exact not_crashes_ok _ crashes

theorem collectedPart_le (x : OrdInput) (toMc : Bool) (fwdFees : Nat) : collectedPart x toMc fwdFees ≤ fwdFees := by
  have bounds := getFirstPart_bounds (x.cfg.fetchMsgPrices (toMc || x.account.isMasterchain))
    (Int.natCast_nonneg fwdFees)
  unfold collectedPart
  omega

theorem bounceFunds_success {toMc : Bool} (h : bounceFunds x m toMc tx gasFees = some b) :
    b.fwdFees < 2 ^ 64 ∧ b.msgBalance = ⟨tx.msgBalanceRemaining.grams - gasFees, tx.msgBalanceRemaining.extra⟩ ∧
      0 ≤ b.msgBalance.grams - toLong b.fwdFees := by
  unfold bounceFunds at h
  dsimp only at h
  split at h
  · cases h
  split at h
  · cases h
  rename_i nonneg enough
  cases h
  have word := computeFwdFees_lt (x.cfg.fetchMsgPrices (toMc || x.account.isMasterchain)) m.extraCells m.extraBits
  have small := toLong_lt word
  refine ⟨word, rfl, ?_⟩
  dsimp only
  omega

theorem prepareBouncePhase_keeps (grams : tx.msgBalanceRemaining.grams - gasFees ≤ tx.balance.grams)
    (extra : ∀ id, Extra.amount tx.msgBalanceRemaining.extra id ≤ Extra.amount tx.balance.extra id) :
    Keeps tx.worth (prepareBouncePhase x m tx gasFees) ↔ ¬ BounceFails x m tx gasFees := by
  unfold prepareBouncePhase
  cases addressed : checkRewriteDestAddr x.cfg x.account m.src with
  | none => exact iff_of_true keeps_none fun ⟨_, _, _, other, _⟩ => by cases addressed.symm.trans other
  | some target =>
    obtain ⟨dest, toMc⟩ := target
    dsimp only
    cases funded : bounceFunds x m toMc tx gasFees with
    | none =>
      refine iff_of_true (keeps_some.mpr rfl) ?_
      rintro ⟨_, _, _, other, enough, _⟩
      cases addressed.symm.trans other
      cases funded.symm.trans enough
    | some b =>
      obtain ⟨word, same, valueNonneg⟩ := bounceFunds_success funded
      -- the account can give back what is left of the inbound value
      obtain ⟨balance, taken, left⟩ : ∃ balance, tx.balance.sub b.msgBalance = some balance ∧
          balance.grams = tx.balance.grams - b.msgBalance.grams := by
        obtain ⟨rest, taken, -⟩ := Extra.sub_of_le extra
        refine ⟨⟨tx.balance.grams - b.msgBalance.grams, rest⟩, ?_, rfl⟩
        unfold Funds.sub
        rw [same]
        simp only [taken]
        rw [if_neg (by omega)]
      have part := collectedPart_le x toMc b.fwdFees
      -- the fee and its two parts agree as signed words
      have agree : 0 ≤ toLong (b.fwdFees - collectedPart x toMc b.fwdFees) ∧ toLong b.fwdFees =
          toLong (b.fwdFees - collectedPart x toMc b.fwdFees) + toLong (collectedPart x toMc b.fwdFees) ↔
          ¬ (2 ^ 63 ≤ b.fwdFees ∧ collectedPart x toMc b.fwdFees < 2 ^ 63) := by
        unfold toLong
        split <;> split <;> split <;> omega
      have fails : BounceFails x m tx gasFees ↔ 2 ^ 63 ≤ b.fwdFees ∧ collectedPart x toMc b.fwdFees < 2 ^ 63 ∨
          2 ^ 120 ≤ b.msgBalance.grams - toLong b.fwdFees := by
        constructor
        · rintro ⟨_, _, _, other, enough, large⟩
          cases addressed.symm.trans other
          cases funded.symm.trans enough
          exact large
        · intro large
          exact ⟨dest, toMc, b, addressed, funded, large⟩
      have part : ((x.cfg.fetchMsgPrices (toMc || x.account.isMasterchain)).getFirstPart b.fwdFees).toNat =
          collectedPart x toMc b.fwdFees := rfl
      simp only [taken, fails, part]
      split
      · next fits =>
        obtain ⟨⟨-, small⟩, positive⟩ := fits
        rw [keeps_some]
        simp only [Tx.worth, Funds.addGrams, List.map_append, List.sum_append, List.map_cons, List.map_nil, List.sum_cons,
          List.sum_nil, OutMessage.carried]
        omega
      · next unfit =>
        refine iff_of_false (Crashes.not_keeps (crashes_error _)) fun small => ?_
        obtain ⟨fee, value⟩ := not_or.mp small
        exact unfit ⟨⟨valueNonneg, not_le.mp value⟩, (agree.mpr fee).1⟩

variable {start : Tx} {computed : Computed}

section Prepared

variable (prepared : (unpackInputMsg x (newTx x)).bind (prepareMoney x) = some start)

include prepared

/-- The compute phase fails a check exactly if the gas cannot be paid. -/
theorem prepareComputePhase_crashes :
    Crashes (prepareComputePhase x start) ↔
      Runs x start ∧ x.account.isSpecial = false ∧ start.balance.grams <
        x.gasCfg.computeGasPrice (gasUsed (computeGasLimits x (chargeOriginal start)) x.vm) := by
  have loadedBalance : (loadState x.init (chargeOriginal start)).1.balance.grams = start.balance.grams := by
    have loaded := (chargeOriginal_computes start).after_free (loadState_computes x.init (chargeOriginal start)).1
    rw [loaded.grams, sub_zero]
  unfold prepareComputePhase
  dsimp only
  split
  · next idle =>
    refine iff_of_false (not_crashes_ok _) fun ⟨runs, _⟩ => ?_
    rcases idle with empty | none
    · exact absurd runs.funded (not_lt.mpr empty)
    · exact runs.gas none
  rename_i active
  obtain ⟨funded, gas⟩ := not_or.mp active
  cases loaded : loadState x.init (chargeOriginal start) with
  | mk tx ready =>
    rw [loaded] at loadedBalance
    dsimp only at loadedBalance
    cases ready with
    | false => exact iff_of_false (not_crashes_ok _) fun ⟨runs, _⟩ => by cases (congrArg Prod.snd loaded).symm.trans runs.loaded
    | true =>
      dsimp only
      unfold runMachine
      split
      · next rejected => exact iff_of_false (not_crashes_ok _) fun ⟨runs, _⟩ => rejected runs.accepted
      rename_i accepted
      have runs : Runs x start := ⟨prepared, not_le.mp funded, gas, congrArg Prod.snd loaded, not_not.mp accepted⟩
      have unpaid (fees : Int) : tx.balance.subGrams fees = none ↔ start.balance.grams < fees := by
        simp [Funds.subGrams, loadedBalance]
      dsimp only
      split
      · next short =>
        rw [unpaid] at short
        refine iff_of_true (crashes_error _) ⟨runs, ?_⟩
        cases special : x.account.isSpecial with
        | true =>
          simp only [special] at short
          exact absurd short (not_lt.mpr (le_of_lt runs.funded))
        | false =>
          simp only [special] at short
          exact ⟨rfl, short⟩
      · next paid =>
        refine iff_of_false (not_crashes_ok _) fun ⟨_, ordinary, short⟩ => ?_
        simp only [ordinary, Bool.false_eq_true, if_false] at paid
        rw [(unpaid _).mpr short] at paid
        cases paid

variable (ended : prepareComputePhase x start = .ok (tx, computed))
include ended

/-- The bounce phase after a compute phase that has failed. -/
theorem bounce_keeps {m : IntMsg} (message : x.inMsg = .int m) (bounces : m.bounce = true) :
    Keeps (x.account.balance.grams + x.inMsg.worth) (prepareBouncePhase x m tx computed.fees) ↔
      ¬ BounceFails x m tx computed.fees := by
  obtain ⟨unpacked, received, prepared⟩ := Option.bind_eq_some_iff.mp prepared
  obtain ⟨-, worth, holds⟩ := prepareMoney_early received prepared
  obtain ⟨grams, extra⟩ := holds (by rw [message]; exact bounces)
  have computes := (prepareComputePhase_computes ended).1
  rw [← worth, ← computes.worth]
  apply prepareBouncePhase_keeps
  · rw [computes.inbound, computes.grams]
    omega
  · intro id
    rw [computes.inbound, computes.extra]
    exact extra id

/-- Up to the end of the compute phase all grams are kept. -/
theorem computed_worth : tx.worth = x.account.balance.grams + x.inMsg.worth := by
  obtain ⟨unpacked, received, rest⟩ := Option.bind_eq_some_iff.mp prepared
  rw [(prepareComputePhase_computes ended).1.worth]
  exact (prepareMoney_early received rest).2.1

/-- After a compute phase that has failed, a message is bounced or nothing happens. -/
theorem failed_keeps (failed : computed = .skipped ∨ ∃ gasFees, computed = .ran false gasFees) :
    Keeps (x.account.balance.grams + x.inMsg.worth) (prepareLast cellHash x tx computed) ↔
      ¬ ∃ m, x.inMsg = .int m ∧ m.bounce = true ∧ BounceFails x m tx computed.fees := by
  have worth := computed_worth prepared ended
  cases message : x.inMsg with
  | ext cells bits =>
    refine iff_of_true ?_ fun ⟨_, other, _⟩ => by cases other
    rw [message] at worth
    rcases failed with rfl | ⟨gasFees, rfl⟩
    · simp only [prepareLast, message]
      exact keeps_none
    · simp only [prepareLast, message]
      exact keeps_some.mpr worth
  | int m =>
    have last : prepareLast cellHash x tx computed =
        if m.bounce then prepareBouncePhase x m tx computed.fees else .ok (some tx) := by
      rcases failed with rfl | ⟨gasFees, rfl⟩ <;> simp [prepareLast, message, Computed.fees]
    rw [last]
    cases bounces : m.bounce with
    | true =>
      rw [if_pos rfl, ← message, bounce_keeps prepared ended message bounces]
      refine not_congr ⟨fun fails => ⟨m, message, bounces, fails⟩, fun ⟨_, other, _, fails⟩ => ?_⟩
      cases message.symm.trans other
      exact fails
    | false =>
      rw [if_neg (by decide), keeps_some, ← message]
      refine iff_of_true worth fun ⟨_, other, set, _⟩ => ?_
      cases message.symm.trans other
      cases bounces.symm.trans set

end Prepared

/-- After a success of the machine, the actions are performed. -/
theorem acted_keeps {gasFees : Int} (acts : Acts x tx gasFees) :
    Keeps (x.account.balance.grams + x.inMsg.worth) (prepareLast cellHash x tx (.ran true gasFees)) ↔
      ¬ ∃ actions, x.vm.actions.actions x.cfg.maxActions = .ok actions ∧
        ActionsFail cellHash (actionEnv x gasFees) (beginActions tx) actions := by
  obtain ⟨start, prepared, ended⟩ := acts.computed
  have crashes : Crashes (prepareActionPhase cellHash (actionEnv x gasFees) tx x.vm.newData x.vm.actions) ↔
      ∃ actions, x.vm.actions.actions x.cfg.maxActions = .ok actions ∧
        ActionsFail cellHash (actionEnv x gasFees) (beginActions tx) actions := prepareActionPhase_crashes acts.early
  rw [← crashes]
  change Keeps _ (prepareActionPhase cellHash (actionEnv x gasFees) tx x.vm.newData x.vm.actions >>= fun done =>
    .ok (some done.1)) ↔ _
  cases phase : prepareActionPhase cellHash (actionEnv x gasFees) tx x.vm.newData x.vm.actions with
  | error failure => exact iff_of_false (Crashes.not_keeps (crashes_error failure)) (not_not.mpr (crashes_error failure))
  | ok done =>
    have kept : done.1.worth = tx.worth := prepareActionPhase_worth acts.early phase
    exact iff_of_true (keeps_some.mpr (kept.trans (computed_worth prepared ended))) (not_crashes_ok _)

/-- How a transaction fails whose compute phase has ended. -/
theorem fails_after_compute (prepared : (unpackInputMsg x (newTx x)).bind (prepareMoney x) = some start)
    (ended : prepareComputePhase x start = .ok (tx, computed)) (fails : Fails cellHash x) :
    (∃ gasFees actions, computed = .ran true gasFees ∧ x.vm.actions.actions x.cfg.maxActions = .ok actions ∧
        ActionsFail cellHash (actionEnv x gasFees) (beginActions tx) actions) ∨
      (computed = .skipped ∨ ∃ gasFees, computed = .ran false gasFees) ∧
        ∃ m, x.inMsg = .int m ∧ m.bounce = true ∧ BounceFails x m tx computed.fees := by
  cases fails with
  | gas runs ordinary short =>
    cases prepared.symm.trans runs.prepared
    have crashes := (prepareComputePhase_crashes prepared).mpr ⟨runs, ordinary, short⟩
    rw [ended] at crashes
    exact absurd crashes (not_crashes_ok _)
  | action acts list fails =>
    obtain ⟨_, other, same⟩ := acts.computed
    cases prepared.symm.trans other
    cases ended.symm.trans same
    exact .inl ⟨_, _, rfl, list, fails⟩
  | bounce message bounces other same failed fails =>
    cases prepared.symm.trans other
    cases ended.symm.trans same
    exact .inr ⟨failed, _, message, bounces, fails⟩

/-- A message to the outside that takes the whole balance. -/
def emptyingInput : OrdInput :=
  FailedActions.sampleInput [.sendMsg 160 {
    info := .ext { src := .none, dest := .none }, largeInit := false
    packing := fun _ => { cells := 0, bits := 0, fits := true, valid := true } }]

end Sending

end TonStaking.Guarantees.ValueConservation
