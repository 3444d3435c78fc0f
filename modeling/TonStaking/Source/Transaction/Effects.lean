import TonStaking.Source.Transaction.Phases

/-!
# Transactions: what actions and phases do

Fees are never negative and always fit their fields. An action that leaves no
error moves grams between the remaining balance, the reserved balance, the new
messages and the collected fees; of the transaction itself it can only change
the rest of the inbound value and the libraries. The phases before the actions
move grams between the account, the inbound message and the fees.
-/
namespace TonStaking.Source.Transaction
open Tvm Currency Extra

theorem check_success {failure : Failure} {condition : Prop} [Decidable condition] {u : Unit} :
    check failure condition = .ok u ↔ condition := by
  unfold check
  split
  · next holds => exact ⟨fun _ => holds, fun _ => rfl⟩
  · next fails => exact ⟨nofun, fun holds => absurd holds fails⟩

theorem toLong_lt {x : Nat} (word : x < 2 ^ 64) : toLong x < 2 ^ 63 := by
  unfold toLong
  split <;> omega

theorem computeFwdFees_lt (p : MsgPrices) (cells bits : Nat) : p.computeFwdFees cells bits < 2 ^ 64 :=
  Nat.mod_lt _ (by decide)

theorem computedFees_lt (env : ActionEnv) (toMc : Bool) (size : Packing) (ihrDisabled : Bool) :
    (computedFees env toMc size ihrDisabled).1 < 2 ^ 64 ∧ (computedFees env toMc size ihrDisabled).2 < 2 ^ 64 := by
  unfold computedFees MsgPrices.computeFwdIhrFees
  split
  · decide
  refine ⟨computeFwdFees_lt _ _ _, ?_⟩
  dsimp only
  split
  · decide
  · exact Nat.mod_lt _ (by decide)

theorem raiseFee_fits {fee : Int} (fits : FitsGrams fee) {computed : Nat} (word : computed < 2 ^ 64) :
    FitsGrams (raiseFee fee computed) := by
  have bound := toLong_lt word
  obtain ⟨nonneg, below⟩ := fits
  unfold raiseFee
  split
  · exact ⟨by omega, by omega⟩
  · exact ⟨nonneg, below⟩

theorem grams_fits (g : Grams) : FitsGrams g := by
  exact ⟨Int.natCast_nonneg _, by omega⟩

theorem messageFees_fits (env : ActionEnv) (toMc : Bool) (size : Packing) (info : IntInfo) :
    FitsGrams (messageFees env toMc size info).fwd ∧ FitsGrams (messageFees env toMc size info).ihr := by
  obtain ⟨fwd, ihr⟩ := computedFees_lt env toMc size info.ihrDisabled
  unfold messageFees
  dsimp only
  refine ⟨raiseFee_fits (grams_fits info.fwdFee) fwd, ?_⟩
  split
  · exact ⟨le_refl _, by norm_num⟩
  split
  · exact raiseFee_fits (grams_fits info.ihrFee) ihr
  · exact grams_fits info.ihrFee

theorem getFirstPart_bounds (p : MsgPrices) {fee : Int} (nonneg : 0 ≤ fee) :
    0 ≤ p.getFirstPart fee ∧ p.getFirstPart fee ≤ fee := by
  have frac : (p.firstFrac : Int) < 2 ^ 16 := by exact_mod_cast p.firstFrac.isLt
  have product : fee * p.firstFrac ≤ fee * 2 ^ 16 := Int.mul_le_mul_of_nonneg_left (le_of_lt frac) nonneg
  unfold MsgPrices.getFirstPart
  constructor
  · exact Int.ediv_nonneg (Int.mul_nonneg nonneg (by omega)) (by decide)
  · omega

section Funds

namespace Funds

variable {a b c : Funds}

theorem add_success (done : a.add b = some c) :
    c.grams = a.grams + b.grams ∧ Extra.add a.extra b.extra = some c.extra := by
  unfold add at done
  split at done
  · cases done
  rename_i extra summed
  cases done
  exact ⟨rfl, summed⟩

theorem add_none : a.add b = none ↔ Extra.add a.extra b.extra = none := by
  unfold add
  split
  · next refused => simp [refused]
  · next summed => simp [summed]

theorem add_zero (a : Funds) : a.add zero = some a := by
  have same : Extra.add a.extra none = some a.extra := by cases a.extra <;> rfl
  simp [add, zero, same]

theorem subGrams_success {g : Int} (done : a.subGrams g = some c) :
    c.grams = a.grams - g ∧ c.extra = a.extra ∧ 0 ≤ c.grams := by
  unfold subGrams at done
  split at done
  · cases done
  rename_i enough
  cases done
  exact ⟨rfl, rfl, not_lt.mp enough⟩

theorem isZero_iff : a.isZero = true ↔ a = zero := by
  cases a with
  | mk grams extra => cases extra <;> simp [isZero, zero]

@[simp] theorem zero_grams : zero.grams = 0 := rfl

@[simp] theorem zero_extra : zero.extra = none := rfl

end Funds

/-- The sum of two amounts of a currency needs more than 31 bytes. -/
def Overflows (a b : Option Extra) : Prop := ∃ id, 2 ^ 248 ≤ Extra.amount a id + Extra.amount b id

theorem add_none_iff {a b : Option Extra} : Extra.add a b = none ↔ Overflows a b := by
  constructor
  · intro refused
    by_contra fits
    have sums : ∀ id, amount a id + amount b id < 2 ^ 248 := by
      intro id
      by_contra beyond
      exact fits ⟨id, not_lt.mp beyond⟩
    obtain ⟨c, done, -⟩ := add_eq_some sums
    cases refused.symm.trans done
  · rintro ⟨id, beyond⟩
    cases done : Extra.add a b with
    | none => rfl
    | some c => exact absurd (add_fits done id) (not_lt.mpr beyond)

theorem Extra.sub_none (a : Option Extra) : sub a none = some a := by cases a <;> rfl

theorem sub_self (a : Option Extra) : sub a a = some none := by
  obtain ⟨c, done, rest⟩ := Extra.sub_of_le fun id => le_refl (amount a id)
  have empty : c = none := Extra.ext_amount fun id => by
    have := rest id
    rw [Extra.amount_none]
    omega
  rw [done, empty]

end Funds

section Frames

/-- Of the transaction, only the rest of the inbound value changes, and the libraries to the given ones. -/
def Framed (library : Dict 256 SimpleLib) (tx after : Tx) : Prop :=
  after = { tx with msgBalanceRemaining := after.msgBalanceRemaining, newLibrary := library }

theorem Framed.trans {first second : Dict 256 SimpleLib} {tx mid after : Tx} (before : Framed first tx mid)
    (later : Framed second mid after) : Framed second tx after := by
  unfold Framed at *
  rw [later, before]

variable {env : ActionEnv} {st after : Acting} {code : Int} {mode : Uint 8}

/-- What is in the balances of the phase, in its messages and in its fees. -/
def Acting.worth (st : Acting) : Int :=
  st.ap.remainingBalance.grams + st.ap.reservedBalance.grams + (st.ap.outMsgs.map OutMessage.carried).sum +
    st.ap.totalActionFees

/-- No balance of the phase is negative, and nothing is left once the account is to be deleted. -/
structure Sane (st : Acting) : Prop where
  remaining : 0 ≤ st.ap.remainingBalance.grams
  reserved : 0 ≤ st.ap.reservedBalance.grams
  inbound : 0 ≤ st.tx.msgBalanceRemaining.grams
  deleted : st.ap.accDeleteReq = true → st.ap.remainingBalance = .zero ∧ st.ap.reservedBalance = .zero

/-- What an attempt to perform an action does: without an error, everything keeps its worth. -/
structure Attempted (library : Dict 256 SimpleLib) (st after : Acting) (code : Int) : Prop where
  framed : Framed library st.tx after.tx
  kept : code = 0 → Sane st → Sane after ∧ after.worth = st.worth

theorem Attempted.refused (st : Acting) (code : Int) : Attempted st.tx.newLibrary st st code :=
  ⟨rfl, fun _ sane => ⟨sane, rfl⟩⟩

variable {level : Nat} {packing : Packing}
variable {value : Value} {req remaining reserve : Funds} {info : IntInfo} {dest : MsgAddress} {toMc : Bool} {outMsg : Message}
  {redoing : Nat}

theorem request_success (sane : Sane st) (h : request env st mode value = .ok (some req)) :
    0 ≤ req.grams ∧ (mode.val.testBit 7 = true → req = st.ap.remainingBalance) := by
  have nonneg : 0 ≤ value.funds.grams := Int.natCast_nonneg _
  have inbound := sane.inbound
  unfold request at h
  split at h
  · cases h
    exact ⟨sane.remaining, fun _ => rfl⟩
  rename_i unset
  refine ⟨?_, fun set => absurd set unset⟩
  split at h
  · split at h
    · split at h <;> cases h
    rename_i sum added
    have total := (Funds.add_success added).1
    split at h
    · cases h
      omega
    · exact (Funds.subGrams_success (Except.ok.inj h)).2.2
  · cases h
    exact nonneg

/-- What the remaining balance pays is the value of the message and its fees. -/
theorem settle_success {fees : Fees} {settled : Settled} (nonneg : 0 ≤ req.grams)
    (h : settle remaining mode req fees = .ok settled) :
    settled.brutto = settled.value.grams + fees.fwd + fees.ihr ∧ 0 ≤ settled.value.grams ∧
      settled.brutto ≤ remaining.grams ∧ sub remaining.extra req.extra = some settled.newExtra ∧
      (paysFees mode = false → settled.brutto = req.grams) := by
  unfold settle at h
  cases pays : paysFees mode with
  | true =>
    simp only [pays, Bool.true_eq_false, false_and, if_false, if_true] at h
    split at h
    · cases h
    rename_i covered
    split at h
    · cases h
    rename_i newExtra taken
    cases h
    exact ⟨by simp only; omega, nonneg, not_lt.mp covered, taken, by simp⟩
  | false =>
    simp only [pays, true_and, Bool.false_eq_true, if_false] at h
    split at h
    · cases h
    rename_i enough
    split at h
    · cases h
    rename_i covered
    split at h
    · cases h
    rename_i newExtra taken
    cases h
    exact ⟨by simp only; omega, by simp only; omega, not_lt.mp covered, taken, fun _ => rfl⟩

/-- A message is appended to balances that have been charged for it. -/
theorem appendMsg_success {msg : OutMessage} {collected : Int}
    (h : appendMsg st mode msg collected = .ok (after, code)) :
    code = 0 ∧ after.tx = st.tx ∧ after.worth = st.worth + msg.carried + collected ∧
      after.ap.remainingBalance = st.ap.remainingBalance ∧ after.ap.reservedBalance = st.ap.reservedBalance ∧
      (after.ap.accDeleteReq = true → st.ap.accDeleteReq = true ∨
        st.ap.remainingBalance = .zero ∧ st.ap.reservedBalance = .zero) := by
  have worth (deleteReq : Bool) : Acting.worth ⟨st.tx, { st.ap with
      endLt := st.ap.endLt + 1, outMsgs := st.ap.outMsgs ++ [msg]
      totalActionFees := st.ap.totalActionFees + collected, accDeleteReq := deleteReq }⟩ =
      st.worth + msg.carried + collected := by
    simp only [Acting.worth, List.map_append, List.sum_append, List.map_cons, List.map_nil, List.sum_cons,
      List.sum_nil]
    omega
  unfold appendMsg at h
  dsimp only at h
  split at h
  · obtain ⟨_, left, h⟩ := of_bind h
    cases h
    refine ⟨rfl, rfl, worth _, rfl, rfl, fun deleted => .inr ⟨?_, Funds.isZero_iff.mp deleted⟩⟩
    exact Funds.isZero_iff.mp (check_success.mp left)
  · cases h
    exact ⟨rfl, rfl, worth _, rfl, rfl, .inl⟩

/-- Nothing can be charged to an empty balance. -/
theorem charged_zero {charge : Int} {req newExtra : Option Extra} (empty : remaining = .zero) (nonneg : 0 ≤ charge)
    (covered : charge ≤ remaining.grams) (taken : sub remaining.extra req = some newExtra) :
    (⟨remaining.grams - charge, newExtra⟩ : Funds) = .zero := by
  subst empty
  cases req with
  | some e => cases taken
  | none =>
    cases taken
    have none : charge = 0 := by
      simp only [Funds.zero_grams] at covered
      omega
    simp [none, Funds.zero]

theorem useInbound_framed (mode : Uint 8) (tx : Tx) : Framed tx.newLibrary tx (useInbound mode tx) := by
  unfold useInbound
  split <;> rfl

theorem useInbound_nonneg {tx : Tx} (nonneg : 0 ≤ tx.msgBalanceRemaining.grams) :
    0 ≤ (useInbound mode tx).msgBalanceRemaining.grams := by
  unfold useInbound
  split
  · exact le_refl _
  · exact nonneg

theorem packInternal_attempted (h : packInternal env st level mode packing info value dest toMc = .ok (after, code)) :
    Attempted st.tx.newLibrary st after code ∧ (code = -2 → after = st) := by
  obtain ⟨requested, asked, h⟩ := of_bind h
  cases requested with
  | none =>
    cases h
    exact ⟨.refused _ _, fun _ => rfl⟩
  | some req =>
    dsimp only at h
    split at h
    · cases h
      exact ⟨.refused _ _, fun _ => rfl⟩
    rename_i settled paid
    obtain ⟨_, -, h⟩ := of_bind h
    obtain ⟨_, -, h⟩ := of_bind h
    split at h
    · cases h
      exact ⟨.refused _ _, fun _ => rfl⟩
    split at h
    · cases h
      exact ⟨⟨useInbound_framed mode st.tx, fun none => absurd none (by decide)⟩, fun again => absurd again (by decide)⟩
    obtain ⟨rfl, tx, worth, remaining, reserved, deleted⟩ := appendMsg_success h
    refine ⟨⟨by rw [tx]; exact useInbound_framed mode st.tx, fun _ sane => ?_⟩, fun again => absurd again (by decide)⟩
    obtain ⟨fwd, ihr⟩ := messageFees_fits env toMc packing info
    obtain ⟨nonneg, -⟩ := request_success sane asked
    obtain ⟨brutto, valueNonneg, covered, taken, -⟩ := settle_success nonneg paid
    have charge : 0 ≤ settled.brutto := by
      have := fwd.1
      have := ihr.1
      omega
    refine ⟨⟨?_, ?_, ?_, ?_⟩, ?_⟩
    · rw [remaining]
      exact sub_nonneg.mpr covered
    · rw [reserved]
      exact sane.reserved
    · rw [tx]
      exact useInbound_nonneg sane.inbound
    · intro delete
      rw [remaining, reserved]
      rcases deleted delete with before | empty
      · obtain ⟨empty, none⟩ := sane.deleted before
        exact ⟨charged_zero empty charge covered taken, none⟩
      · exact empty
    · rw [worth]
      simp only [Acting.worth, OutMessage.carried]
      omega

theorem packExternal_attempted (h : packExternal env st level mode packing dest toMc = .ok (after, code)) :
    Attempted st.tx.newLibrary st after code ∧ (code = -2 → after = st) := by
  have fee : 0 ≤ raiseFee 0 (computedFees env toMc packing true).1 :=
    (raiseFee_fits ⟨le_refl _, by norm_num⟩ (computedFees_lt env toMc packing true).1).1
  unfold packExternal at h
  dsimp only at h
  split at h
  · cases h
    exact ⟨.refused _ _, fun _ => rfl⟩
  rename_i covered
  split at h
  · cases h
    exact ⟨.refused _ _, fun _ => rfl⟩
  split at h
  · cases h
    exact ⟨⟨rfl, fun none => absurd none (by decide)⟩, fun again => absurd again (by decide)⟩
  obtain ⟨rfl, tx, worth, remaining, reserved, deleted⟩ := appendMsg_success h
  refine ⟨⟨by rw [tx]; rfl, fun _ sane => ⟨⟨?_, ?_, ?_, ?_⟩, ?_⟩⟩, fun again => absurd again (by decide)⟩
  · rw [remaining]
    exact sub_nonneg.mpr (not_lt.mp covered)
  · rw [reserved]
    exact sane.reserved
  · rw [tx]
    exact sane.inbound
  · intro delete
    rw [remaining, reserved]
    rcases deleted delete with before | empty
    · obtain ⟨empty, unreserved⟩ := sane.deleted before
      exact ⟨charged_zero empty fee (not_lt.mp covered) (Extra.sub_none _), unreserved⟩
    · exact empty
  · rw [worth]
    simp only [Acting.worth, OutMessage.carried, Funds.zero_grams]
    omega

/-- An attempt with code -2 asks for another way of packing and has done nothing. -/
theorem tryActionSendMsg_attempted (h : tryActionSendMsg env st mode outMsg redoing = .ok (after, code)) :
    Attempted st.tx.newLibrary st after code ∧ (code = -2 → after = st) := by
  unfold tryActionSendMsg at h
  split at h
  · cases h
    exact ⟨.refused _ _, fun _ => rfl⟩
  dsimp only at h
  split at h
  · split at h
    · cases h
      exact ⟨.refused _ _, fun _ => rfl⟩
    · exact packExternal_attempted h
  · split at h
    · cases h
      exact ⟨.refused _ _, fun _ => rfl⟩
    · split at h
      · cases h
        exact ⟨.refused _ _, fun _ => rfl⟩
      · exact packInternal_attempted h

/-- A message is sent, or refused, by one of its attempts, and all start from the same state. -/
theorem sendMsg_attempt (sent : sendMsg env st mode outMsg = .ok (after, code)) :
    ∃ redoing, tryActionSendMsg env st mode outMsg redoing = .ok (after, code) := by
  obtain ⟨⟨first, code1⟩, one, rest⟩ := of_bind sent
  dsimp only at rest
  split at rest
  · next again =>
    subst again
    rw [(tryActionSendMsg_attempted one).2 rfl] at rest
    obtain ⟨⟨second, code2⟩, two, last⟩ := of_bind rest
    split at last
    · next again =>
      subst again
      rw [(tryActionSendMsg_attempted two).2 rfl] at last
      exact ⟨2, last⟩
    · cases last
      exact ⟨1, two⟩
  · cases rest
    exact ⟨0, one⟩

theorem sendMsg_attempted (sent : sendMsg env st mode outMsg = .ok (after, code)) :
    Attempted st.tx.newLibrary st after code := by
  obtain ⟨redoing, attempt⟩ := sendMsg_attempt sent
  exact (tryActionSendMsg_attempted attempt).1

/-- The remaining balance is divided into a part that stays and a part that is reserved. -/
theorem divided_attempted {stays put reservedBalance : Funds}
    (sum : stays.grams + put.grams = st.ap.remainingBalance.grams)
    (nonneg : Sane st → 0 ≤ stays.grams ∧ 0 ≤ put.grams)
    (empty : st.ap.remainingBalance = .zero → stays = .zero ∧ put = .zero)
    (summed : st.ap.reservedBalance.add put = some reservedBalance) :
    Attempted st.tx.newLibrary st { st with ap := { st.ap with remainingBalance := stays, reservedBalance } } 0 := by
  obtain ⟨grams, extra⟩ := Funds.add_success summed
  refine ⟨rfl, fun _ sane => ?_⟩
  obtain ⟨staysNonneg, putNonneg⟩ := nonneg sane
  have reserved := sane.reserved
  refine ⟨⟨staysNonneg, ?_, sane.inbound, ?_⟩, ?_⟩
  · simp only
    omega
  · intro deleted
    obtain ⟨nothing, unreserved⟩ := sane.deleted deleted
    obtain ⟨rfl, rfl⟩ := empty nothing
    rw [unreserved] at summed
    cases summed
    exact ⟨rfl, rfl⟩
  · simp only [Acting.worth]
    omega

theorem reserveFunds_attempted (nonneg : 0 ≤ reserve.grams)
    (h : reserveFunds st mode reserve = .ok (after, code)) : Attempted st.tx.newLibrary st after code := by
  unfold reserveFunds at h
  dsimp only at h
  split at h
  · cases h
    exact .refused _ _
  split at h
  · cases h
    exact .refused _ _
  rename_i extra taken
  have covered := min_le_right reserve.grams st.ap.remainingBalance.grams
  have amount (sane : Sane st) : 0 ≤ min reserve.grams st.ap.remainingBalance.grams :=
    le_min nonneg sane.remaining
  have rest (empty : st.ap.remainingBalance = .zero) :
      (⟨st.ap.remainingBalance.grams - min reserve.grams st.ap.remainingBalance.grams, extra⟩ : Funds) = .zero ∧
        (⟨min reserve.grams st.ap.remainingBalance.grams, reserve.extra⟩ : Funds) = .zero := by
    have none : min reserve.grams st.ap.remainingBalance.grams = 0 := by
      rw [empty]
      exact min_eq_right nonneg
    refine ⟨charged_zero empty (by omega) covered taken, ?_⟩
    rw [none]
    rw [empty] at taken
    cases given : reserve.extra with
    | none => rfl
    | some e =>
      rw [given] at taken
      cases taken
  cases swapped : mode.val.testBit 0 with
  | true =>
    simp only [swapped, if_true] at h
    split at h
    · cases h
    rename_i summed
    cases h
    exact divided_attempted (by simp only; omega) (fun sane => ⟨amount sane, by simp only; omega⟩)
      (fun empty => (rest empty).symm) summed
  | false =>
    simp only [swapped, Bool.false_eq_true, if_false] at h
    split at h
    · cases h
    rename_i summed
    cases h
    exact divided_attempted (by simp only; omega) (fun sane => ⟨by simp only; omega, amount sane⟩) rest summed

theorem tryActionReserveCurrency_attempted {currency : Option Value}
    (h : tryActionReserveCurrency st mode currency = .ok (after, code)) : Attempted st.tx.newLibrary st after code := by
  unfold tryActionReserveCurrency at h
  split at h
  · cases h
    exact .refused _ _
  split at h
  · cases h
    exact .refused _ _
  · split at h
    · cases h
      exact .refused _ _
    · next amount => exact reserveFunds_attempted (by simpa using (Option.filter_eq_some_iff.mp amount).2) h

variable (cellHash : Cell → Uint 256)

def libraryStep (library : Dict 256 SimpleLib) : Action → Dict 256 SimpleLib
  | .changeLibrary mode libref =>
    match changedLibrary cellHash library mode libref with
    | .ok changed => changed
    | .error _ => library
  | _ => library

def libraryAfter (library : Dict 256 SimpleLib) (actions : List Action) : Dict 256 SimpleLib :=
  actions.foldl (libraryStep cellHash) library

/-- The actions up to the first error, which is one of them. -/
def reached (env : ActionEnv) : Acting → List Action → List Action
  | _, [] => []
  | st, a :: rest =>
    match tryAction cellHash env st a with
    | .ok (next, code) => if code = 0 then a :: reached env next rest else [a]
    | .error _ => [a]

variable {cellHash}

theorem tryActionChangeLibrary_attempted (st : Acting) (mode : Uint 7) (libref : LibRef) :
    Attempted (libraryStep cellHash st.tx.newLibrary (.changeLibrary mode libref)) st
      (tryActionChangeLibrary cellHash st mode libref).1 (tryActionChangeLibrary cellHash st mode libref).2 := by
  unfold tryActionChangeLibrary libraryStep
  dsimp only
  cases changedLibrary cellHash st.tx.newLibrary mode libref with
  | error => exact .refused _ _
  | ok => exact ⟨rfl, fun _ sane => ⟨⟨sane.remaining, sane.reserved, sane.inbound, sane.deleted⟩, rfl⟩⟩

theorem tryAction_attempted {a : Action} (h : tryAction cellHash env st a = .ok (after, code)) :
    Attempted (libraryStep cellHash st.tx.newLibrary a) st after code := by
  cases a with
  | setCode newCode =>
    cases h
    exact ⟨rfl, fun _ sane => ⟨⟨sane.remaining, sane.reserved, sane.inbound, sane.deleted⟩, rfl⟩⟩
  | sendMsg mode outMsg => exact sendMsg_attempted h
  | reserveCurrency mode currency => exact tryActionReserveCurrency_attempted h
  | changeLibrary mode libref =>
    have changed : Attempted (libraryStep cellHash st.tx.newLibrary (.changeLibrary mode libref)) st _ _ :=
      tryActionChangeLibrary_attempted st mode libref
    rw [Except.ok.inj h] at changed
    exact changed

theorem tryActions_attempted {actions : List Action}
    (h : tryActions cellHash env st actions = .ok (after, code)) :
    Attempted (libraryAfter cellHash st.tx.newLibrary (reached cellHash env st actions)) st after code := by
  induction actions generalizing st with
  | nil =>
    cases h
    exact .refused _ _
  | cons a rest ih =>
    obtain ⟨⟨next, first⟩, one, h⟩ := of_bind h
    have done := tryAction_attempted one
    have library : next.tx.newLibrary = libraryStep cellHash st.tx.newLibrary a := by rw [done.framed]
    dsimp only at h
    simp only [reached, one]
    split at h
    · next success =>
      have later := ih h
      rw [library] at later
      rw [if_pos success]
      refine ⟨done.framed.trans later.framed, fun none sane => ?_⟩
      obtain ⟨sane, kept⟩ := done.kept success sane
      obtain ⟨sane, keptLater⟩ := later.kept none sane
      exact ⟨sane, keptLater.trans kept⟩
    · next failure =>
      cases h
      rw [if_neg failure]
      refine ⟨done.framed, fun none => ?_⟩
      split at none
      · cases none
      · exact absurd none failure

end Frames

section Phases

variable {x : OrdInput} {tx after : Tx} {computed : Computed}

/-- What is in the balance, in the messages and in the fees of a transaction. -/
def Tx.worth (tx : Tx) : Int :=
  tx.balance.grams + (tx.outMsgs.map OutMessage.carried).sum + tx.totalFees.grams

/-- A transaction before its action phase. -/
structure Early (tx : Tx) : Prop where
  noMsgs : tx.outMsgs = []
  balance : 0 ≤ tx.balance.grams
  inbound : 0 ≤ tx.msgBalanceRemaining.grams
  due : 0 ≤ tx.duePayment

theorem unpackInputMsg_early (h : unpackInputMsg x (newTx x) = some tx) :
    Early tx ∧ tx.worth + tx.msgBalanceRemaining.grams = x.account.balance.grams + x.inMsg.worth ∧
      (x.inMsg.isExternal = true → tx.msgBalanceRemaining = .zero) ∧ tx.duePayment = x.account.duePayment := by
  unfold unpackInputMsg at h
  dsimp only at h
  split at h
  · next m message =>
    rw [message]
    split at h
    · cases h
    split at h
    · cases h
      refine ⟨⟨rfl, Int.natCast_nonneg _, Int.natCast_nonneg _, Int.natCast_nonneg _⟩, ?_, nofun, rfl⟩
      simp only [Tx.worth, newTx, Value.funds, Funds.zero, Funds.addGrams, Inbound.worth, List.map_nil, List.sum_nil]
      omega
    · cases h
      refine ⟨⟨rfl, Int.natCast_nonneg _, ?_, Int.natCast_nonneg _⟩, ?_, nofun, rfl⟩
      · simp only [Funds.addGrams, Value.funds]
        omega
      · simp only [Tx.worth, newTx, Value.funds, Funds.zero, Funds.addGrams, Inbound.worth, List.map_nil, List.sum_nil]
        omega
  · next cells bits message =>
    rw [message]
    split at h
    · cases h
    split at h
    · cases h
    split at h
    · cases h
    rename_i balance paid
    cases h
    obtain ⟨grams, -, nonneg⟩ := Funds.subGrams_success paid
    refine ⟨⟨rfl, nonneg, le_refl _, Int.natCast_nonneg _⟩, ?_, fun _ => rfl, rfl⟩
    simp only [newTx, Value.funds] at grams
    simp only [Tx.worth, newTx, Funds.zero, Funds.addGrams, Inbound.worth, List.map_nil, List.sum_nil]
    omega

theorem prepareStoragePhase_early (cfg : StorageConfig) (account : Account) (forceCollect : Bool) (toPay : Option Int)
    (early : Early tx) : Early (prepareStoragePhase cfg account forceCollect toPay tx).1 ∧
      (prepareStoragePhase cfg account forceCollect toPay tx).1.worth = tx.worth ∧
      (prepareStoragePhase cfg account forceCollect toPay tx).1.msgBalanceRemaining = tx.msgBalanceRemaining := by
  unfold prepareStoragePhase
  split
  · exact ⟨early, rfl, rfl⟩
  split
  · exact ⟨early, rfl, rfl⟩
  obtain ⟨noMsgs, balance, inbound, due⟩ := early
  split
  · next enough =>
    refine ⟨⟨noMsgs, sub_nonneg.mpr enough, inbound, due⟩, ?_, rfl⟩
    simp only [Tx.worth, Funds.addGrams]
    omega
  split
  · exact ⟨⟨noMsgs, balance, inbound, due⟩, rfl, rfl⟩
  dsimp only
  split
  · refine ⟨⟨noMsgs, le_refl _, inbound, due⟩, ?_, rfl⟩
    simp only [Tx.worth, Funds.zero]
    omega
  · refine ⟨⟨noMsgs, le_refl _, inbound, due⟩, ?_, rfl⟩
    simp only [Tx.worth, Funds.addGrams]
    omega

/-- The account holds what is left of the inbound value. -/
def HoldsInbound (tx : Tx) : Prop :=
  tx.msgBalanceRemaining.grams ≤ tx.balance.grams ∧
    ∀ id, Extra.amount tx.msgBalanceRemaining.extra id ≤ Extra.amount tx.balance.extra id

theorem prepareCreditPhase_early (early : Early tx) (h : prepareCreditPhase tx = some after) :
    Early after ∧ after.worth = tx.worth + tx.msgBalanceRemaining.grams ∧ HoldsInbound after := by
  obtain ⟨noMsgs, balance, inbound, due⟩ := early
  unfold prepareCreditPhase at h
  dsimp only at h
  split at h
  · cases h
  rename_i credited summed
  cases h
  obtain ⟨grams, extras⟩ := Funds.add_success summed
  dsimp only at grams
  have left : dueFeesCollected tx ≤ tx.msgBalanceRemaining.grams := min_le_left _ _
  have paid : dueFeesCollected tx ≤ tx.duePayment := min_le_right _ _
  refine ⟨⟨noMsgs, ?_, sub_nonneg.mpr left, sub_nonneg.mpr paid⟩, ?_, ?_, ?_⟩
  · simp only
    omega
  · simp only [Tx.worth, Funds.addGrams]
    omega
  · simp only
    omega
  · intro id
    obtain ⟨c, added, amounts⟩ := add_eq_some fun id => add_fits extras id
    rw [extras, Option.some.injEq] at added
    subst added
    rw [amounts id]
    exact Nat.le_add_left _ _

theorem prepareMoney_early {start : Tx} (unpacked : unpackInputMsg x (newTx x) = some start)
    (h : prepareMoney x start = some tx) :
    Early tx ∧ tx.worth = x.account.balance.grams + x.inMsg.worth ∧
      (x.inMsg.bounceEnabled = true → HoldsInbound tx) := by
  obtain ⟨early, worth, external, -⟩ := unpackInputMsg_early unpacked
  have pays := fun {tx} => @prepareStoragePhase_early tx x.storageCfg x.account true (some x.storageFees)
  obtain ⟨charged, money, rfl⟩ := Option.map_eq_some_iff.mp h
  unfold chargeMoney at money
  split at money
  · obtain ⟨stored, same, inbound⟩ := pays early
    obtain ⟨after, credit, rfl⟩ := Option.map_eq_some_iff.mp money
    obtain ⟨credited, total, holds⟩ := prepareCreditPhase_early stored credit
    refine ⟨credited, ?_, fun _ => holds⟩
    rw [total, same, inbound, worth]
  rename_i noBounce
  split at money
  · next ext =>
    cases money
    obtain ⟨stored, same, -⟩ := pays early
    refine ⟨stored, ?_, fun bounce => absurd bounce noBounce⟩
    rw [external ext, Funds.zero_grams, add_zero] at worth
    rw [same, worth]
  · obtain ⟨credited, done, rfl⟩ := Option.map_eq_some_iff.mp money
    obtain ⟨early, total, -⟩ := prepareCreditPhase_early early done
    obtain ⟨stored, same, -⟩ := pays early
    refine ⟨stored, ?_, fun bounce => absurd bounce noBounce⟩
    rw [same, total, worth]

/-- The gas fees that a compute phase takes from the account. -/
def Computed.fees : Computed → Int
  | .ran _ gasFees => gasFees
  | _ => 0

/-- What a compute phase, or a part of it, does. -/
structure Computes (tx after : Tx) (fees : Int) : Prop where
  early : Early tx → Early after
  worth : after.worth = tx.worth
  inbound : after.msgBalanceRemaining = tx.msgBalanceRemaining
  grams : after.balance.grams = tx.balance.grams - fees
  extra : after.balance.extra = tx.balance.extra

theorem Computes.after_free {tx mid after : Tx} {fees : Int} (first : Computes tx mid 0)
    (second : Computes mid after fees) : Computes tx after fees where
  early early := second.early (first.early early)
  worth := second.worth.trans first.worth
  inbound := second.inbound.trans first.inbound
  grams := by rw [second.grams, first.grams, sub_zero]
  extra := second.extra.trans first.extra

theorem chargeOriginal_computes (tx : Tx) : Computes tx (chargeOriginal tx) 0 :=
  ⟨fun early => ⟨early.noMsgs, early.balance, early.inbound, early.due⟩, rfl, rfl, (sub_zero _).symm, rfl⟩

theorem loadState_computes (init : Option InitState) (tx : Tx) :
    Computes tx (loadState init tx).1 0 ∧ (loadState init tx).1.duePayment = tx.duePayment := by
  have same : Computes tx tx 0 ∧ tx.duePayment = tx.duePayment := ⟨⟨id, rfl, rfl, (sub_zero _).symm, rfl⟩, rfl⟩
  unfold loadState
  split
  · exact same
  split
  · split
    · exact ⟨⟨fun early => ⟨early.noMsgs, early.balance, early.inbound, early.due⟩, rfl, rfl, (sub_zero _).symm, rfl⟩, rfl⟩
    · exact same
  · exact same

theorem runMachine_computes {limits : GasLimits}
    (h : runMachine x limits tx = .ok (after, computed)) :
    Computes tx after computed.fees ∧ after.duePayment = tx.duePayment := by
  unfold runMachine at h
  split at h
  · cases h
    exact ⟨⟨id, rfl, rfl, (sub_zero _).symm, rfl⟩, rfl⟩
  dsimp only at h
  split at h
  · cases h
  rename_i balance paid
  cases h
  obtain ⟨grams, extra, nonneg⟩ := Funds.subGrams_success paid
  refine ⟨⟨fun early => ⟨early.noMsgs, nonneg, early.inbound, early.due⟩, ?_, rfl, grams, extra⟩, rfl⟩
  simp only [Tx.worth, Funds.addGrams]
  omega

theorem prepareComputePhase_computes
    (h : prepareComputePhase x tx = .ok (after, computed)) :
    Computes tx after computed.fees ∧ after.duePayment = tx.duePayment := by
  have charged := chargeOriginal_computes tx
  unfold prepareComputePhase at h
  dsimp only at h
  split at h
  · cases h
    exact ⟨charged, rfl⟩
  obtain ⟨loaded, due⟩ := loadState_computes x.init (chargeOriginal tx)
  split at h
  · next ready =>
    cases h
    rw [ready] at loaded due
    exact ⟨charged.after_free loaded, due⟩
  · next ready =>
    rw [ready] at loaded due
    obtain ⟨run, same⟩ := runMachine_computes h
    exact ⟨charged.after_free (loaded.after_free run), same.trans due⟩

def actionEnv (x : OrdInput) (gasFees : Int) : ActionEnv := { cfg := x.cfg, account := x.account, gasFees }

/-- The transaction reaches its action phase as `tx`, after a compute phase that succeeded. -/
structure Acts (x : OrdInput) (tx : Tx) (gasFees : Int) : Prop where
  computed : ∃ start, (unpackInputMsg x (newTx x)).bind (prepareMoney x) = some start ∧
    prepareComputePhase x start = .ok (tx, .ran true gasFees)

variable {cellHash : Cell → Uint 256} {gasFees code : Int}

theorem prepareActionPhase_nil (cellHash : Cell → Uint 256) (env : ActionEnv) (newData : Option Cell) (early : Early tx) :
    prepareActionPhase cellHash env tx newData ⟨[], false⟩ =
      .ok ({ tx with outMsgs := [], newData, totalFees := tx.totalFees.addGrams 0 }, 0) := by
  have finished : finishActions (beginActions tx) newData =
      .ok { tx with outMsgs := [], newData, totalFees := tx.totalFees.addGrams 0 } := by
    simp [finishActions, beginActions, Funds.add_zero, check, early.balance]
  change (finishActions (beginActions tx) newData >>= fun tx => Except.ok (tx, 0)) = _
  rw [finished]
  rfl

theorem Acts.early (acts : Acts x tx gasFees) : Early tx := by
  obtain ⟨start, prepared, computed⟩ := acts.computed
  obtain ⟨unpacked, received, prepared⟩ := Option.bind_eq_some_iff.mp prepared
  exact (prepareComputePhase_computes computed).1.early (prepareMoney_early received prepared).1

/-- The action phase is the last one of a transaction that reaches it. -/
theorem Acts.result (acts : Acts x tx gasFees)
    (done : prepareActionPhase cellHash (actionEnv x gasFees) tx x.vm.newData x.vm.actions = .ok (after, code)) :
    createOrdinaryTransaction cellHash x = .ok (some after) := by
  obtain ⟨start, prepared, computed⟩ := acts.computed
  unfold createOrdinaryTransaction
  rw [prepared]
  dsimp only
  rw [computed]
  change (prepareActionPhase cellHash (actionEnv x gasFees) tx x.vm.newData x.vm.actions >>= fun r => .ok (some r.1)) = _
  rw [done]
  rfl

end Phases

end TonStaking.Source.Transaction
