import Mathlib.Data.Nat.Digits.Lemmas
import TonStaking.Source.StakingPool.Run

/-!
# Redemption by text

`decode_text` (lines 466-480) is meant for texts such as `R123`. Its test of the first
character compares with 52, the digit 4, and throws if they are equal, so every other
first character is accepted; the loop accepts an empty number. What follows the first
character has to consist of digits whose value, raised by the code of the digit zero,
fits a 257-bit integer. For the texts it is meant for, the message has the effect of the
binary request.
-/
namespace TonStaking.Guarantees.TextRedemption
open Tvm Source.StakingPool

/-- A text as it is stored in a message. -/
def textBits (text : List (Uint 8)) : List Bool := text.flatMap Uint.bits

def IsDigit (c : Uint 8) : Prop := 0x30 ≤ c.val ∧ c.val ≤ 0x39

instance (c : Uint 8) : Decidable (IsDigit c) := inferInstanceAs (Decidable (_ ∧ _))

/-- Value of a digit string that is read behind the number `value`. -/
def readDigits (value : Nat) (digits : List (Uint 8)) : Nat :=
  digits.foldl (fun value c => 10 * value + (c.val - 0x30)) value

/-- The letter `R` and one or more digits. -/
def IsRedemption (first : Uint 8) (rest : List (Uint 8)) : Prop :=
  first.val = 0x52 ∧ rest ≠ [] ∧ ∀ c ∈ rest, IsDigit c

theorem le_readDigits (value : Nat) (digits : List (Uint 8)) : value ≤ readDigits value digits := by
  induction digits generalizing value with
  | nil => exact le_rfl
  | cons c rest ih =>
    have more := ih (10 * value + (c.val - 0x30))
    have step : readDigits value (c :: rest) = readDigits (10 * value + (c.val - 0x30)) rest := rfl
    omega

theorem isEmpty_textBits (c : Uint 8) (rest : List Bool) (refs : List Cell) :
    Slice.isEmpty ⟨Uint.bits c ++ rest, refs⟩ = false := by
  have long : Uint.bits c ++ rest ≠ [] := by
    intro empty
    have width := congrArg List.length empty
    simp at width
  simp [Slice.isEmpty, long]

/-- The arithmetic of one round. -/
theorem digit_step {value : Nat} (c : Uint 8) {next : Int → Outcome Int} {result : Int} :
    (do
      throwUnless 57 (0x30 ≤ c.val ∧ c.val ≤ 0x39)
      let shifted ← mulInt value 10
      let sum ← addInt shifted c
      let res ← addInt sum (-0x30)
      next res) = .ok result ↔
      IsDigit c ∧ 10 * value + c.val < 2 ^ 256 ∧ next ((10 * value + (c.val - 0x30) : Nat) : Int) = .ok result := by
  simp only [bind_success, throwUnless_success, mulInt, addInt, fitInt_ok_iff]
  constructor
  · rintro ⟨-, digit, _, ⟨-, rfl⟩, _, ⟨fits, rfl⟩, _, ⟨-, rfl⟩, rest⟩
    have value_eq : (value : Int) * 10 + c.val + -48 = ((10 * value + (c.val - 0x30) : Nat) : Int) := by
      omega
    rw [value_eq] at rest
    exact ⟨digit, by omega, rest⟩
  · rintro ⟨digit, fits, rest⟩
    have low : 0x30 ≤ c.val := digit.1
    refine ⟨(), digit, _, ⟨by omega, rfl⟩, _, ⟨by omega, rfl⟩, _, ⟨by omega, ?_⟩, rest⟩
    omega

/-- The loop succeeds on digits whose value fits, with nothing behind them. -/
theorem decodeDigits_success_iff (digits : List (Uint 8)) (refs : List Cell) (value fuel : Nat)
    (enough : digits.length < fuel) (small : value + 0x30 < 2 ^ 256) (result : Int) :
    decodeDigits fuel ⟨textBits digits, refs⟩ value = .ok result ↔
      refs = [] ∧ (∀ c ∈ digits, IsDigit c) ∧ readDigits value digits + 0x30 < 2 ^ 256 ∧
        result = readDigits value digits := by
  -- induction on the digits; the value read so far stays small, so only the last one matters
  induction digits generalizing value fuel with
  | nil =>
    obtain ⟨fuel, rfl⟩ : ∃ n, fuel = n + 1 := ⟨fuel - 1, by omega⟩
    cases refs with
    | nil =>
      constructor
      · intro done
        exact ⟨rfl, by simp, small, (Except.ok.inj done).symm⟩
      · rintro ⟨-, -, -, rfl⟩
        rfl
    | cons cell refs => simp [decodeDigits, textBits, Slice.isEmpty, loadUint]
  | cons c rest ih =>
    obtain ⟨fuel, rfl⟩ : ∃ n, fuel = n + 1 := ⟨fuel - 1, by omega⟩
    have step : readDigits value (c :: rest) = readDigits (10 * value + (c.val - 0x30)) rest := rfl
    have grows := le_readDigits (10 * value + (c.val - 0x30)) rest
    have bits : textBits (c :: rest) = Uint.bits c ++ textBits rest := rfl
    rw [bits, decodeDigits, isEmpty_textBits, if_neg (by decide), loadUint_bits, ok_bind, digit_step, step,
      List.forall_mem_cons]
    constructor
    · rintro ⟨digit, fits, decoded⟩
      have low := digit.1
      obtain ⟨noRefs, digits, high, value_eq⟩ := (ih _ fuel (by simpa using enough) (by omega)).mp decoded
      exact ⟨noRefs, ⟨digit, digits⟩, high, value_eq⟩
    · rintro ⟨noRefs, ⟨digit, digits⟩, high, value_eq⟩
      exact ⟨digit, by omega, (ih _ fuel (by simpa using enough) (by omega)).mpr ⟨noRefs, digits, high, value_eq⟩⟩

/-- `decode_text` succeeds on any first character but the digit 4, followed by digits only. -/
theorem decodeText_success_iff (first : Uint 8) (rest : List (Uint 8)) (refs : List Cell) (result : Int) :
    decodeText ⟨textBits (first :: rest), refs⟩ = .ok result ↔
      first.val ≠ 52 ∧ refs = [] ∧ (∀ c ∈ rest, IsDigit c) ∧ readDigits 0 rest + 0x30 < 2 ^ 256 ∧
        result = readDigits 0 rest := by
  have bits : textBits (first :: rest) = Uint.bits first ++ textBits rest := rfl
  have enough : rest.length < (textBits rest).length + 1 := by
    have width : (textBits rest).length = 8 * rest.length := by simp [textBits, mul_comm]
    omega
  have loop := decodeDigits_success_iff rest refs 0 _ enough (by decide) result
  unfold decodeText
  rw [bits, loadUint_bits, ok_bind, bind_success]
  simp only [throwUnless_success, ← loop]
  constructor
  · rintro ⟨-, other, done⟩
    exact ⟨other, done⟩
  · rintro ⟨other, done⟩
    exact ⟨(), other, done⟩

section Soundness

variable (cellHash : Cell → Uint 256) (first : Uint 8) (rest : List (Uint 8)) (refs : List Cell)

/-- Body of a message with a text comment. -/
def comment : Slice :=
  ⟨Uint.bits (0 : Uint 32) ++ textBits (first :: rest), refs⟩

/-- A text is decoded only if it is a redemption text with nothing behind it, and as a comment any
other text makes the message fail with the pool as it was. -/
def OnlyRedemptions : Prop :=
  ((∃ id, decodeText ⟨textBits (first :: rest), refs⟩ = .ok id) → IsRedemption first rest ∧ refs = []) ∧
    (¬ (IsRedemption first rest ∧ refs = []) → ∀ s m, m.body = comment first rest refs → m.bounced = false →
      (∃ e, receive cellHash s (.internal m) = .error e) ∧ (commit (receive cellHash) s (.internal m)).1 = s)

/-- A comment is a request to redeem the number in it. -/
theorem parseRequest_comment :
    parseRequest (comment first rest refs) = (do
      let id ← decodeText ⟨textBits (first :: rest), refs⟩
      .ok (.redeem 0 id)) := by
  have nonempty : Slice.isEmpty ⟨Uint.bits (0 : Uint 32) ++ textBits (first :: rest), refs⟩ = false := rfl
  have behind : Slice.isEmpty ⟨textBits (first :: rest), refs⟩ = false := isEmpty_textBits first _ refs
  unfold parseRequest comment
  rw [nonempty, if_neg (by decide), loadUint_bits, ok_bind]
  refine (if_pos rfl).trans ?_
  rw [behind, if_neg (by decide)]

/-- A comment that `decode_text` refuses fails before the pool is touched. -/
theorem refused_comment_fails
    (refused : ∀ id, decodeText ⟨textBits (first :: rest), refs⟩ ≠ .ok id) (s : State) {m : InMsg}
    (body : m.body = comment first rest refs) (direct : m.bounced = false) :
    ∃ e, receive cellHash s (.internal m) = .error e := by
  cases decoded : decodeText ⟨textBits (first :: rest), refs⟩ with
  | ok id => exact absurd decoded (refused id)
  | error e =>
    refine ⟨e, ?_⟩
    change recvInternal cellHash s m = .error e
    rw [recvInternal, direct, if_neg (by decide), body, parseRequest_comment, decoded]
    rfl

/-- Only redemption texts are taken for redemptions exactly if the text is one or `decode_text` refuses
it, for its first character, for a character that is no digit, for its length or for a reference. -/
theorem only_redemptions_iff :
    OnlyRedemptions cellHash first rest refs ↔
      IsRedemption first rest ∨ first.val = 52 ∨ (∃ c ∈ rest, ¬ IsDigit c) ∨ 2 ^ 256 ≤ readDigits 0 rest + 0x30 ∨
        refs ≠ [] := by
  constructor
  · intro only
    by_contra accepted
    push Not at accepted
    obtain ⟨other, letter, digits, small, noRefs⟩ := accepted
    have decoded := (decodeText_success_iff first rest refs _).mpr ⟨letter, noRefs, digits, small, rfl⟩
    exact other (only.1 ⟨_, decoded⟩).1
  · intro cases
    by_cases redemption : IsRedemption first rest ∧ refs = []
    · exact ⟨fun _ => redemption, fun other => absurd redemption other⟩
    have refused : ∀ id, decodeText ⟨textBits (first :: rest), refs⟩ ≠ .ok id := by
      intro id decoded
      obtain ⟨letter, noRefs, digits, small, -⟩ := (decodeText_success_iff first rest refs id).mp decoded
      rcases cases with text | four | ⟨c, member, noDigit⟩ | large | ref
      · exact redemption ⟨text, noRefs⟩
      · exact letter four
      · exact noDigit (digits c member)
      · omega
      · exact ref noRefs
    refine ⟨fun ⟨id, decoded⟩ => absurd decoded (refused id), fun _ s m body direct => ?_⟩
    obtain ⟨e, failed⟩ := refused_comment_fails cellHash first rest refs refused s body direct
    exact ⟨⟨e, failed⟩, by rw [commit_of_error failed]⟩

/-- The text `X5` asks for subscription 5. -/
theorem other_letter_redeems : decodeText ⟨textBits [0x58, 0x35], []⟩ = .ok 5 ∧
    ¬ OnlyRedemptions sampleHash 0x58 [0x35] [] := by
  refine ⟨by decide, fun only => ?_⟩
  have letter := (only.1 ⟨5, by decide⟩).1.1
  exact absurd letter (by decide)

end Soundness

section Agreement

/-- The decimal digits of a number, the last one first. -/
def lastDigits (n : Nat) : List Nat := if n = 0 then [0] else Nat.digits 10 n

def decimal (n : Nat) : List (Uint 8) := (lastDigits n).reverse.map fun d => Fin.ofNat (2 ^ 8) (0x30 + d)

/-- Body of a redemption by text. -/
def textRequest (zeros n : Nat) : Slice := comment 0x52 (List.replicate zeros 0x30 ++ decimal n) []

/-- Body of a redemption by its operation code, as `redemption_request` builds it. -/
def binaryRequest (queryId : Uint 64) (n : Uint 32) : Slice :=
  ⟨Uint.bits (0x534D4452 : Uint 32) ++ (Uint.bits queryId ++ Uint.bits n), []⟩

/-- A message of the pool without the query id behind its operation code. -/
def dropQuery (m : OutMsg) : OutMsg :=
  { m with body := ⟨m.body.bits.take 32 ++ m.body.bits.drop 96, m.body.refs⟩ }

/-- State and messages after a transaction, or its exception, up to the query id. -/
def upToQuery (x : Outcome (State × List OutMsg)) : Outcome (State × List OutMsg) :=
  x.map fun result => (result.1, result.2.map dropQuery)

theorem readDigits_zeros (zeros : Nat) : readDigits 0 (List.replicate zeros 0x30) = 0 := by
  induction zeros with
  | zero => rfl
  | succ _ ih => exact ih

theorem readDigits_append (value : Nat) (first rest : List (Uint 8)) :
    readDigits value (first ++ rest) = readDigits (readDigits value first) rest := List.foldl_append

theorem isDigit_ofNat {d : Nat} (small : d < 10) :
    IsDigit (Fin.ofNat (2 ^ 8) (0x30 + d)) ∧ (Fin.ofNat (2 ^ 8) (0x30 + d)).val - 0x30 = d := by
  have value : (Fin.ofNat (2 ^ 8) (0x30 + d)).val = 0x30 + d := Nat.mod_eq_of_lt (by omega)
  rw [IsDigit, value]
  omega

/-- The digits of a number have its value; the digits are taken from the last one on. -/
theorem readDigits_reverse (digits : List Nat) (small : ∀ d ∈ digits, d < 10) :
    readDigits 0 (digits.reverse.map fun d => Fin.ofNat (2 ^ 8) (0x30 + d)) = Nat.ofDigits 10 digits := by
  induction digits with
  | nil => rfl
  | cons d rest ih =>
    rw [List.reverse_cons, List.map_append, readDigits_append, ih fun d member => small d (List.mem_cons_of_mem _ member),
      Nat.ofDigits_cons]
    have last := (isDigit_ofNat (small d List.mem_cons_self)).2
    simp only [List.map_cons, List.map_nil, readDigits, List.foldl_cons, List.foldl_nil, last]
    ring

theorem lastDigits_spec (n : Nat) : (∀ d ∈ lastDigits n, d < 10) ∧ Nat.ofDigits 10 (lastDigits n) = n := by
  unfold lastDigits
  split
  · next zero => simp [zero]
  · exact ⟨fun d member => Nat.digits_lt_base (by decide) member, Nat.ofDigits_digits 10 n⟩

theorem decodeText_decimal (zeros : Nat) (n : Uint 32) :
    decodeText ⟨textBits (0x52 :: (List.replicate zeros 0x30 ++ decimal n)), []⟩ = .ok (n : Int) := by
  obtain ⟨small, value⟩ := lastDigits_spec n
  have number : readDigits 0 (List.replicate zeros 0x30 ++ decimal n) = n := by
    rw [readDigits_append, readDigits_zeros, decimal, readDigits_reverse _ small, value]
  refine (decodeText_success_iff _ _ _ _).mpr ⟨by decide, rfl, ?_, by omega, by rw [number]⟩
  intro c member
  rcases List.mem_append.mp member with zero | digit
  · rw [List.eq_of_mem_replicate zero]
    decide
  · obtain ⟨d, known, rfl⟩ := List.mem_map.mp digit
    exact (isDigit_ofNat (small d (List.mem_reverse.mp known))).1

section Queries

variable {α β γ δ : Type} {g : β → δ}

/-- Two computations that agree up to `f`, continued by steps that agree on such results. -/
theorem map_bind_congr {x y : Outcome α} {f : α → γ} {next next' : α → Outcome β} (same : x.map f = y.map f)
    (rest : ∀ a b, f a = f b → (next a).map g = (next' b).map g) : (x >>= next).map g = (y >>= next').map g := by
  cases x with
  | error e =>
    cases y with
    | error e' =>
      cases same
      rfl
    | ok b => cases same
  | ok a =>
    cases y with
    | error e' => cases same
    | ok b => exact rest a b (Except.ok.inj same)

theorem map_bind_same (x : Outcome α) {next next' : α → Outcome β}
    (rest : ∀ a, (next a).map g = (next' a).map g) : (x >>= next).map g = (x >>= next').map g := by
  cases x with
  | error e => rfl
  | ok a => exact rest a

end Queries

variable {s : State} {sAddr : MsgAddress} {sub : Subscription} {current : Performance} (q q' : Uint 64)

theorem sendMessage_query (op grams : Int) (mode : Nat) :
    (sendMessage sAddr op q 0 grams mode).map dropQuery = (sendMessage sAddr op q' 0 grams mode).map dropQuery := by
  have body : storeUint 32 0 = .ok 0 := by decide
  refine map_bind_same _ fun value => map_bind_same _ fun op => ?_
  simp only [storeUint_val, ok_bind, le_refl, if_true, body]
  have front (q : Uint 64) : (Uint.bits op ++ Uint.bits q ++ Uint.bits (0 : Uint 32)).take 32 = Uint.bits op := by
    rw [List.append_assoc, List.take_left' (Uint.bits_length op)]
  have back (q : Uint 64) :
      (Uint.bits op ++ Uint.bits q ++ Uint.bits (0 : Uint 32)).drop 96 = Uint.bits (0 : Uint 32) :=
    List.drop_left' (by simp)
  simp only [Except.map, dropQuery, front, back]

/-- A redemption up to the query id of its messages. -/
def Redemption.upToQuery (r : Redemption) : Redemption := { r with sent := r.sent.map dropQuery }

theorem redeem_query : (redeem s sAddr q sub current).map Redemption.upToQuery =
    (redeem s sAddr q' sub current).map Redemption.upToQuery := by
  unfold redeem
  split
  · refine map_bind_same _ fun _ => map_bind_same _ fun _ => map_bind_same _ fun _ => ?_
    refine map_bind_congr (sendMessage_query q q' _ _ _) fun back back' same => map_bind_same _ fun owner => ?_
    refine map_bind_congr (sendMessage_query q q' _ _ _) fun fine fine' same' => ?_
    simp [Except.map, Redemption.upToQuery, same, same']
  · refine map_bind_same _ fun _ => map_bind_same _ fun _ => map_bind_same _ fun _ => ?_
    refine map_bind_same _ fun _ => map_bind_same _ fun _ => map_bind_same _ fun _ => ?_
    refine map_bind_congr (sendMessage_query q q' _ _ _) fun back back' same => ?_
    simp [Except.map, Redemption.upToQuery, same]

theorem processRedeem_query (msgValue id : Int) :
    upToQuery (processRedeem s sAddr q msgValue id) = upToQuery (processRedeem s sAddr q' msgValue id) := by
  refine map_bind_same _ fun sender => map_bind_same _ fun sub => map_bind_same _ fun _ => ?_
  refine map_bind_same _ fun _ => map_bind_same _ fun current => map_bind_same _ fun _ => ?_
  refine map_bind_congr (redeem_query q q') fun r r' same => ?_
  obtain ⟨grams, endPeriod, status, aum, deposits, withdrawals, sent⟩ := r
  simp only [Redemption.upToQuery, Redemption.mk.injEq] at same
  obtain ⟨rfl, rfl, rfl, rfl, rfl, rfl, same⟩ := same
  refine map_bind_same _ fun _ => map_bind_same _ fun _ => map_bind_same _ fun _ => map_bind_same _ fun _ => ?_
  simp [Except.map, same]

theorem parseRequest_binary (queryId : Uint 64) (n : Uint 32) :
    parseRequest (binaryRequest queryId n) = .ok (.redeem queryId n) := by
  have nonempty : (binaryRequest queryId n).isEmpty = false := rfl
  rw [parseRequest, nonempty, binaryRequest]
  simp [parseOperation]

/-- A redemption by text has the effect of the binary request, for any pool, sender and value. -/
theorem text_redemption_agrees (cellHash : Cell → Uint 256) (s : State) (m : InMsg) (queryId : Uint 64) (n : Uint 32)
    (zeros : Nat) :
    upToQuery (receive cellHash s (.internal { m with body := textRequest zeros n })) =
      upToQuery (receive cellHash s (.internal { m with body := binaryRequest queryId n })) := by
  change upToQuery (recvInternal cellHash s _) = upToQuery (recvInternal cellHash s _)
  unfold recvInternal
  rw [textRequest, parseRequest_comment, decodeText_decimal, parseRequest_binary]
  by_cases bounced : m.flags.val.testBit 0
  · simp [InMsg.bounced, bounced]
  · simp only [InMsg.bounced, bounced]
    exact processRedeem_query 0 queryId m.value n

end Agreement

end TonStaking.Guarantees.TextRedemption
