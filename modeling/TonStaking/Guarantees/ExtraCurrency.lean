import TonStaking.Source.Currency

/-!
# Extra currencies cannot be created or stolen

Subtraction of a dictionary of extra currencies should succeed exactly when
every currency of the subtrahend is there in the minuend. `dict_combine_with`
does not pass its mode on below a fork that both dictionaries have, so a
currency that only the subtrahend has is there merged into the difference. The
arithmetic is right exactly for the pairs without such a currency and without a
sum of more than 31 bytes.
-/
namespace TonStaking.Guarantees.ExtraCurrency

open Tvm Tvm.Hashmap TonStaking.Source.Currency Extra
open TonStaking.Source.Currency.Extra (cells amount)

/-- Arithmetic and order of extra currencies for one pair of dictionaries. -/
structure Sound (a b : Option Extra) : Prop where
  sub_iff : (∃ c, subExtraCurrency (cells a) (cells b) = .ok c) ↔ ∀ id, amount b id ≤ amount a id
  sub_result : ∀ c, subExtraCurrency (cells a) (cells b) = .ok c →
    ∃ d, c = cells d ∧ ∀ id, amount d id + amount b id = amount a id
  ge_iff : ∀ g1 g2 : Grams, CurrencyCollection.ge ⟨g1.val, cells a⟩ ⟨g2.val, cells b⟩ = .ok true ↔
    g2 ≤ g1 ∧ ∀ id, amount b id ≤ amount a id
  add_sub : ∀ g1 g2 : Grams, (CurrencyCollection.add ⟨g1.val, cells a⟩ ⟨g2.val, cells b⟩ >>= fun sum =>
    sum.sub ⟨g2.val, cells b⟩) = .ok ⟨g1.val, cells a⟩

/-- The subtrahend has a currency of its own below a fork that both dictionaries have. -/
def Leaks (a b : Option Extra) : Prop :=
  Extra.Covers a b ∧ Extra.PartTogether a b ∧ ∃ id, amount a id = 0 ∧ 0 < amount b id

variable {a b c : Option Extra}

theorem sub_eq_ok {c : Option Cell} : subExtraCurrency (cells a) (cells b) = .ok c ↔
    ∃ d, sub a b = some d ∧ c = cells d := by
  rw [subExtraCurrency_cells]
  cases sub a b with
  | none => simp [outcome]
  | some d =>
    simp only [outcome, Except.ok.injEq, Option.some.injEq, exists_eq_left']
    exact eq_comm

theorem ge_eq_true (g1 g2 : Grams) :
    CurrencyCollection.ge ⟨g1.val, cells a⟩ ⟨g2.val, cells b⟩ = .ok true ↔ g2 ≤ g1 ∧ ∃ d, sub a b = some d := by
  unfold CurrencyCollection.ge
  rw [subExtraCurrency_cells]
  split
  · next less =>
    have : ¬ g2 ≤ g1 := by
      rw [Fin.le_def]
      simp only at less
      omega
    simp [this]
  · next enough =>
    have : g2 ≤ g1 := by
      rw [Fin.le_def]
      simp only at enough
      omega
    cases sub a b with
    | none => simp [outcome]
    | some d => simp [outcome, this]

theorem leaks_of_sub (done : sub a b = some c) (short : ¬ ∀ id, amount b id ≤ amount a id) : Leaks a b := by
  have covers := sub_covers done
  obtain ⟨id, lacking⟩ := not_forall.mp short
  have absent : amount a id = 0 ∧ 0 < amount b id := by
    rcases Nat.eq_zero_or_pos (amount a id) with zero | pos
    · exact ⟨zero, by omega⟩
    · have := covers id pos (by omega)
      omega
  refine ⟨covers, ?_, id, absent⟩
  cases b with
  | none =>
    rw [amount_none] at absent
    omega
  | some e2 =>
    cases a with
    | none => cases done
    | some e1 =>
      rcases reaches_cases (sub_reaches done) with keys | part
      · have := keys id absent.2
        omega
      · exact part

theorem sub_of_leaks (leaks : Leaks a b) : ∃ c, sub a b = some c := by
  obtain ⟨covers, part, id, absent, present⟩ := leaks
  cases b with
  | none =>
    rw [amount_none] at present
    omega
  | some e2 =>
    cases a with
    | none =>
      obtain ⟨p, -, sides⟩ := part
      obtain ⟨id, pos, -⟩ := (sides false).2
      rw [amount_none] at pos
      omega
    | some e1 => exact sub_of_reaches (reaches_of_partTogether part) covers

theorem add_sub_of_fits (fits : ∀ id, amount a id + amount b id < 2 ^ 248) (g1 g2 : Grams) :
    (CurrencyCollection.add ⟨g1.val, cells a⟩ ⟨g2.val, cells b⟩ >>= fun sum =>
      sum.sub ⟨g2.val, cells b⟩) = .ok ⟨g1.val, cells a⟩ := by
  obtain ⟨sum, added, amounts⟩ := add_eq_some fits
  obtain ⟨back, subtracted, rest⟩ := sub_of_le (a := sum) (b := b) fun id => by
    rw [amounts]
    omega
  have same : back = a := by
    apply ext_amount
    intro id
    have first := amounts id
    have second := rest id
    omega
  subst same
  simp [CurrencyCollection.add, CurrencyCollection.sub, addExtraCurrency_cells, added,
    outcome, subExtraCurrency_cells, subtracted]

theorem fits_of_add_sub (g1 g2 : Grams)
    (done : (CurrencyCollection.add ⟨g1.val, cells a⟩ ⟨g2.val, cells b⟩ >>= fun sum =>
      sum.sub ⟨g2.val, cells b⟩) = .ok ⟨g1.val, cells a⟩) (id : Uint 32) :
    amount a id + amount b id < 2 ^ 248 := by
  cases added : add a b with
  | none =>
    simp [CurrencyCollection.add, addExtraCurrency_cells, added, outcome] at done
  | some sum => exact add_fits added id

/-- The arithmetic of extra currencies is sound for exactly the pairs that do not leak and whose
sums can be stored. -/
theorem extra_currency_sound_iff (a b : Option Extra) :
    Sound a b ↔ ¬ Leaks a b ∧ ∀ id, amount a id + amount b id < 2 ^ 248 := by
  constructor
  · intro sound
    refine ⟨fun leaks => ?_, fits_of_add_sub 0 0 (sound.add_sub 0 0)⟩
    obtain ⟨c, done⟩ := sub_of_leaks leaks
    have enough := sound.sub_iff.mp ⟨cells c, sub_eq_ok.mpr ⟨c, done, rfl⟩⟩
    obtain ⟨-, -, id, absent, present⟩ := leaks
    have := enough id
    omega
  · rintro ⟨sealed, fits⟩
    have exact_sub : (∃ c, sub a b = some c) ↔ ∀ id, amount b id ≤ amount a id := by
      constructor
      · rintro ⟨c, done⟩
        by_contra short
        exact sealed (leaks_of_sub done short)
      · intro enough
        obtain ⟨c, done, -⟩ := sub_of_le enough
        exact ⟨c, done⟩
    refine ⟨?_, ?_, ?_, add_sub_of_fits fits⟩
    · rw [← exact_sub]
      constructor
      · rintro ⟨c, done⟩
        obtain ⟨d, done, -⟩ := sub_eq_ok.mp done
        exact ⟨d, done⟩
      · rintro ⟨d, done⟩
        exact ⟨cells d, sub_eq_ok.mpr ⟨d, done, rfl⟩⟩
    · intro c done
      obtain ⟨d, subtracted, rfl⟩ := sub_eq_ok.mp done
      refine ⟨d, rfl, fun id => ?_⟩
      obtain ⟨d', done', rest⟩ := sub_of_le (exact_sub.mp ⟨d, subtracted⟩)
      rw [subtracted, Option.some.injEq] at done'
      rw [done']
      exact rest id
    · intro g1 g2
      rw [ge_eq_true, exact_sub]

/-- A currency below and one at the middle of the range of ids. -/
def sampleExtra (low x y : Nat) (posX : 0 < x) (boundX : x < 2 ^ 248) (posY : 0 < y)
    (boundY : y < 2 ^ 248) : Extra where
  trie := .fork [] (.leaf (bitsOf 31 low) (amountSlice x)) (.leaf (bitsOf 31 0) (amountSlice y))
  wf := by
    have left := Trie.WF.leaf (bitsOf 31 low) (amountSlice x)
    have right := Trie.WF.leaf (bitsOf 31 0) (amountSlice y)
    rw [bitsOf_length] at left right
    exact .fork [] left right
  amounts := ⟨⟨x, posX, boundX, rfl⟩, ⟨y, posY, boundY, rfl⟩⟩

def sampleMinuend : Extra := sampleExtra 0 5 5 (by decide) (by decide) (by decide) (by decide)

def sampleSubtrahend : Extra := sampleExtra 1 3 1 (by decide) (by decide) (by decide) (by decide)

/-- The difference has 3 units of the currency 1, which the minuend does not have. -/
theorem foreign_currency_created :
    ∃ d, subExtraCurrency (cells (some sampleMinuend)) (cells (some sampleSubtrahend)) = .ok (cells d) ∧
      amount (some sampleMinuend) 1 = 0 ∧ amount (some sampleSubtrahend) 1 = 3 ∧ amount d 1 = 3 := by
  have ran : (Trie.combine subValues 33 .strict sampleMinuend.trie sampleSubtrahend.trie).isSome = true := by
    decide +kernel
  obtain ⟨r, ran⟩ := Option.isSome_iff_exists.mp ran
  obtain ⟨d, done, -⟩ := combined_of_combine subValues_keeps ran
  have subtracted : sub (some sampleMinuend) (some sampleSubtrahend) = some d := done
  have absent : amount (some sampleMinuend) 1 = 0 := by decide +kernel
  have present : amount (some sampleSubtrahend) 1 = 3 := by decide +kernel
  refine ⟨d, sub_eq_ok.mpr ⟨d, subtracted, rfl⟩, absent, present, ?_⟩
  rw [sub_amount subtracted, if_pos absent, present]

/-- The values of a list, added up on cells. -/
def addAll (a : Option Cell) : List (Option Extra) → Combining (Option Cell)
  | [] => .ok a
  | b :: l => do addAll (← addExtraCurrency a (cells b)) l

def total (l : List (Option Extra)) (id : Uint 32) : Nat := (l.map (amount · id)).sum

/-- Sums are refused only if the amount of some currency has no room, and are exact otherwise. -/
theorem addAll_cases (a : Option Extra) (l : List (Option Extra)) :
    (∃ c, addAll (cells a) l = .ok (cells c) ∧ ∀ id, amount c id = amount a id + total l id) ∨
      addAll (cells a) l = .error .refused ∧ ∃ id, 2 ^ 248 ≤ amount a id + total l id := by
  induction l generalizing a with
  | nil => exact .inl ⟨a, rfl, fun id => rfl⟩
  | cons b l ih =>
    have more (id : Uint 32) : total (b :: l) id = amount b id + total l id := rfl
    simp only [addAll, addExtraCurrency_cells, more]
    by_cases fits : ∀ id, amount a id + amount b id < 2 ^ 248
    · obtain ⟨c, summed, amounts⟩ := add_eq_some fits
      simp only [summed, ← Nat.add_assoc, ← amounts]
      exact ih c
    · have refused : add a b = none := by
        cases summed : add a b with
        | none => rfl
        | some c => exact absurd (add_fits summed) fits
      obtain ⟨id, large⟩ := not_forall.mp fits
      rw [refused]
      exact .inr ⟨rfl, id, by omega⟩

/-- Values are added up exactly, to the same cell or the same refusal in every order. -/
theorem sums_in_any_order (l : List (Option Extra)) :
    ((∀ id, total l id < 2 ^ 248) → ∃ c, addAll none l = .ok (cells c) ∧ ∀ id, amount c id = total l id) ∧
      ∀ order, order.Perm l → addAll none order = addAll none l := by
  have cases (l : List (Option Extra)) := addAll_cases none l
  simp only [amount_none, Nat.zero_add] at cases
  refine ⟨fun fits => (cases l).resolve_right ?_, fun order same => ?_⟩
  · rintro ⟨-, id, large⟩
    exact absurd (fits id) (not_lt.mpr large)
  have totals (id : Uint 32) : total order id = total l id := (same.map _).sum_nat
  rcases cases order with ⟨c, summed, amounts⟩ | ⟨refused, id, large⟩
  · rcases cases l with ⟨d, summed', amounts'⟩ | ⟨-, id, large⟩
    · obtain rfl : c = d := ext_amount fun id => by rw [amounts, amounts', totals]
      exact summed.trans summed'.symm
    · rw [← totals, ← amounts] at large
      exact absurd (amount_lt c id) (not_lt.mpr large)
  · rcases cases l with ⟨d, -, amounts'⟩ | ⟨refused', -⟩
    · rw [totals, ← amounts'] at large
      exact absurd (amount_lt d id) (not_lt.mpr large)
    · exact refused.trans refused'.symm

end TonStaking.Guarantees.ExtraCurrency
