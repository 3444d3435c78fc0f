import TonStaking.Tvm.HashmapCombineCells

/-!
# Extra currencies and currency collections

`crypto/block/block-parse.cpp` 323-351 (`VarUIntegerPos`) and 502-574
(`HashmapE::add_values_ref`, `sub_values_ref`), `crypto/tl/tlblib.hpp` 216-224,
`crypto/block/block.cpp` 1087-1247 (`CurrencyCollection`) and 1649-1670
(`add_extra_currency`, `sub_extra_currency`). A dictionary of extra currencies
has 32-bit keys and amounts of at most 31 bytes with a leading byte other than
zero. An invalid collection is a refused outcome.
-/
namespace TonStaking.Source.Currency

open Tvm Tvm.Hashmap Trie

/-- `VarUIntegerPos::as_integer_skip` for 32: a byte count that is not zero, then as many bytes,
the first one not zero. -/
def asInteger (s : Slice) : Option Nat :=
  if 5 ≤ s.bits.length then
    let len := natOf (s.bits.take 5)
    let rest := s.bits.drop 5
    if 0 < len ∧ natOf (rest.take 8) ≠ 0 ∧ 8 * len ≤ rest.length then some (natOf (rest.take (8 * len)))
    else none
  else none

/-- The bits that `store_integer_value` writes. -/
def amountBits (x : Nat) : List Bool := bitsOf 5 (byteLen x) ++ bitsOf (8 * byteLen x) x

def amountSlice (x : Nat) : Slice := ⟨amountBits x, []⟩

/-- `TLB::add_values` of `t_VarUIntegerPos_32`. -/
def addValues : CombineFunc := fun cs1 cs2 =>
  match asInteger cs1, asInteger cs2 with
  | some x, some y => if x + y < 2 ^ 248 then some (some (amountSlice (x + y))) else none
  | _, _ => none

/-- `TLB::sub_values` of `t_VarUIntegerPosRelaxed_32`: a negative difference is not stored, a zero
one leaves the key out. -/
def subValues : CombineFunc := fun cs1 cs2 =>
  match asInteger cs1, asInteger cs2 with
  | some x, some y =>
    if x < y then none else if x - y = 0 then some none else some (some (amountSlice (x - y)))
  | _, _ => none

/-- The value of an extra currency. -/
def Amount (v : Slice) : Prop := ∃ x, 0 < x ∧ x < 2 ^ 248 ∧ v = amountSlice x

theorem byteLen_pos {x : Nat} (pos : 0 < x) : 0 < byteLen x := by
  unfold byteLen bitLen
  rw [if_neg (by omega)]
  omega

theorem byteLen_amount {x : Nat} (bound : x < 2 ^ 248) : byteLen x ≤ 31 := by
  have := bitLen_le bound
  unfold byteLen
  omega

theorem leading_byte {x : Nat} (pos : 0 < x) : natOf ((bitsOf (8 * byteLen x) x).take 8) ≠ 0 := by
  have count := byteLen_pos pos
  have split : 8 * byteLen x = 8 + 8 * (byteLen x - 1) := by omega
  have long : 2 ^ (8 * (byteLen x - 1)) ≤ x := by
    by_contra small
    have fits := bitLen_le (not_le.mp small)
    unfold byteLen at count fits
    omega
  have short : x / 2 ^ (8 * (byteLen x - 1)) < 2 ^ 8 := by
    apply Nat.div_lt_of_lt_mul
    rw [← Nat.pow_add, Nat.add_comm, ← split]
    exact lt_two_pow_byteLen x
  rw [split, bitsOf_take, natOf_bitsOf, Nat.mod_eq_of_lt short]
  exact (Nat.div_pos long (Nat.two_pow_pos _)).ne'

theorem asInteger_amountSlice {x : Nat} (pos : 0 < x) (bound : x < 2 ^ 248) : asInteger (amountSlice x) = some x := by
  have count := byteLen_pos pos
  have fits := byteLen_amount bound
  have header : natOf ((amountBits x).take 5) = byteLen x := by
    rw [amountBits, List.take_left' (bitsOf_length 5 _), natOf_bitsOf]
    omega
  have body : (amountBits x).drop 5 = bitsOf (8 * byteLen x) x :=
    List.drop_left' (bitsOf_length 5 _)
  have whole : (bitsOf (8 * byteLen x) x).take (8 * byteLen x) = bitsOf (8 * byteLen x) x :=
    List.take_of_length_le (by simp)
  have value : natOf (bitsOf (8 * byteLen x) x) = x := by
    rw [natOf_bitsOf, Nat.mod_eq_of_lt (lt_two_pow_byteLen x)]
  have enough : 5 ≤ (amountBits x).length := by simp [amountBits]
  simp only [asInteger, amountSlice, if_pos enough, header, body, whole, value]
  rw [if_pos ⟨count, leading_byte pos, by simp⟩]

theorem Amount.small {v : Slice} (amount : Amount v) : Small v := by
  obtain ⟨x, -, bound, rfl⟩ := amount
  have := byteLen_amount bound
  refine ⟨?_, rfl⟩
  simp only [amountSlice, amountBits, List.length_append, bitsOf_length]
  omega

theorem addValues_amounts {x y : Nat} (posX : 0 < x) (boundX : x < 2 ^ 248) (posY : 0 < y)
    (boundY : y < 2 ^ 248) : addValues (amountSlice x) (amountSlice y) =
      if x + y < 2 ^ 248 then some (some (amountSlice (x + y))) else none := by
  simp [addValues, asInteger_amountSlice posX boundX, asInteger_amountSlice posY boundY]

theorem subValues_amounts {x y : Nat} (posX : 0 < x) (boundX : x < 2 ^ 248) (posY : 0 < y)
    (boundY : y < 2 ^ 248) : subValues (amountSlice x) (amountSlice y) =
      if x < y then none else if x - y = 0 then some none else some (some (amountSlice (x - y))) := by
  simp [subValues, asInteger_amountSlice posX boundX, asInteger_amountSlice posY boundY]

theorem addValues_keeps (v1 v2 v : Slice) (amount1 : Amount v1) (amount2 : Amount v2)
    (done : addValues v1 v2 = some (some v)) : Amount v := by
  obtain ⟨x, posX, boundX, rfl⟩ := amount1
  obtain ⟨y, posY, boundY, rfl⟩ := amount2
  rw [addValues_amounts posX boundX posY boundY] at done
  split at done
  · next fits =>
    simp only [Option.some.injEq] at done
    exact ⟨x + y, by omega, fits, done.symm⟩
  · cases done

theorem subValues_keeps (v1 v2 v : Slice) (amount1 : Amount v1) (amount2 : Amount v2)
    (done : subValues v1 v2 = some (some v)) : Amount v := by
  obtain ⟨x, posX, boundX, rfl⟩ := amount1
  obtain ⟨y, posY, boundY, rfl⟩ := amount2
  rw [subValues_amounts posX boundX posY boundY] at done
  split at done
  · cases done
  split at done
  · cases done
  · simp only [Option.some.injEq] at done
    exact ⟨x - y, by omega, by omega, done.symm⟩

section Dictionaries

def addExtraCurrency (extra1 extra2 : Option Cell) : Combining (Option Cell) :=
  match extra2, extra1 with
  | none, _ => .ok extra1
  | some _, none => .ok extra2
  | some _, some _ => dictCombineWith addValues 33 extra1 extra2 32 .default 0 0

def subExtraCurrency (extra1 extra2 : Option Cell) : Combining (Option Cell) :=
  match extra2, extra1 with
  | none, _ => .ok extra1
  | some _, none => .error .refused
  | some _, some _ => dictCombineWith subValues 33 extra1 extra2 32 .strict 0 0

/-- A dictionary of extra currencies that is not empty. -/
structure Extra where
  trie : Trie
  wf : trie.WF 32
  amounts : trie.All Amount

namespace Extra

def toCell (e : Extra) : Cell := e.trie.toCell 32

/-- The dictionaries on cells; an empty one has no cell. -/
def cells (e : Option Extra) : Option Cell := e.map toCell

/-- The amount of a currency, zero for one without an entry. -/
def amount (e : Option Extra) (id : Uint 32) : Nat :=
  match Trie.lookup (e.map trie) (Uint.bits id) with
  | none => 0
  | some v => (asInteger v).getD 0

variable {id : Uint 32} {f : CombineFunc} {mode : CombineMode} {e1 e2 e : Extra} {c a b : Option Extra}

theorem pair (e1 e2 : Extra) : Trie.Pair 32 e1.trie e2.trie := e1.wf.pair e2.wf

theorem get?_eq_amount {v : Slice} (found : e.trie.get? (Uint.bits id) = some v) :
    v = amountSlice (amount (some e) id) ∧ 0 < amount (some e) id ∧ amount (some e) id < 2 ^ 248 := by
  obtain ⟨x, pos, bound, rfl⟩ := e.amounts.get? found
  have value : amount (some e) id = x := by
    simp [amount, found, asInteger_amountSlice pos bound]
  rw [value]
  exact ⟨rfl, pos, bound⟩

theorem get?_of_amount_pos (pos : 0 < amount (some e) id) :
    e.trie.get? (Uint.bits id) = some (amountSlice (amount (some e) id)) := by
  cases found : e.trie.get? (Uint.bits id) with
  | none => simp [amount, found] at pos
  | some v => rw [(get?_eq_amount found).1]

theorem amount_none (id : Uint 32) : amount none id = 0 := rfl

theorem amount_lt (a : Option Extra) (id : Uint 32) : amount a id < 2 ^ 248 := by
  cases a with
  | none => exact Nat.two_pow_pos 248
  | some e =>
    rcases Nat.eq_zero_or_pos (amount (some e) id) with zero | pos
    · rw [zero]
      exact Nat.two_pow_pos 248
    · exact (get?_eq_amount (get?_of_amount_pos pos)).2.2

theorem get?_eq (id : Uint 32) : e.trie.get? (Uint.bits id) =
    if amount (some e) id = 0 then none else some (amountSlice (amount (some e) id)) := by
  split
  · next zero =>
    cases found : e.trie.get? (Uint.bits id) with
    | none => rfl
    | some v =>
      have := (get?_eq_amount found).2.1
      omega
  · next nonzero => exact get?_of_amount_pos (Nat.pos_of_ne_zero nonzero)

theorem isSome_iff (id : Uint 32) : (e.trie.get? (Uint.bits id)).isSome ↔ 0 < amount (some e) id := by
  rw [get?_eq]
  split
  · next zero => simp [zero]
  · next nonzero => simp [Nat.pos_of_ne_zero nonzero]

theorem ext_amount (same : ∀ id, amount a id = amount b id) : a = b := by
  have occupied (e : Extra) : ∃ id, 0 < amount (some e) id := by
    obtain ⟨k, len, found⟩ := e.wf.exists_key
    obtain ⟨id, rfl⟩ := Uint.exists_bits len
    exact ⟨id, (isSome_iff id).mp found⟩
  cases a with
  | none =>
    cases b with
    | none => rfl
    | some e =>
      obtain ⟨id, pos⟩ := occupied e
      rw [← same, amount_none] at pos
      omega
  | some e1 =>
    cases b with
    | none =>
      obtain ⟨id, pos⟩ := occupied e1
      rw [same, amount_none] at pos
      omega
    | some e2 =>
      have tries : e1.trie = e2.trie := by
        apply (pair e1 e2).ext
        intro k len
        obtain ⟨id, rfl⟩ := Uint.exists_bits len
        rw [get?_eq, get?_eq, same]
      cases e1
      cases tries
      rfl

/-- The combination of two dictionaries as dictionaries. -/
def combined (f : CombineFunc) (keeps : ∀ v1 v2 v, Amount v1 → Amount v2 → f v1 v2 = some (some v) → Amount v)
    (mode : CombineMode) (e1 e2 : Extra) : Option (Option Extra) :=
  match done : Trie.combine f 33 mode e1.trie e2.trie with
  | none => none
  | some none => some none
  | some (some t) => some (some ⟨t, ((pair e1 e2).combines done).wf t rfl,
      ((pair e1 e2).combines done).all keeps e1.amounts e2.amounts t rfl⟩)

def add : Option Extra → Option Extra → Option (Option Extra)
  | a, none => some a
  | none, some e2 => some (some e2)
  | some e1, some e2 => combined addValues addValues_keeps .default e1 e2

def sub : Option Extra → Option Extra → Option (Option Extra)
  | a, none => some a
  | none, some _ => none
  | some e1, some e2 => combined subValues subValues_keeps .strict e1 e2

/-- An outcome on dictionaries as an outcome on cells. -/
def outcome : Option (Option Extra) → Combining (Option Cell)
  | none => .error .refused
  | some r => .ok (cells r)

section

variable (keeps : ∀ v1 v2 v, Amount v1 → Amount v2 → f v1 v2 = some (some v) → Amount v)

theorem combined_trie (mode : CombineMode) (e1 e2 : Extra) :
    (combined f keeps mode e1 e2).map (Option.map trie) = combine f 33 mode e1.trie e2.trie := by
  unfold combined
  split
  · next done => exact done.symm
  · next done => exact done.symm
  · next t done => exact done.symm

theorem combined_cells (mode : CombineMode) (e1 e2 : Extra) :
    dictCombineWith f 33 (some e1.toCell) (some e2.toCell) 32 mode 0 0 = outcome (combined f keeps mode e1 e2) := by
  have refined := dictCombineWith_toCell (fun v => Amount.small) keeps (pair e1 e2) e1.wf e2.wf e1.amounts
    e2.amounts mode [] [] (by decide) (by omega : 32 < 33)
  simp only [CombinesCells, extend_nil, List.length_nil, ← combined_trie keeps] at refined
  unfold toCell
  rw [refined]
  cases combined f keeps mode e1 e2 with
  | none => rfl
  | some r => cases r <;> rfl

theorem combined_of_combine {r : Option Trie} (done : combine f 33 mode e1.trie e2.trie = some r) :
    ∃ c, combined f keeps mode e1 e2 = some c ∧ c.map trie = r := by
  rwa [← combined_trie keeps, Option.map_eq_some_iff] at done

theorem combine_of_combined (done : combined f keeps mode e1 e2 = some c) :
    combine f 33 mode e1.trie e2.trie = some (c.map trie) := by
  rw [← combined_trie keeps, done]
  rfl

end

theorem addExtraCurrency_cells (a b : Option Extra) : addExtraCurrency (cells a) (cells b) = outcome (add a b) := by
  cases b with
  | none => cases a <;> rfl
  | some e2 =>
    cases a with
    | none => rfl
    | some e1 => exact combined_cells addValues_keeps .default e1 e2

theorem subExtraCurrency_cells (a b : Option Extra) : subExtraCurrency (cells a) (cells b) = outcome (sub a b) := by
  cases b with
  | none => cases a <;> rfl
  | some e2 =>
    cases a with
    | none => rfl
    | some e1 => exact combined_cells subValues_keeps .strict e1 e2

/-- Two dictionaries agree for `f` when `f` refuses no pair of their amounts. -/
theorem agree_iff (e1 e2 : Extra) : Trie.Agree f e1.trie e2.trie ↔
    ∀ id, 0 < amount (some e1) id → 0 < amount (some e2) id →
      f (amountSlice (amount (some e1) id)) (amountSlice (amount (some e2) id)) ≠ none := by
  constructor
  · intro agree id pos1 pos2
    exact agree _ _ _ (get?_of_amount_pos pos1) (get?_of_amount_pos pos2)
  · intro fine k v1 v2 found1 found2
    have len := e1.wf.length_of_get? (Option.isSome_iff_exists.mpr ⟨v1, found1⟩)
    obtain ⟨id, rfl⟩ := Uint.exists_bits len
    obtain ⟨eq1, pos1, -⟩ := get?_eq_amount found1
    obtain ⟨eq2, pos2, -⟩ := get?_eq_amount found2
    rw [eq1, eq2]
    exact fine id pos1 pos2

theorem asInteger_amount (pos : 0 < amount (some e) id) :
    asInteger (amountSlice (amount (some e) id)) = some (amount (some e) id) :=
  asInteger_amountSlice pos (amount_lt (some e) id)

/-- Only where both have some of a currency, a union holds what its function makes of it. -/
theorem amount_union {f : CombineFunc} {n : Nat}
    (found : lookup (c.map trie) (Uint.bits id) = merged f (e1.trie.get? (Uint.bits id)) (e2.trie.get? (Uint.bits id)))
    (second : amount (some e1) id = 0 → amount (some e2) id = n)
    (first : amount (some e2) id = 0 → amount (some e1) id = n)
    (both : 0 < amount (some e1) id → 0 < amount (some e2) id →
      (((f (amountSlice (amount (some e1) id)) (amountSlice (amount (some e2) id))).getD none).bind asInteger).getD 0 = n) :
    amount c id = n := by
  have value : amount c id = ((lookup (c.map trie) (Uint.bits id)).bind asInteger).getD 0 := by
    unfold amount
    cases lookup (c.map trie) (Uint.bits id) <;> rfl
  rw [value, found, get?_eq, get?_eq]
  rcases Nat.eq_zero_or_pos (amount (some e1) id) with zero1 | pos1
  · rcases Nat.eq_zero_or_pos (amount (some e2) id) with zero2 | pos2
    · simp [zero1, zero2, merged, ← second zero1]
    · simp [zero1, pos2.ne', merged, asInteger_amount pos2, ← second zero1]
  · rcases Nat.eq_zero_or_pos (amount (some e2) id) with zero2 | pos2
    · simp [zero2, pos1.ne', merged, asInteger_amount pos1, ← first zero2]
    · simp [pos1.ne', pos2.ne', merged, both pos1 pos2]

/-- Addition goes through when no sum needs more than 31 bytes. -/
theorem add_eq_some (fits : ∀ id, amount a id + amount b id < 2 ^ 248) :
    ∃ c, add a b = some c ∧ ∀ id, amount c id = amount a id + amount b id := by
  cases b with
  | none => exact ⟨a, by cases a <;> rfl, fun id => by rw [amount_none, Nat.add_zero]⟩
  | some e2 =>
    cases a with
    | none => exact ⟨some e2, rfl, fun id => by rw [amount_none, Nat.zero_add]⟩
    | some e1 =>
      have agree : Trie.Agree addValues e1.trie e2.trie := by
        rw [agree_iff]
        intro id pos1 pos2
        rw [addValues_amounts pos1 (amount_lt _ id) pos2 (amount_lt _ id), if_pos (fits id)]
        simp
      obtain ⟨r, done, union⟩ := combine_union (pair e1 e2) (by omega : 32 < 33) agree
      obtain ⟨c, summed, rfl⟩ := combined_of_combine addValues_keeps done
      refine ⟨c, summed, fun id => ?_⟩
      refine amount_union (union _ (Uint.bits_length id)) (by omega) (by omega) fun pos1 pos2 => ?_
      rw [addValues_amounts pos1 (amount_lt _ id) pos2 (amount_lt _ id), if_pos (fits id)]
      simp [asInteger_amountSlice (Nat.add_pos_left pos1 _) (fits id)]

theorem add_fits (done : add a b = some c) (id : Uint 32) : amount a id + amount b id < 2 ^ 248 := by
  cases b with
  | none => exact amount_lt a id
  | some e2 =>
    cases a with
    | none =>
      rw [amount_none, Nat.zero_add]
      exact amount_lt (some e2) id
    | some e1 =>
      have agree := (agree_iff e1 e2).mp ((pair e1 e2).combines (combine_of_combined addValues_keeps done) |>.agree)
      by_contra beyond
      have below1 := amount_lt (some e1) id
      have below2 := amount_lt (some e2) id
      have refused := agree id (by omega) (by omega)
      rw [addValues_amounts (by omega) below1 (by omega) below2, if_neg beyond] at refused
      exact refused rfl

/-- `a` has enough of every currency that both have. -/
def Covers (a b : Option Extra) : Prop :=
  ∀ id, 0 < amount a id → 0 < amount b id → amount b id ≤ amount a id

theorem agree_sub_iff (e1 e2 : Extra) : Trie.Agree subValues e1.trie e2.trie ↔ Covers (some e1) (some e2) := by
  rw [agree_iff]
  refine forall_congr' fun id => forall_congr' fun pos1 => forall_congr' fun pos2 => ?_
  rw [subValues_amounts pos1 (amount_lt _ id) pos2 (amount_lt _ id)]
  split
  · next less => simp; omega
  rename_i enough
  simp only [not_lt.mp enough]
  split <;> simp

theorem sub_reaches (done : sub (some e1) (some e2) = some c) : Trie.Reaches e1.trie e2.trie := by
  by_contra missed
  have ran := combine_of_combined subValues_keeps done
  rw [combine_strict_of_not_reaches e1.wf (pair e1 e2) missed] at ran
  cases ran

theorem sub_of_reaches (reached : Trie.Reaches e1.trie e2.trie) (covers : Covers (some e1) (some e2)) :
    ∃ c, sub (some e1) (some e2) = some c := by
  have agree := (agree_sub_iff e1 e2).mpr covers
  obtain ⟨r, ran, -⟩ := combine_union (pair e1 e2) (by omega : 32 < 33) agree
  rw [← combine_strict_of_reaches (pair e1 e2) reached] at ran
  obtain ⟨c, done, -⟩ := combined_of_combine subValues_keeps ran
  exact ⟨c, done⟩

/-- A subtraction that goes through computes the difference of the common currencies and keeps
every other one of both operands. -/
theorem sub_amount (done : sub a b = some c) (id : Uint 32) :
    amount c id = if amount a id = 0 then amount b id else amount a id - amount b id := by
  cases b with
  | none =>
    obtain rfl : a = c := by cases a <;> simpa [sub] using done
    split
    · next zero => exact zero
    · rfl
  | some e2 =>
    cases a with
    | none => cases done
    | some e1 =>
      have ran := combine_of_combined subValues_keeps done
      have agree := ((pair e1 e2).combines ran).agree
      rw [combine_strict_of_reaches (pair e1 e2) (sub_reaches done)] at ran
      obtain ⟨r, ran', union⟩ := combine_union (pair e1 e2) (by omega : 32 < 33) agree
      rw [ran, Option.some.injEq] at ran'
      subst ran'
      have covers := (agree_sub_iff e1 e2).mp agree
      refine amount_union (union _ (Uint.bits_length id)) (by grind) (by grind) fun pos1 pos2 => ?_
      rw [subValues_amounts pos1 (amount_lt _ id) pos2 (amount_lt _ id), if_neg (not_lt.mpr (covers id pos1 pos2)),
        if_neg pos1.ne']
      split_ifs with zero
      · exact zero.symm
      · simp [asInteger_amountSlice (Nat.pos_of_ne_zero zero) ((Nat.sub_le _ _).trans_lt (amount_lt _ id))]

theorem sub_covers (done : sub a b = some c) : Covers a b := by
  cases b with
  | none =>
    intro id _ pos
    rw [amount_none] at pos
    omega
  | some e2 =>
    cases a with
    | none => cases done
    | some e1 =>
      exact (agree_sub_iff e1 e2).mp ((pair e1 e2).combines (combine_of_combined subValues_keeps done) |>.agree)

/-- A subtraction of what is there goes through. -/
theorem sub_of_le (enough : ∀ id, amount b id ≤ amount a id) :
    ∃ c, sub a b = some c ∧ ∀ id, amount c id + amount b id = amount a id := by
  have done : ∃ c, sub a b = some c := by
    cases b with
    | none => exact ⟨a, by cases a <;> rfl⟩
    | some e2 =>
      have keys (id : Uint 32) (found : (e2.trie.get? (Uint.bits id)).isSome) : 0 < amount a id :=
        lt_of_lt_of_le ((isSome_iff id).mp found) (enough id)
      cases a with
      | none =>
        obtain ⟨k, len, found⟩ := e2.wf.exists_key
        obtain ⟨id, rfl⟩ := Uint.exists_bits len
        have := keys id found
        rw [amount_none] at this
        omega
      | some e1 =>
        have reached : Trie.Reaches e1.trie e2.trie := by
          apply reaches_of_keys e2.wf
          intro k found
          obtain ⟨id, rfl⟩ := Uint.exists_bits (e2.wf.length_of_get? found)
          exact (isSome_iff id).mpr (keys id found)
        exact sub_of_reaches reached fun id _ _ => enough id
  obtain ⟨c, done⟩ := done
  refine ⟨c, done, fun id => ?_⟩
  have le := enough id
  rw [sub_amount done]
  split <;> omega

/-- Both dictionaries have currencies on both sides of the first bit at which the currencies of
`b` part. -/
def PartTogether (a b : Option Extra) : Prop :=
  ∃ p : List Bool, (∀ id, 0 < amount b id → p <+: Uint.bits id) ∧
    ∀ c, (∃ id, 0 < amount b id ∧ p ++ [c] <+: Uint.bits id) ∧
      ∃ id, 0 < amount a id ∧ p ++ [c] <+: Uint.bits id

theorem exists_id {p k : List Bool} {c : Bool} (found : (e.trie.get? (p ++ c :: k)).isSome) :
    ∃ id, 0 < amount (some e) id ∧ p ++ [c] <+: Uint.bits id := by
  obtain ⟨id, same⟩ := Uint.exists_bits (e.wf.length_of_get? found)
  rw [← same] at found
  refine ⟨id, (isSome_iff id).mp found, ?_⟩
  rw [same]
  exact ⟨k, by simp⟩

theorem exists_key {p : List Bool} {c : Bool} (present : ∃ id, 0 < amount (some e) id ∧ p ++ [c] <+: Uint.bits id) :
    ∃ k, (e.trie.get? (p ++ c :: k)).isSome := by
  obtain ⟨id, pos, k, same⟩ := present
  refine ⟨k, ?_⟩
  rw [List.append_assoc, List.singleton_append] at same
  rw [same]
  exact (isSome_iff id).mpr pos

theorem reaches_of_partTogether (part : PartTogether (some e1) (some e2)) : Trie.Reaches e1.trie e2.trie := by
  obtain ⟨p, under, sides⟩ := part
  have keys (k : List Bool) (found : (e2.trie.get? k).isSome) : p <+: k := by
    obtain ⟨id, rfl⟩ := Uint.exists_bits (e2.wf.length_of_get? found)
    exact under id ((isSome_iff id).mp found)
  obtain ⟨left, right, shape⟩ := fork_of_parting e2.wf keys fun c => exists_key (sides c).1
  rw [shape]
  exact fun c => exists_key (sides c).2

/-- A subtrahend that is reached has a single currency or parts where the minuend has currencies
on both sides. -/
theorem reaches_cases (reached : Trie.Reaches e1.trie e2.trie) :
    (∀ id, 0 < amount (some e2) id → 0 < amount (some e1) id) ∨ PartTogether (some e1) (some e2) := by
  cases shape : e2.trie with
  | leaf l v =>
    refine .inl fun id pos => ?_
    have found := get?_of_amount_pos pos
    rw [shape] at found reached
    obtain ⟨rfl, -⟩ : Uint.bits id = l ∧ _ := by simpa [get?] using found
    exact (isSome_iff id).mp reached
  | fork l left right =>
    refine .inr ⟨l, fun id pos => ?_, fun c => ⟨?_, ?_⟩⟩
    · have found := get?_of_amount_pos pos
      rw [shape] at found
      exact get?_of_isSome (Option.isSome_iff_exists.mpr ⟨_, found⟩)
    · have wf := e2.wf
      rw [shape] at wf
      obtain ⟨k, found⟩ := wf.exists_side c
      rw [← shape] at found
      exact exists_id found
    · rw [shape] at reached
      obtain ⟨k, found⟩ := reached c
      exact exists_id found

end Extra

end Dictionaries

/-- A valid collection; the invalid one is a refused outcome. -/
structure CurrencyCollection where
  grams : Int
  extra : Option Cell

namespace CurrencyCollection

/-- `operator+`. -/
def add (a b : CurrencyCollection) : Combining CurrencyCollection := do
  let extra ← addExtraCurrency a.extra b.extra
  .ok ⟨a.grams + b.grams, extra⟩

/-- `operator-`. -/
def sub (a b : CurrencyCollection) : Combining CurrencyCollection :=
  if a.grams - b.grams < 0 then .error .refused
  else do
    let extra ← subExtraCurrency a.extra b.extra
    .ok ⟨a.grams - b.grams, extra⟩

/-- `operator>=`. -/
def ge (a b : CurrencyCollection) : Outcome Bool :=
  if a.grams < b.grams then .ok false
  else
    match subExtraCurrency a.extra b.extra with
    | .ok _ => .ok true
    | .error .refused => .ok false
    | .error (.vm e) => .error e

end CurrencyCollection

end TonStaking.Source.Currency
