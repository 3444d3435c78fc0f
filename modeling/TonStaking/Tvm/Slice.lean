import Mathlib.Tactic.Ring
import TonStaking.Tvm.Outcome

/-!
# Cells, slices and integer codecs

Bit strings are lists, most significant bit first. Loads follow
`crypto/vm/cellops.cpp` and `LDGRAMS`/`STGRAMS` of `crypto/vm/tonops.cpp`: a
load takes the bits it needs from the front or raises a cell underflow, and a
`Grams` value is a four-bit byte count followed by that many bytes.
-/
namespace Tvm

variable {n : Nat} {x : Uint n} {s t : Slice}

inductive Cell where
  | mk (bits : List Bool) (refs : List Cell)

def Cell.bits : Cell → List Bool
  | .mk bits _ => bits

def Cell.refs : Cell → List Cell
  | .mk _ refs => refs

mutual
def Cell.depth : Cell → Nat
  | .mk _ refs => refsDepth refs

/-- The depth of a cell with these references. -/
def refsDepth : List Cell → Nat
  | [] => 0
  | c :: refs => max (c.depth + 1) (refsDepth refs)
end

theorem Cell.depth_eq (c : Cell) : c.depth = refsDepth c.refs := by
  cases c
  rfl

structure Slice where
  bits : List Bool
  refs : List Cell

def Slice.isEmpty (s : Slice) : Bool := s.bits.isEmpty && s.refs.isEmpty

def bitsOf : Nat → Nat → List Bool
  | 0, _ => []
  | n + 1, v => v.testBit n :: bitsOf n v

def natOf : List Bool → Nat
  | [] => 0
  | b :: rest => b.toNat * 2 ^ rest.length + natOf rest

@[simp] theorem bitsOf_length (n v : Nat) : (bitsOf n v).length = n := by
  induction n with
  | zero => rfl
  | succ n ih => simp [bitsOf, ih]

theorem natOf_bitsOf (n v : Nat) : natOf (bitsOf n v) = v % 2 ^ n := by
  induction n with
  | zero => simp [bitsOf, natOf, Nat.mod_one]
  | succ n ih =>
    have bit : (v.testBit n).toNat = v / 2 ^ n % 2 := by
      rw [Nat.testBit_eq_decide_div_mod_eq]
      rcases Nat.mod_two_eq_zero_or_one (v / 2 ^ n) with even | odd
      · simp [even]
      · simp [odd]
    rw [bitsOf, natOf, bitsOf_length, ih, bit, Nat.mod_pow_succ]
    ring

theorem natOf_lt (l : List Bool) : natOf l < 2 ^ l.length := by
  induction l with
  | nil => simp [natOf]
  | cons b rest ih =>
    simp only [natOf]
    cases b
    · simp
      omega
    · simp
      omega

theorem natOf_append (a b : List Bool) : natOf (a ++ b) = natOf a * 2 ^ b.length + natOf b := by
  induction a with
  | nil => simp [natOf]
  | cons head rest ih =>
    simp only [List.cons_append, natOf, ih, List.length_append]
    ring

theorem natOf_inj {a b : List Bool} (len : a.length = b.length) (same : natOf a = natOf b) : a = b := by
  induction a generalizing b with
  | nil => exact (List.length_eq_zero_iff.mp len.symm).symm
  | cons x a ih =>
    cases b with
    | nil => simp at len
    | cons y b =>
      have below : a.length = b.length := by simpa using len
      have boundA := natOf_lt a
      have boundB := natOf_lt b
      simp only [natOf, below] at same boundA
      cases x <;> cases y <;> simp at same
      · rw [ih below same]
      · omega
      · omega
      · rw [ih below same]

theorem bitsOf_natOf (l : List Bool) : bitsOf l.length (natOf l) = l := by
  apply natOf_inj (bitsOf_length _ _)
  rw [natOf_bitsOf, Nat.mod_eq_of_lt (natOf_lt l)]

/-- The first bits of a field are the field of the quotient. -/
theorem bitsOf_take (k m v : Nat) : (bitsOf (k + m) v).take k = bitsOf k (v / 2 ^ m) := by
  induction k with
  | zero => rfl
  | succ k ih =>
    have order : k + 1 + m = k + m + 1 := by omega
    rw [order, bitsOf, List.take_succ_cons, ih, bitsOf, Nat.testBit_div_two_pow]

def Uint.bits {n : Nat} (x : Uint n) : List Bool := bitsOf n x.val

@[simp] theorem Uint.bits_length (x : Uint n) : (Uint.bits x).length = n := bitsOf_length _ _

theorem Uint.exists_bits {l : List Bool} (len : l.length = n) : ∃ x : Uint n, Uint.bits x = l := by
  subst len
  exact ⟨⟨natOf l, natOf_lt l⟩, bitsOf_natOf l⟩

@[simp] theorem natOf_uintBits (x : Uint n) : natOf (Uint.bits x) = x.val := by
  rw [Uint.bits, natOf_bitsOf, Nat.mod_eq_of_lt x.isLt]

/-- `LDU n`. -/
def loadUint (n : Nat) (s : Slice) : Outcome (Uint n × Slice) :=
  if h : n ≤ s.bits.length then
    .ok (⟨natOf (s.bits.take n), by
      have := natOf_lt (s.bits.take n)
      rwa [List.length_take_of_le h] at this⟩, ⟨s.bits.drop n, s.refs⟩)
  else .error .cellUnd

theorem Uint.bits_inj {y : Uint n} : Uint.bits x = Uint.bits y ↔ x = y := by
  constructor
  · intro same
    apply Fin.ext
    rw [← natOf_uintBits x, same, natOf_uintBits]
  · intro equal
    rw [equal]

@[simp] theorem loadUint_bits (x : Uint n) (rest : List Bool) (refs : List Cell) :
    loadUint n ⟨Uint.bits x ++ rest, refs⟩ = .ok (x, ⟨rest, refs⟩) := by
  simp [loadUint]

@[simp] theorem loadUint_last (x : Uint n) (refs : List Cell) :
    loadUint n ⟨Uint.bits x, refs⟩ = .ok (x, ⟨[], refs⟩) := by
  simpa using loadUint_bits x [] refs

/-- What is loaded stood in front of the rest. -/
theorem loadUint_eq (h : loadUint n s = .ok (x, t)) : s = ⟨Uint.bits x ++ t.bits, t.refs⟩ := by
  unfold loadUint at h
  split at h
  · next enough =>
    cases h
    have front : Uint.bits (⟨natOf (s.bits.take n), by
        have := natOf_lt (s.bits.take n)
        rwa [List.length_take_of_le enough] at this⟩ : Uint n) = s.bits.take n := by
      have width := bitsOf_natOf (s.bits.take n)
      rwa [List.length_take_of_le enough] at width
    rw [front, List.take_append_drop]
  · cases h

theorem loadUint_length (h : loadUint n s = .ok (x, t)) : s.bits.length = n + t.bits.length := by
  simp [loadUint_eq h]

/-- `LDI n`: two's complement. -/
def loadInt (n : Nat) (s : Slice) : Outcome (Int × Slice) := do
  let (raw, rest) ← loadUint n s
  .ok (if raw.val < 2 ^ (n - 1) then (raw : Int) else (raw : Int) - 2 ^ n, rest)

/-- `SDSKIPFIRST`. -/
def skipBits (n : Nat) (s : Slice) : Outcome Slice :=
  if n ≤ s.bits.length then .ok ⟨s.bits.drop n, s.refs⟩ else .error .cellUnd

theorem skipBits_append {front : List Bool} (len : front.length = n) (rest : List Bool) (refs : List Cell) :
    skipBits n ⟨front ++ rest, refs⟩ = .ok ⟨rest, refs⟩ := by
  have enough : n ≤ (front ++ rest).length := by simp [len]
  rw [skipBits, if_pos enough, List.drop_left' len]

/-- `PLDSLICE`. -/
def preloadBits (n : Nat) (s : Slice) : Outcome (List Bool) :=
  if n ≤ s.bits.length then .ok (s.bits.take n) else .error .cellUnd

/-- `LDSLICE`. -/
def loadBits (n : Nat) (s : Slice) : Outcome (List Bool × Slice) := do
  let bits ← preloadBits n s
  let rest ← skipBits n s
  .ok (bits, rest)

/-- `LDDICT`: a bit that tells whether a reference follows. -/
def loadDict (s : Slice) : Outcome (Option Cell × Slice) :=
  match s.bits, s.refs with
  | false :: bits, refs => .ok (none, ⟨bits, refs⟩)
  | true :: bits, c :: refs => .ok (some c, ⟨bits, refs⟩)
  | _, _ => .error .cellUnd

/-- `LDREF`. -/
def loadRef (s : Slice) : Outcome (Cell × Slice) :=
  match s.refs with
  | [] => .error .cellUnd
  | c :: refs => .ok (c, ⟨s.bits, refs⟩)

/-- `ENDS`. -/
def endParse (s : Slice) : Outcome Unit := if s.isEmpty then .ok () else .error .cellUnd

/-- `CTOS`. -/
def Cell.beginParse (c : Cell) : Slice := ⟨c.bits, c.refs⟩

def bitLen (v : Nat) : Nat := if v = 0 then 0 else v.log2 + 1

theorem lt_two_pow_bitLen (v : Nat) : v < 2 ^ bitLen v := by
  unfold bitLen
  split
  · next zero => simp [zero]
  · exact Nat.lt_log2_self

theorem bitLen_le {v : Nat} (h : v < 2 ^ n) : bitLen v ≤ n := by
  unfold bitLen
  split
  · omega
  · next nonzero => exact (Nat.log2_lt nonzero).mpr h

/-- Bytes of the shortest encoding of an amount. -/
def byteLen (v : Nat) : Nat := (bitLen v + 7) / 8

theorem byteLen_le (g : Grams) : byteLen g.val ≤ 15 := by
  have := bitLen_le g.isLt
  unfold byteLen
  omega

theorem lt_two_pow_byteLen (v : Nat) : v < 2 ^ (8 * byteLen v) :=
  lt_of_lt_of_le (lt_two_pow_bitLen v) (Nat.pow_le_pow_right (by decide) (by unfold byteLen; omega))

/-- `STGRAMS`. -/
def gramsBits (g : Grams) : List Bool := bitsOf 4 (byteLen g.val) ++ bitsOf (8 * byteLen g.val) g.val

/-- `LDGRAMS`. -/
def loadGrams (s : Slice) : Outcome (Grams × Slice) :=
  if 4 ≤ s.bits.length then
    let len := natOf (s.bits.take 4)
    let rest := s.bits.drop 4
    if h : 8 * len ≤ rest.length ∧ len ≤ 15 then
      .ok (⟨natOf (rest.take (8 * len)), by
        have bound := natOf_lt (rest.take (8 * len))
        rw [List.length_take_of_le h.1] at bound
        exact lt_of_lt_of_le bound (Nat.pow_le_pow_right (by decide) (by omega))⟩,
        ⟨rest.drop (8 * len), s.refs⟩)
    else .error .cellUnd
  else .error .cellUnd

@[simp] theorem loadGrams_bits (g : Grams) (rest : List Bool) (refs : List Cell) :
    loadGrams ⟨gramsBits g ++ rest, refs⟩ = .ok (g, ⟨rest, refs⟩) := by
  have count := byteLen_le g
  have enough : 4 ≤ (gramsBits g ++ rest).length := by simp [gramsBits]
  have header : natOf ((gramsBits g ++ rest).take 4) = byteLen g.val := by
    rw [gramsBits, List.append_assoc, List.take_left' (bitsOf_length 4 _), natOf_bitsOf]
    omega
  have body : (gramsBits g ++ rest).drop 4 = bitsOf (8 * byteLen g.val) g.val ++ rest := by
    rw [gramsBits, List.append_assoc, List.drop_left' (bitsOf_length 4 _)]
  have room : 8 * byteLen g.val ≤ (bitsOf (8 * byteLen g.val) g.val ++ rest).length ∧
      byteLen g.val ≤ 15 := ⟨by simp, count⟩
  have front : (bitsOf (8 * byteLen g.val) g.val ++ rest).take (8 * byteLen g.val) =
      bitsOf (8 * byteLen g.val) g.val := List.take_left' (bitsOf_length _ _)
  have back : (bitsOf (8 * byteLen g.val) g.val ++ rest).drop (8 * byteLen g.val) = rest :=
    List.drop_left' (bitsOf_length _ _)
  have value : natOf (bitsOf (8 * byteLen g.val) g.val) = g.val := by
    rw [natOf_bitsOf, Nat.mod_eq_of_lt (lt_two_pow_byteLen g.val)]
  simp only [loadGrams, if_pos enough, header, body, dif_pos room, front, back, value]

@[simp] theorem loadGrams_last (g : Grams) (refs : List Cell) :
    loadGrams ⟨gramsBits g, refs⟩ = .ok (g, ⟨[], refs⟩) := by
  simpa using loadGrams_bits g [] refs

/-- Hashing and signatures. -/
structure Crypto where
  sliceHash : Slice → Uint 256
  checkSignature : Uint 256 → List Bool → Uint 256 → Bool

/-- `HASHCU`: the hash of a cell is the hash of all it holds. -/
def Crypto.cellHash (crypto : Crypto) (c : Cell) : Uint 256 := crypto.sliceHash ⟨c.bits, c.refs⟩

/-- A toy signature: the sum of hash and key. -/
def sampleCrypto : Crypto where
  sliceHash cs := ⟨natOf cs.bits % 2 ^ 256, Nat.mod_lt _ (by decide)⟩
  checkSignature hash signature key := natOf signature = hash.val + key.val

def sampleSign (key : Uint 256) (cs : Slice) : List Bool := bitsOf 512 ((sampleCrypto.sliceHash cs).val + key.val)

end Tvm
