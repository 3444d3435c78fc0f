import TonStaking.Word.IntBitwise
import TonStaking.Source.BigInt.Instructions

/-!
# Bitwise operations on digit arrays (bigint.hpp:83-112, 808-912, 2375-2382; arithops.cpp:645-678)

`log_op_any` turns both operands into two's complement digit by digit, carrying a borrow
for each, and balances the digits of the result with a third carry. A number that has run
out of digits goes on with its borrow. When the second operand is the longer one, a carry
out of the last digit makes the result a NaN instead of a new digit.
-/
namespace TonStaking.Source.BigInt

/-- The three `LogOp` structures. -/
inductive LogOp where
  | and
  | or
  | xor
  deriving DecidableEq, Repr

namespace LogOp

/-- `LogOp::op`, on words and on integers in two's complement. -/
def op : LogOp → Int → Int → Int
  | .and => Int.land
  | .or => Int.lor
  | .xor => Int.xor

def neutral : LogOp → Int
  | .and => -1
  | .or => 0
  | .xor => 0

def zero : LogOp → Int
  | .and => 0
  | .or => -1
  | .xor => -1

def hasZero : LogOp → Bool
  | .and => true
  | .or => true
  | .xor => false

def bit : LogOp → Bool → Bool → Bool
  | .and => Bool.and
  | .or => Bool.or
  | .xor => Bool.xor

section

variable (l : LogOp)
include l

theorem op_eq_bitwise : l.op = Int.bitwise l.bit := by
  cases l
  · exact Int.bitwise_and.symm
  · exact Int.bitwise_or.symm
  · exact Int.bitwise_xor.symm

theorem testBit_op (x y : Int) (k : Nat) : (l.op x y).testBit k = l.bit (x.testBit k) (y.testBit k) := by
  rw [op_eq_bitwise, Int.testBit_bitwise]

theorem op_split (a b p q : Int) :
    l.op (a + Base * p) (b + Base * q) = l.op a b % Base + Base * l.op (a / Base + p) (b / Base + q) := by
  rw [op_eq_bitwise]
  exact Word.bitwise_split l.bit 52 a b p q

theorem op_comm (x y : Int) : l.op x y = l.op y x := by
  cases l <;> cases x <;> cases y <;> simp [op, Int.land, Int.lor, Int.xor, Nat.land_comm, Nat.lor_comm, Nat.xor_comm]

theorem op_neutral (y : Int) : l.op l.neutral y = y := by
  have keeps : ∀ n : Nat, n.ldiff 0 = n := fun n => by simp [Nat.ldiff]
  cases l with
  | and => cases y with
    | ofNat n => exact congrArg Int.ofNat (keeps n)
    | negSucc n => exact congrArg Int.negSucc (Nat.zero_or n)
  | or => cases y with
    | ofNat n => exact congrArg Int.ofNat (Nat.zero_or n)
    | negSucc n => exact congrArg Int.negSucc (keeps n)
  | xor => cases y with
    | ofNat n => exact congrArg Int.ofNat (Nat.zero_xor n)
    | negSucc n => exact congrArg Int.negSucc (Nat.zero_xor n)

theorem op_zero (has : l.hasZero = true) (y : Int) : l.op l.zero y = l.zero := by
  have nothing : ∀ n : Nat, Nat.ldiff 0 n = 0 := fun n => by simp [Nat.ldiff]
  cases l with
  | and => cases y with
    | ofNat n => exact congrArg Int.ofNat (Nat.zero_and n)
    | negSucc n => exact congrArg Int.ofNat (nothing n)
  | or => cases y with
    | ofNat n => exact congrArg Int.negSucc (nothing n)
    | negSucc n => exact congrArg Int.negSucc (Nat.zero_and n)
  | xor => cases has

theorem op_signs {x y : Int} (first : x = 0 ∨ x = -1) (second : y = 0 ∨ y = -1) : l.op x y = 0 ∨ l.op x y = -1 := by
  have neutral := l.op_neutral y
  have absorbed := fun has => l.op_zero has y
  cases l with
  | and => rcases first with rfl | rfl
           · exact .inl (absorbed rfl)
           · exact neutral.symm ▸ second
  | or => rcases first with rfl | rfl
          · exact neutral.symm ▸ second
          · exact .inr (absorbed rfl)
  | xor => rcases first with rfl | rfl
           · exact neutral.symm ▸ second
           · rcases second with rfl | rfl <;> decide

theorem fits_op {x y : Int} (first : Fits x) (second : Fits y) : Fits (l.op x y) := by
  have signs : ∀ {z : Int}, Fits z ↔ z / 2 ^ 256 = 0 ∨ z / 2 ^ 256 = -1 := by
    unfold Fits
    omega
  rw [signs] at first second ⊢
  have above := Word.bitwise_div l.bit 256 x y
  rw [← op_eq_bitwise] at above
  rw [above]
  exact l.op_signs first second

end

/-- The digit loops; a number out of digits adds nothing to its borrow. The borrows and
the carry that are left come last. -/
def digits (l : LogOp) (cx cy cz : Int) : List (Int × Int) → List Int × Int × Int × Int
  | [] => ([], cx, cy, cz)
  | (x, y) :: rest =>
    let cx := word (cx + x)
    let cy := word (cy + y)
    let cz := word (cz + word (l.op cx cy % Base + Half))
    let later := digits l (cx / Base) (cy / Base) (cz / Base) rest
    ((cz % Base - Half) :: later.1, later.2)

/-- The loop over digits of the second operand there is no room for: they must vanish. -/
def excess (l : LogOp) (cx cy cz : Int) : List Int → Option (Int × Int × Int)
  | [] => some (cx, cy, cz)
  | y :: rest =>
    let cy := word (cy + y)
    let cz := word (cz + l.op cx cy % Base)
    if cz % Base ≠ 0 then none else excess l (cx / Base) (cy / Base) (cz / Base) rest

/-- The digits of two numbers side by side, zero where one has run out. -/
def pairs : List Int → List Int → List (Int × Int)
  | x :: xs, y :: ys => (x, y) :: pairs xs ys
  | xs, [] => xs.map (fun x => (x, 0))
  | [], ys => ys.map (fun y => (0, y))

/-- The loops for a second operand that is not longer. -/
def overLonger (l : LogOp) (m : Nat) (x y : List Int) : List Int :=
  let r := l.digits 0 0 0 (pairs x y)
  let cz := word (r.2.2.2 + l.op r.2.1 r.2.2.1)
  if cz ≠ 0 then if x.length ≥ m then [] else r.1 ++ [cz]
  else trim r.1

/-- The loops for a second operand that is longer. -/
def overShorter (l : LogOp) (m : Nat) (x y : List Int) : List Int :=
  let r := l.digits 0 0 0 (pairs x (y.take m))
  match l.excess r.2.1 r.2.2.1 r.2.2.2 (y.drop m) with
  | none => []
  | some (cx, cy, cz) => if word (cz + l.op cx cy) ≠ 0 then [] else trim r.1

def logOpAny (l : LogOp) (m : Nat) (x y : List Int) : List Int :=
  if l.hasZero ∧ x = [l.zero] then x
  else if x = [l.neutral] then if y.length ≤ m then y else []
  else if l.hasZero ∧ y = [l.zero] then [l.zero]
  else if y = [l.neutral] then x
  else if y.length ≤ x.length then if y = [] then [] else l.overLonger m x y
  else if x = [] then []
  else l.overShorter m x y

end LogOp

def logicalNot : List Int → List Int
  | [] => []
  | d :: ds => word (-d - 1) :: ds.map (fun d => word (-d))

/-- `exec_and`, `exec_or` and `exec_xor`: the result is pushed as it is. -/
def LogOp.exec (l : LogOp) (quiet : Bool) : List (List Int) → Except Excno (List (List Int))
  | y :: x :: stack => pushIntQuiet quiet stack (l.logOpAny 5 x y)
  | _ => throw .stkUnd

def execNot (quiet : Bool) : List (List Int) → Except Excno (List (List Int))
  | x :: stack => pushIntQuiet quiet stack (normalizeAny 5 (logicalNot x))
  | _ => throw .stkUnd

section Loops

variable (l : LogOp)
variable {x y : List Int} {m : Nat}

/-- What the digit loops leave: balanced digits, signs for borrows, and a carry. -/
structure LogOp.Done (r : List Int × Int × Int × Int) (n : Nat) (total : Int) : Prop where
  balanced : Balanced r.1
  size : r.1.length = n
  first : r.2.1 = 0 ∨ r.2.1 = -1
  second : r.2.2.1 = 0 ∨ r.2.2.1 = -1
  carry : r.2.2.2 = 0 ∨ r.2.2.2 = 1
  exact_ : value r.1 + Base ^ n * (r.2.2.2 + l.op r.2.1 r.2.2.1) = total

theorem LogOp.digits_done (ps : List (Int × Int)) (cx cy cz : Int) (first : cx = 0 ∨ cx = -1)
    (second : cy = 0 ∨ cy = -1) (third : cz = 0 ∨ cz = 1) (xs : Balanced (ps.map Prod.fst))
    (ys : Balanced (ps.map Prod.snd)) :
    l.Done (l.digits cx cy cz ps) ps.length
      (cz + l.op (cx + value (ps.map Prod.fst)) (cy + value (ps.map Prod.snd))) := by
  induction ps generalizing cx cy cz with
  | nil =>
    exact ⟨by simp [LogOp.digits, Balanced], rfl, first, second, third, by simp [LogOp.digits]⟩
  | cons p rest ih =>
    obtain ⟨x, y⟩ := p
    have left := xs.head
    have right := ys.head
    simp only [Half] at left right
    have wordX : word (cx + x) = cx + x := word_eq (by omega) (by omega)
    have wordY : word (cy + y) = cy + y := word_eq (by omega) (by omega)
    have split := l.op_split (cx + x) (cy + y) (value (rest.map Prod.fst)) (value (rest.map Prod.snd))
    obtain ⟨low, isLow, nonneg, less⟩ : ∃ low, l.op (cx + x) (cy + y) % Base = low ∧ 0 ≤ low ∧ low < Base :=
      ⟨_, rfl, Int.emod_nonneg _ (by norm_num), Int.emod_lt_of_pos _ (by norm_num)⟩
    have wordZ : word (cz + word (low + Half)) = cz + low + Half := by
      simp only [Base, Half] at less ⊢
      rw [word_eq (x := low + 2251799813685248) (by omega) (by omega), word_eq (by omega) (by omega)]
      ring
    have later := ih ((cx + x) / Base) ((cy + y) / Base) ((cz + low + Half) / Base)
      (by simp only [Base]; omega) (by simp only [Base]; omega)
      (by simp only [Base, Half] at less ⊢; omega) xs.tail ys.tail
    have parts := Int.emod_add_mul_ediv (cz + low + Half) Base
    have digit := Int.emod_nonneg (cz + low + Half) (show Base ≠ 0 by norm_num)
    have digit' := Int.emod_lt_of_pos (cz + low + Half) (show 0 < Base by norm_num)
    simp only [LogOp.digits, wordX, wordY, isLow, wordZ]
    refine ⟨later.balanced.cons (by linarith) (by linarith), by simp [later.size], later.first, later.second,
      later.carry, ?_⟩
    rw [value_cons, List.length_cons, pow_succ, List.map_cons, List.map_cons, value_cons, value_cons, ← add_assoc,
      ← add_assoc, split, isLow]
    linear_combination Base * later.exact_ + parts

theorem LogOp.pairs_spec (x y : List Int) (first : Balanced x) (second : Balanced y) :
    (LogOp.pairs x y).length = max x.length y.length ∧
      Balanced ((LogOp.pairs x y).map Prod.fst) ∧ value ((LogOp.pairs x y).map Prod.fst) = value x ∧
      Balanced ((LogOp.pairs x y).map Prod.snd) ∧ value ((LogOp.pairs x y).map Prod.snd) = value y := by
  fun_induction LogOp.pairs x y with
  | case1 x xs y ys ih =>
    have rest := ih first.tail second.tail
    simp only [List.map_cons, List.length_cons, value_cons, rest]
    exact ⟨by omega, rest.2.1.cons first.head.1 first.head.2, trivial,
      rest.2.2.2.1.cons second.head.1 second.head.2, trivial⟩
  | case2 xs =>
    have zeros := zeros_spec xs.length
    simpa [Function.comp_def, List.map_const'] using ⟨first, zeros⟩
  | case3 ys =>
    have zeros := zeros_spec ys.length
    simpa [Function.comp_def, List.map_const'] using ⟨zeros.1, zeros.2, second⟩

theorem LogOp.loop (first : Balanced x) (second : Balanced y) :
    l.Done (l.digits 0 0 0 (LogOp.pairs x y)) (max x.length y.length) (l.op (value x) (value y)) := by
  have spec := LogOp.pairs_spec x y first second
  have done := l.digits_done (LogOp.pairs x y) 0 0 0 (.inl rfl) (.inl rfl) (.inl rfl) spec.2.1 spec.2.2.2.1
  rwa [spec.1, spec.2.2.1, spec.2.2.2.2, zero_add, zero_add, zero_add] at done

/-- The carry out of the last digit is a short word, and zero just when the result needs
no further digit. -/
theorem LogOp.Done.top {r : List Int × Int × Int × Int} {n : Nat} {total : Int} (done : l.Done r n total) :
    ∃ top, word (r.2.2.2 + l.op r.2.1 r.2.2.1) = top ∧ -1 ≤ top ∧ top ≤ 1 ∧
      value r.1 + Base ^ n * top = total ∧ (top = 0 ↔ Within n total) := by
  have sign := l.op_signs done.first done.second
  have carry := done.carry
  have short : word (r.2.2.2 + l.op r.2.1 r.2.2.1) = r.2.2.2 + l.op r.2.1 r.2.2.1 := word_eq (by omega) (by omega)
  refine ⟨_, short, by omega, by omega, done.exact_, ?_⟩
  rw [← done.exact_, ← done.size]
  constructor
  · intro zero
    rw [zero, mul_zero, add_zero]
    exact done.balanced.within
  · intro within
    by_contra nonzero
    exact done.balanced.not_within nonzero within

theorem LogOp.overLonger_spec (first : Balanced x) (second : Balanced y) (nonempty : x ≠ [])
    (longer : y.length ≤ x.length) (room : Within m (l.op (value x) (value y))) (short : x.length ≤ m) :
    Canonical (l.overLonger m x y) ∧ value (l.overLonger m x y) = l.op (value x) (value y) := by
  have done := l.loop first second
  rw [max_eq_left longer] at done
  obtain ⟨top, isTop, low, high, total, fits⟩ := done.top
  have some_digits : (l.digits 0 0 0 (LogOp.pairs x y)).1 ≠ [] := by
    apply List.length_pos_iff.mp
    rw [done.size]
    exact List.length_pos_iff.mpr nonempty
  unfold LogOp.overLonger
  simp only [isTop]
  by_cases zero : top = 0
  · rw [if_neg (not_not.mpr zero)]
    rw [zero, mul_zero, add_zero] at total
    rw [← total]
    exact trim_spec _ some_digits done.balanced
  rw [if_pos zero]
  have less : x.length < m := by
    refine lt_of_le_of_ne short ?_
    rintro rfl
    exact zero (fits.mpr room)
  rw [if_neg (by omega)]
  refine ⟨⟨by simp, ?_, ?_⟩, by rw [value_snoc, done.size, total]⟩
  · intro d member
    rcases List.mem_append.mp member with lower | last
    · exact done.balanced d lower
    · rw [List.mem_singleton.mp last]
      constructor <;> linarith
  · intro last
    rw [List.getLast?_concat, Option.some.injEq] at last
    exact absurd last zero

theorem LogOp.overShorter_spec (first : Balanced x) (second : Balanced y) (shorter : x.length < y.length)
    (short : y.length ≤ m) :
    if Within y.length (l.op (value x) (value y)) then
      Canonical (l.overShorter m x y) ∧ value (l.overShorter m x y) = l.op (value x) (value y)
    else l.overShorter m x y = [] := by
  have done := l.loop first second
  rw [max_eq_right (le_of_lt shorter)] at done
  obtain ⟨top, isTop, low, high, total, fits⟩ := done.top
  have some_digits : (l.digits 0 0 0 (LogOp.pairs x y)).1 ≠ [] := by
    apply List.length_pos_iff.mp
    rw [done.size]
    omega
  unfold LogOp.overShorter
  simp only [List.take_of_length_le short, List.drop_of_length_le short, LogOp.excess, isTop]
  by_cases zero : top = 0
  · rw [if_pos (fits.mp zero), if_neg (not_not.mpr zero)]
    rw [zero, mul_zero, add_zero] at total
    rw [← total]
    exact trim_spec _ some_digits done.balanced
  · rw [if_neg (fun within => zero (fits.mpr within)), if_pos zero]

/-- The operation on canonical numbers: exact, but for a longer second operand whose size
the result does not fit into. -/
theorem LogOp.logOpAny_spec (first : Canonical x) (second : Canonical y) (short : x.length ≤ m) (short' : y.length ≤ m)
    (room : Within m (l.op (value x) (value y))) :
    if x.length < y.length ∧ ¬ Within y.length (l.op (value x) (value y)) then l.logOpAny m x y = []
    else Canonical (l.logOpAny m x y) ∧ value (l.logOpAny m x y) = l.op (value x) (value y) := by
  have single : ∀ d : Int, value [d] = d := by simp
  have some_x := first.length_pos
  unfold LogOp.logOpAny
  -- the operands the loops are not entered for
  by_cases absorbed : l.hasZero = true ∧ x = [l.zero]
  · have same : l.op (value x) (value y) = value x := by
      rw [absorbed.2, single]
      exact l.op_zero absorbed.1 (value y)
    rw [same, if_pos absorbed, if_neg (fun bad => bad.2 (first.balanced.within.mono (le_of_lt bad.1)))]
    exact ⟨first, rfl⟩
  rw [if_neg absorbed]
  by_cases neutral : x = [l.neutral]
  · have same : l.op (value x) (value y) = value y := by
      rw [neutral, single]
      exact l.op_neutral (value y)
    rw [same, if_pos neutral, if_neg (fun bad => bad.2 second.balanced.within), if_pos short']
    exact ⟨second, rfl⟩
  rw [if_neg neutral]
  by_cases absorbed' : l.hasZero = true ∧ y = [l.zero]
  · have same : l.op (value x) (value y) = value y := by
      rw [l.op_comm, absorbed'.2, single]
      exact l.op_zero absorbed'.1 (value x)
    rw [same, if_pos absorbed', if_neg (fun bad => bad.2 second.balanced.within), ← absorbed'.2]
    exact ⟨second, rfl⟩
  rw [if_neg absorbed']
  by_cases neutral' : y = [l.neutral]
  · have same : l.op (value x) (value y) = value x := by
      rw [l.op_comm, neutral', single]
      exact l.op_neutral (value x)
    have lone : y.length = 1 := by rw [neutral']; rfl
    rw [same, if_pos neutral', if_neg (fun bad => by omega)]
    exact ⟨first, rfl⟩
  rw [if_neg neutral']
  by_cases longer : y.length ≤ x.length
  · rw [if_neg (fun bad => by omega), if_pos longer, if_neg second.nonempty]
    exact l.overLonger_spec first.balanced second.balanced first.nonempty longer room short
  rw [if_neg longer, if_neg first.nonempty]
  have spec := l.overShorter_spec first.balanced second.balanced (by omega) short'
  by_cases within : Within y.length (l.op (value x) (value y))
  · rw [if_pos within] at spec
    rw [if_neg (fun bad => bad.2 within)]
    exact spec
  · rw [if_neg within] at spec
    rw [if_pos ⟨by omega, within⟩]
    exact spec

theorem logicalNot_spec (balanced : Balanced x) (nonempty : x ≠ []) :
    value (logicalNot x) = -value x - 1 ∧ Small (logicalNot x) ∧ logicalNot x ≠ [] ∧
      (logicalNot x).length = x.length := by
  cases x with
  | nil => exact absurd rfl nonempty
  | cons d ds =>
    have range := balanced.head
    have linear : ∀ d, word (-d) = word (d * -1) := fun d => by rw [mul_neg_one]
    have rest := scale_spec balanced.tail linear (by norm_num) (by norm_num)
    have first : word (-d - 1) = -d - 1 := word_eq (by linarith) (by linarith)
    rw [logicalNot, first]
    refine ⟨?_, ?_, by simp, by simp⟩
    · rw [value_cons, value_cons, rest.1]
      ring
    · intro e member
      rcases List.mem_cons.mp member with rfl | later
      · constructor <;> linarith
      · exact rest.2 e later

end Loops

end TonStaking.Source.BigInt
