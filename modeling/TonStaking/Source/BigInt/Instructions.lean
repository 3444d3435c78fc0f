import TonStaking.Source.BigInt.Arithmetic

/-!
# Integer instructions of the virtual machine (arithops.cpp:161-246, stack.cpp:547-564, refint.cpp:31-86)

The stack holds `RefInt256` values, five words each. An instruction pops its operands,
forms the result in place, normalizes it and pushes it through `push_int_quiet`, which
asks for 257 signed bits. Stack entries of other types are not modelled.
-/
namespace TonStaking.Source.BigInt

/-- The exceptions of the virtual machine met here. -/
inductive Excno where
  | stkUnd
  | intOv
  deriving DecidableEq, Repr

def sgn (x : List Int) : Int := match x.getLast? with
  | none => -2147483648
  | some top => if top > 0 then 1 else if top < 0 then -1 else 0

/-- The last loop of `signed_fits_bits_any`, over the digits below the one compared. -/
def fitsBelow (s : Int) : List Int → Bool
  | [] => decide (s < 0)
  | d :: ds => if d < 0 then decide (s > 0) else if d > 0 then decide (s < 0) else fitsBelow s ds

/-- `AnyIntView::signed_fits_bits_any`. -/
def signedFitsBits (nbits : Nat) (x : List Int) : Bool :=
  let s := sgn x
  let k := (nbits - 1) / 52
  let rem := (nbits - 1) % 52
  let val := if s > 0 then x.getD k 0 else word (-(x.getD k 0))
  if x = [] then false
  else if nbits > x.length * 52 then true
  else if s = 0 then true
  else if nbits = 0 then false
  else if x.length ≤ k then true
  else if x.length ≥ k + 2 then
    if ¬ (x.length = k + 2 ∧ rem = 51) then false
    else if x.getD (k + 1) 0 ≠ s then false
    else if val > -Half then false
    else if val < -Half then true
    else fitsBelow s (x.take k).reverse
  else if val > 2 ^ rem then false
  else if val < 2 ^ rem then true
  else fitsBelow s (x.take k).reverse

variable (quiet : Bool) (stack : List (List Int))

def pushIntQuiet (val : List Int) : Except Excno (List (List Int)) :=
  if !signedFitsBits 257 val then
    if !quiet then throw .intOv
    else if val ≠ [] then pure ([] :: stack)
    else pure (val :: stack)
  else pure (val :: stack)

/-- The numbers of the virtual machine. -/
def Fits (z : Int) : Prop := -(2 ^ 256) ≤ z ∧ z < 2 ^ 256

instance (z : Int) : Decidable (Fits z) := by
  unfold Fits
  infer_instance

theorem Fits.within {z : Int} (fits : Fits z) : Within 5 z := by
  unfold Fits at fits
  unfold Within
  simp only [ones, Base, Half]
  omega

theorem fitsBelow_eq (s : Int) (low : List Int) (balanced : Balanced low) :
    fitsBelow s low.reverse = if value low < 0 then decide (s > 0) else if value low > 0 then decide (s < 0)
      else decide (s < 0) := by
  induction low using List.reverseRecOn with
  | nil => rfl
  | append_singleton low top ih =>
    rw [List.reverse_concat, fitsBelow, value_snoc]
    have bound := balanced.left.over top
    have within := balanced.left.within
    have width := ones_width low.length
    unfold Within at within
    rcases lt_trichotomy top 0 with below | rfl | above
    · have less := bound.2 below
      rw [if_pos below, if_pos (by linarith)]
    · rw [if_neg (lt_irrefl 0), if_neg (lt_irrefl 0), ih balanced.left, mul_zero, add_zero]
    · have more := bound.1 above
      have positive : value low + Base ^ low.length * top > 0 := by linarith
      rw [if_neg (not_lt.mpr (le_of_lt above)), if_pos above, if_neg (by linarith), if_pos positive]

theorem signedFitsBits_iff {x : List Int} (canonical : Canonical x) (short : x.length ≤ 5) :
    signedFitsBits 257 x = true ↔ Fits (value x) := by
  unfold signedFitsBits
  rw [if_neg canonical.nonempty]
  by_cases few : x.length ≤ 4
  · have within := canonical.balanced.within.mono few
    rw [if_pos (by omega)]
    unfold Within at within
    simp only [ones, Base, Half] at within
    unfold Fits
    constructor
    · intro _
      omega
    · exact fun _ => rfl
  · obtain ⟨low, top, rfl, balanced, topLow, topHigh, lone⟩ := canonical.split
    have size : low.length = 4 := by
      simp at short few
      omega
    have nonzero : top ≠ 0 := by
      intro zero
      rw [lone zero] at size
      cases size
    have within := balanced.within
    rw [size] at within
    unfold Within at within
    have place : (low ++ [top]).getD 4 0 = top := by simp [List.getD_eq_getElem?_getD, size]
    have under : (low ++ [top]).take 4 = low := by rw [← size, List.take_left]
    have opposite : word (-top) = -top := word_eq (by linarith) (by linarith)
    have total : value (low ++ [top]) = value low + Base ^ 4 * top := by rw [value_snoc, size]
    simp only [sgn, List.getLast?_concat, gt_iff_lt, Nat.reduceSub, Nat.reduceDiv, Nat.reduceMod, Nat.reduceAdd,
      place, under, opposite]
    rw [fitsBelow_eq _ _ balanced]
    unfold Fits
    simp only [ones, Base, Half] at within ⊢
    rcases lt_or_gt_of_ne nonzero with below | above
    · simp only [not_lt.mpr (le_of_lt below), below, ↓reduceIte]
      grind
    · simp only [above, ↓reduceIte]
      grind

/-- What an instruction must leave for the number `z`, or for no number at all. -/
def Leaves (z : Option Int) (r : Except Excno (List (List Int))) : Prop :=
  match z with
  | some z =>
    if Fits z then ∃ x, Canonical x ∧ value x = z ∧ r = .ok (x :: stack)
    else r = if quiet then .ok ([] :: stack) else .error .intOv
  | none => r = if quiet then .ok ([] :: stack) else .error .intOv

theorem push_nan : Leaves quiet stack none (pushIntQuiet quiet stack []) := by
  cases quiet <;> rfl

/-- A canonical number is pushed if it has 257 bits, and refused otherwise. -/
theorem push_canonical {x : List Int} (canonical : Canonical x)
    (short : x.length ≤ 5) : Leaves quiet stack (some (value x)) (pushIntQuiet quiet stack x) := by
  have test := signedFitsBits_iff canonical short
  unfold Leaves pushIntQuiet
  by_cases fits : Fits (value x)
  · simp only [if_pos fits, test.mpr fits]
    exact ⟨x, canonical, rfl, rfl⟩
  have refused : signedFitsBits 257 x = false := by
    rw [← Bool.not_eq_true, test]
    exact fits
  simp only [if_neg fits, refused]
  cases quiet
  · rfl
  · simp [canonical.nonempty]
    rfl

/-- What is normalized and pushed is the number of the digits, or an overflow. -/
theorem push_normalized {ds : List Int} (nonempty : ds ≠ [])
    (room : ds.length ≤ 5) (small : Small ds) :
    Leaves quiet stack (some (value ds)) (pushIntQuiet quiet stack (normalizeAny 5 ds)) := by
  have spec := normalizeAny_spec nonempty room small
  by_cases within : Within 5 (value ds)
  · obtain ⟨canonical, same⟩ := spec.1 within
    rw [← same]
    refine push_canonical quiet stack canonical (canonical.length_le (by norm_num) ?_)
    rw [same]
    exact within
  · have outside : ¬ Fits (value ds) := fun fits => within fits.within
    rw [spec.2 within]
    unfold Leaves
    simp only [if_neg outside]
    exact push_nan quiet stack

/-- `operator+(RefInt256, RefInt256)`. -/
def add (x y : List Int) : List Int := normalizeAny 5 (addAny 5 x y)

/-- `operator-(RefInt256, RefInt256)`. -/
def sub (x y : List Int) : List Int := normalizeAny 5 (subAny 5 x y)

/-- `operator+(RefInt256, long long)`; `operator-(RefInt256, long long)` adds `-y`. -/
def addShort (x : List Int) (y : Int) : List Int := normalizeAny 5 (addTiny y x)

/-- `operator-(RefInt256)`. -/
def neg (x : List Int) : List Int := normalizeAny 5 (negateAny x)

/-- `operator*(RefInt256, RefInt256)`. -/
def mul (x y : List Int) : List Int := normalizeAny 5 (addMulAny 5 [0] x y)

/-- `operator*(RefInt256, long long)` for a factor of at most `MaxDenorm`, where
`mul_short_opt` is `mul_tiny`. -/
def mulShort (x : List Int) (y : Int) : List Int := normalizeAny 5 (mulTinyAny y x)

/-- The instructions of `register_add_mul_ops` with two operands. -/
inductive Binary where
  | add
  | sub
  | subr
  | mul
  deriving DecidableEq, Repr

/-- The instructions of `register_add_mul_ops` with one operand. -/
inductive Unary where
  | negate
  | inc
  | dec
  | addInt (args : BitVec 8)
  | mulInt (args : BitVec 8)
  deriving DecidableEq, Repr

/-- `exec_add`, `exec_sub`, `exec_subr` and `exec_mul`. -/
def Binary.exec (instr : Binary) (quiet : Bool) : List (List Int) → Except Excno (List (List Int))
  | y :: x :: stack => pushIntQuiet quiet stack <| match instr with
    | .add => BigInt.add x y
    | .sub => BigInt.sub x y
    | .subr => BigInt.sub y x
    | .mul => BigInt.mul x y
  | _ => throw .stkUnd

/-- `exec_negate`, `exec_inc`, `exec_dec`, `exec_add_tinyint8` and `exec_mul_tinyint8`. -/
def Unary.exec (instr : Unary) (quiet : Bool) : List (List Int) → Except Excno (List (List Int))
  | x :: stack => pushIntQuiet quiet stack <| match instr with
    | .negate => neg x
    | .inc => addShort x 1
    | .dec => addShort x (-1)
    | .addInt args => addShort x args.toInt
    | .mulInt args => mulShort x args.toInt
  | _ => throw .stkUnd

/-- The number the documentation gives for each instruction. -/
def Binary.result : Binary → Int → Int → Int
  | .add, x, y => x + y
  | .sub, x, y => x - y
  | .subr, x, y => y - x
  | .mul, x, y => x * y

def Unary.result : Unary → Int → Int
  | .negate, x => -x
  | .inc, x => x + 1
  | .dec, x => x - 1
  | .addInt args, x => x + args.toInt
  | .mulInt args, x => x * args.toInt

/-- An integer of the virtual machine: the NaN, or a number of 257 bits in canonical form. -/
structure TvmInt where
  digits : List Int
  number : digits ≠ [] → Canonical digits ∧ Fits (value digits)

/-- The number of an integer; none for the NaN. -/
def TvmInt.value? (x : TvmInt) : Option Int := if x.digits = [] then none else some (value x.digits)

theorem TvmInt.length_le (x : TvmInt) (finite : x.digits ≠ []) : x.digits.length ≤ 5 :=
  (x.number finite).1.length_le (by norm_num) (x.number finite).2.within

theorem combineAny_nan (sign : Int) (x : List Int) : combineAny sign 5 x [] = [] ∧ combineAny sign 5 [] x = [] := by
  unfold combineAny
  constructor
  · simp
  · split
    · next short => simp_all
    · rfl

theorem combineAny_finite (sign : Int) {x y : List Int} (first : x ≠ []) (second : y ≠ []) (short : y.length ≤ 5) :
    combineAny sign 5 x y = combine sign x y := by
  unfold combineAny
  split
  · rfl
  · rw [if_neg (by omega)]

theorem push_combined {sign : Int} (unit : sign = 1 ∨ sign = -1) (x y : TvmInt) (first : x.digits ≠ []) (second : y.digits ≠ []) :
    Leaves quiet stack (some (value x.digits + sign * value y.digits))
      (pushIntQuiet quiet stack (normalizeAny 5 (combineAny sign 5 x.digits y.digits))) := by
  have spec := combine_spec unit x.digits y.digits (x.number first).1.balanced (y.number second).1.balanced
  have short := x.length_le first
  have short' := y.length_le second
  have positive := List.length_pos_iff.mpr first
  rw [combineAny_finite sign first second short', ← spec.1]
  exact push_normalized quiet stack (List.length_pos_iff.mp (by omega)) (by omega) spec.2.1

theorem addTiny_spec {x : List Int} {y : Int} (balanced : Balanced x) (nonempty : x ≠ []) (low : -1024 ≤ y)
    (high : y ≤ 1024) :
    value (addTiny y x) = value x + y ∧ Small (addTiny y x) ∧ addTiny y x ≠ [] ∧ (addTiny y x).length = x.length := by
  cases x with
  | nil => exact absurd rfl nonempty
  | cons d ds =>
    have range := balanced.head
    have sum : word (d + y) = d + y := word_eq (by linarith) (by linarith)
    rw [addTiny, sum]
    refine ⟨?_, ?_, by simp, rfl⟩
    · rw [value_cons, value_cons]
      ring
    · intro e member
      rcases List.mem_cons.mp member with rfl | later
      · constructor <;> linarith
      · exact balanced.tail.small e later

theorem push_addShort (x : TvmInt) (finite : x.digits ≠ []) {y : Int}
    (low : -1024 ≤ y) (high : y ≤ 1024) :
    Leaves quiet stack (some (value x.digits + y)) (pushIntQuiet quiet stack (addShort x.digits y)) := by
  obtain ⟨same, small, nonempty, size⟩ := addTiny_spec (x.number finite).1.balanced finite low high
  rw [← same]
  exact push_normalized quiet stack nonempty (size ▸ x.length_le finite) small

theorem push_scaled (x : TvmInt) (finite : x.digits ≠ []) {f : Int → Int}
    {factor : Int} (linear : ∀ d, f d = word (d * factor)) (low : -1024 ≤ factor) (high : factor ≤ 1024) :
    Leaves quiet stack (some (value x.digits * factor)) (pushIntQuiet quiet stack (normalizeAny 5 (x.digits.map f))) := by
  have spec := scale_spec (x.number finite).1.balanced linear low high
  rw [← spec.1]
  exact push_normalized quiet stack (by simpa using finite) (by simpa using x.length_le finite) spec.2

theorem push_mul (x y : TvmInt) (first : x.digits ≠ [])
    (second : y.digits ≠ []) :
    Leaves quiet stack (some (value x.digits * value y.digits))
      (pushIntQuiet quiet stack (mul x.digits y.digits)) := by
  unfold mul
  rcases addMulAny_spec (x.number first).1 (y.number second).1 (x.length_le first) (y.length_le second) (by norm_num)
    with ⟨nonempty, room, small, same⟩ | ⟨empty, large⟩
  · rw [← same]
    exact push_normalized quiet stack nonempty room small
  have outside : ¬ Fits (value x.digits * value y.digits) := by
    intro fits
    have near : |value x.digits * value y.digits| ≤ 2 ^ 256 := abs_le.mpr ⟨fits.1, le_of_lt fits.2⟩
    linarith
  rw [empty]
  unfold Leaves
  simp only [if_neg outside]
  exact push_nan quiet stack

end TonStaking.Source.BigInt
