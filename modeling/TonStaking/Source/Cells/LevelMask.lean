import Mathlib.Data.Nat.Bitwise
import Mathlib.Data.Nat.Log

/-!
# Level masks

`LevelMask` of `crypto/vm/cells/LevelMask.h`: bit `i` of a mask says that the cell has a
hash of its own at level `i + 1`. Level 0 is always significant.
-/
namespace TonStaking.Source.Cells

abbrev LevelMask := Nat

namespace LevelMask

variable (mask : LevelMask) (level top : Nat)

/-- `get_level`: 32 minus the leading zeroes. -/
def getLevel : Nat := if mask = 0 then 0 else mask.log2 + 1

/-- `get_hash_i`: the number of set bits. -/
def getHashI : Nat := ((List.range (getLevel mask)).filter mask.testBit).length

def getHashesCount : Nat := getHashI mask + 1

/-- `apply`: the bits below a level. -/
def apply : LevelMask := mask % 2 ^ level

def isSignificant : Bool := level == 0 || mask.testBit (level - 1)

def oneLevel : LevelMask := if level = 0 then 0 else 2 ^ (level - 1)

variable {mask level top}

theorem getLevel_le_iff_lt : getLevel mask ≤ level ↔ mask < 2 ^ level := by
  unfold getLevel
  split
  · rename_i zero
    subst zero
    exact iff_of_true (Nat.zero_le level) (Nat.two_pow_pos level)
  · rename_i positive
    exact Nat.log2_lt positive

theorem getLevel_le_iff : getLevel mask ≤ level ↔ ∀ i, level ≤ i → mask.testBit i = false := by
  rw [getLevel_le_iff_lt]
  constructor
  · intro small i above
    exact Nat.testBit_lt_two_pow (lt_of_lt_of_le small (Nat.pow_le_pow_right (by decide) above))
  · intro unset
    exact Nat.lt_pow_two_of_testBit mask unset

theorem lt_getLevel_iff : level < getLevel mask ↔ ∃ i, level ≤ i ∧ mask.testBit i = true := by
  rw [← not_le, getLevel_le_iff]
  simp

@[simp] theorem testBit_apply (mask : LevelMask) (level i : Nat) :
    (apply mask level).testBit i = (decide (i < level) && mask.testBit i) :=
  Nat.testBit_mod_two_pow mask level i

theorem getLevel_apply_le (mask : LevelMask) (level : Nat) : getLevel (apply mask level) ≤ level := by
  rw [getLevel_le_iff_lt]
  exact Nat.mod_lt mask (Nat.two_pow_pos level)

theorem apply_of_getLevel_le (low : getLevel mask ≤ level) : apply mask level = mask :=
  Nat.mod_eq_of_lt (getLevel_le_iff_lt.mp low)

theorem testBit_oneLevel (level i : Nat) : (oneLevel (level + 1)).testBit i = decide (level = i) := by
  simp [oneLevel, Nat.testBit_two_pow]

/-- The significant levels up to the level of a mask, in the order in which their hashes are stored. -/
def significantLevels (mask : LevelMask) : List Nat :=
  (List.range (getLevel mask + 1)).filter (isSignificant mask)

theorem mem_significantLevels : level ∈ significantLevels mask ↔ isSignificant mask level = true := by
  rw [significantLevels, List.mem_filter, List.mem_range]
  refine ⟨And.right, fun significant => ⟨?_, significant⟩⟩
  cases level with
  | zero => exact Nat.succ_pos _
  | succ level =>
    have set : mask.testBit level = true := by simpa [isSignificant] using significant
    exact Nat.succ_lt_succ (lt_getLevel_iff.mpr ⟨level, le_refl level, set⟩)

/-- The stored hash that `get_hash_i` of a lower level selects is that of the last significant
level up to it. Masks of cells have three bits. -/
theorem significantLevels_getHashI (small : mask < 8) (level : Nat) (low : level < 4) :
    (significantLevels mask)[getHashI (apply mask level)]? = some (getLevel (apply mask level)) := by
  have all : ∀ mask < 8, ∀ level < 4,
      (significantLevels mask)[getHashI (apply mask level)]? = some (getLevel (apply mask level)) := by
    decide
  exact all mask small level low

theorem length_significantLevels (small : mask < 8) : (significantLevels mask).length = getHashesCount mask := by
  have all : ∀ mask < 8, (significantLevels mask).length = getHashesCount mask := by decide
  exact all mask small

/-- A new top bit does not change the number of the hashes below it. -/
theorem getHashI_or_oneLevel (below : getLevel mask ≤ top) (fits : top < 3) (low : level ≤ top) :
    getHashI (apply (mask ||| oneLevel (top + 1)) level) = getHashI (apply mask level) ∧
      getHashI (apply mask level) < getHashI (mask ||| oneLevel (top + 1)) := by
  have all : ∀ top < 3, ∀ mask < 2 ^ top, ∀ level < top + 1,
      getHashI (apply (mask ||| oneLevel (top + 1)) level) = getHashI (apply mask level) ∧
        getHashI (apply mask level) < getHashI (mask ||| oneLevel (top + 1)) := by
    decide
  exact all top fits mask (getLevel_le_iff_lt.mp below) level (Nat.lt_succ_of_le low)

theorem getHashesCount_apply_or_oneLevel (below : getLevel mask ≤ top) (fits : top < 3) :
    getLevel (mask ||| oneLevel (top + 1)) = top + 1 ∧
      getHashesCount (apply (mask ||| oneLevel (top + 1)) top) = getHashesCount mask := by
  have all : ∀ top < 3, ∀ mask < 2 ^ top, getLevel (mask ||| oneLevel (top + 1)) = top + 1 ∧
      getHashesCount (apply (mask ||| oneLevel (top + 1)) top) = getHashesCount mask := by
    decide
  exact all top fits mask (getLevel_le_iff_lt.mp below)

end LevelMask

end TonStaking.Source.Cells
