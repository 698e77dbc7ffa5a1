import Mathlib.Data.Int.Log
import Mathlib.Data.Rat.Floor
import Mathlib.Tactic.Linarith
import Mathlib.Tactic.Ring

/-!
# Binary floating-point numbers of 64 bits

A rational number is rounded to the nearest multiple of the unit in its last place, and in the middle
between two of them to the even one.
-/

namespace Binary64

/-! ## Rounding to an integer -/

/-- The nearest integer, and the even one of two that are equally near. -/
def roundHalfEven (x : ℚ) : ℤ :=
  if Int.fract x < 1 / 2 then ⌊x⌋
  else if 1 / 2 < Int.fract x then ⌊x⌋ + 1
  else if ⌊x⌋ % 2 = 0 then ⌊x⌋ else ⌊x⌋ + 1

theorem abs_roundHalfEven_sub_le (x : ℚ) : |(roundHalfEven x : ℚ) - x| ≤ 1 / 2 := by
  have hx : (⌊x⌋ : ℚ) + Int.fract x = x := Int.floor_add_fract x
  have hnonneg := Int.fract_nonneg x
  have hlt := Int.fract_lt_one x
  rw [abs_le]
  unfold roundHalfEven
  split_ifs with hbelow habove
  · constructor <;> linarith
  · push_cast
    constructor <;> linarith
  · constructor <;> linarith
  · push_cast
    constructor <;> linarith

/-! ## The numbers of the format -/

/-- A number with a significand of 53 bits and an exponent in range. -/
structure IsDouble (x : ℚ) : Prop where
  exists_eq : ∃ m e : ℤ, x = m * 2 ^ e ∧ |m| < 2 ^ 53 ∧ -1074 ≤ e
  abs_lt : |x| < 2 ^ 1024

/-- The exponent of the unit in the last place. -/
def ulpExponent (x : ℚ) : ℤ := max (Int.log 2 |x| - 52) (-1074)

def nearest (x : ℚ) : ℚ := roundHalfEven (x / 2 ^ ulpExponent x) * 2 ^ ulpExponent x

theorem abs_lt_ulp (x : ℚ) : |x| < 2 ^ 53 * 2 ^ ulpExponent x := by
  have hlog : |x| < (2 : ℚ) ^ (Int.log 2 |x| + 1) := Int.lt_zpow_succ_log_self (by decide) |x|
  have hle : Int.log 2 |x| + 1 ≤ 53 + ulpExponent x := by
    unfold ulpExponent
    omega
  calc |x| < (2 : ℚ) ^ (Int.log 2 |x| + 1) := hlog
    _ ≤ 2 ^ (53 + ulpExponent x) := zpow_le_zpow_right₀ (by norm_num) hle
    _ = 2 ^ 53 * 2 ^ ulpExponent x := zpow_add₀ (by norm_num) ..

/-- The significand has at most 53 bits, or it is the power of two behind them. -/
theorem abs_significand_le (x : ℚ) : |roundHalfEven (x / 2 ^ ulpExponent x)| ≤ 2 ^ 53 := by
  have hulp : (0 : ℚ) < 2 ^ ulpExponent x := zpow_pos (by norm_num) _
  have hscaled : |x / 2 ^ ulpExponent x| < 2 ^ 53 := by
    rw [abs_div, abs_of_pos hulp, div_lt_iff₀ hulp]
    exact abs_lt_ulp x
  have hround := abs_roundHalfEven_sub_le (x / 2 ^ ulpExponent x)
  generalize x / 2 ^ ulpExponent x = y at hscaled hround ⊢
  rw [abs_lt] at hscaled
  rw [abs_le] at hround
  have hupper : (roundHalfEven y : ℚ) < ((2 ^ 53 + 1 : ℤ) : ℚ) := by
    push_cast
    linarith
  have hlower : ((-2 ^ 53 - 1 : ℤ) : ℚ) < roundHalfEven y := by
    push_cast
    linarith
  have hupper' := Int.cast_lt.mp hupper
  have hlower' := Int.cast_lt.mp hlower
  exact abs_le.mpr ⟨by omega, by omega⟩

theorem isDouble_nearest {x : ℚ} (h : |nearest x| < 2 ^ 1024) : IsDouble (nearest x) := by
  refine ⟨?_, h⟩
  have hle := abs_significand_le x
  have hmin : -1074 ≤ ulpExponent x := le_max_right _ _
  unfold nearest
  generalize roundHalfEven (x / 2 ^ ulpExponent x) = m at hle ⊢
  rcases hle.lt_or_eq with hlt | heq
  · exact ⟨m, ulpExponent x, rfl, hlt, hmin⟩
  · -- a power of two has a significand of one bit
    have hdouble : ((m / 2 : ℤ) : ℚ) * 2 = m := by
      have heven : m / 2 * 2 = m := by
        rcases abs_eq (by norm_num : (0 : ℤ) ≤ 2 ^ 53) |>.mp heq with rfl | rfl <;> norm_num
      exact_mod_cast heven
    refine ⟨m / 2, ulpExponent x + 1, ?_, ?_, by omega⟩
    · rw [zpow_add₀ (by norm_num), zpow_one, ← hdouble]
      ring
    · rcases abs_eq (by norm_num : (0 : ℤ) ≤ 2 ^ 53) |>.mp heq with rfl | rfl <;> norm_num

/-- Rounding moves a number by half a unit in the last place at most. -/
theorem abs_nearest_sub_le (x : ℚ) : |nearest x - x| ≤ 2 ^ ulpExponent x / 2 := by
  have hulp : (0 : ℚ) < 2 ^ ulpExponent x := zpow_pos (by norm_num) _
  have hround := abs_roundHalfEven_sub_le (x / 2 ^ ulpExponent x)
  have hscaled : nearest x - x =
      (roundHalfEven (x / 2 ^ ulpExponent x) - x / 2 ^ ulpExponent x) * 2 ^ ulpExponent x := by
    rw [sub_mul, div_mul_cancel₀ _ hulp.ne', nearest]
  rw [hscaled, abs_mul, abs_of_pos hulp]
  calc _ ≤ 1 / 2 * (2 : ℚ) ^ ulpExponent x := mul_le_mul_of_nonneg_right hround hulp.le
    _ = 2 ^ ulpExponent x / 2 := by ring

/-! ## The values of the type -/

/-- A `double`; its two zeros are not told apart, and neither are the values that are no numbers. -/
inductive Double where
  | finite (x : ℚ) (isDouble : IsDouble x)
  | infinite (negative : Bool)
  | nan
deriving DecidableEq

/-- The nearest double, unless the number is too big for the format, or so small that digits are lost. -/
def Double.ofRat (x : ℚ) : Option Double :=
  if h : |nearest x| < 2 ^ 1024 then
    if |x| < 2 ^ (-1022 : ℤ) ∧ nearest x ≠ x then none else some (.finite (nearest x) (isDouble_nearest h))
  else none

theorem Double.eq_nearest_of_ofRat {x y : ℚ} {hy : IsDouble y} (h : Double.ofRat x = some (.finite y hy)) :
    y = nearest x := by
  unfold Double.ofRat at h
  split_ifs at h
  cases h
  rfl

end Binary64
