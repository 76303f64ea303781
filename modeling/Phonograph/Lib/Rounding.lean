import Mathlib.Algebra.Order.Archimedean.Basic
import Mathlib.Algebra.Order.Floor.Ring
import Mathlib.Algebra.Order.Round
import Mathlib.Data.Int.Log
import Mathlib.Data.Rat.Floor
import Mathlib.Tactic.Linarith
import Mathlib.Tactic.NormNum
import Mathlib.Tactic.Ring

/-! # Rounding to binary floating point

`double x` is the number of 53 binary digits next to the rational `x`, the even one
of two that are equally near.  The exponent is not bounded: overflow and numbers too
small to be normal are left out. -/

set_option autoImplicit false

namespace Phonograph.Lib

def roundHalfEven (x : ℚ) : ℤ :=
  if x - ⌊x⌋ < 1 / 2 then ⌊x⌋
  else if 1 / 2 < x - ⌊x⌋ then ⌊x⌋ + 1
  else if ⌊x⌋ % 2 = 0 then ⌊x⌋
  else ⌊x⌋ + 1

/-- The step from one number of 53 digits to the next, near `x`. -/
def ulp (x : ℚ) : ℚ := 2 ^ (Int.log 2 |x| - 52)

def double (x : ℚ) : ℚ := roundHalfEven (x / ulp x) * ulp x

/-! ## Whole numbers -/

theorem floor_le_roundHalfEven (x : ℚ) : ⌊x⌋ ≤ roundHalfEven x := by
  unfold roundHalfEven
  split_ifs <;> omega

theorem roundHalfEven_le_floor (x : ℚ) : roundHalfEven x ≤ ⌊x⌋ + 1 := by
  unfold roundHalfEven
  split_ifs <;> omega

@[simp] theorem roundHalfEven_intCast (n : ℤ) : roundHalfEven n = n := by
  simp [roundHalfEven]

theorem roundHalfEven_mono {x y : ℚ} (le : x ≤ y) : roundHalfEven x ≤ roundHalfEven y := by
  rcases (Int.floor_le_floor le).lt_or_eq with less | same
  · calc roundHalfEven x ≤ ⌊x⌋ + 1 := roundHalfEven_le_floor x
      _ ≤ ⌊y⌋ := less
      _ ≤ roundHalfEven y := floor_le_roundHalfEven y
  · unfold roundHalfEven
    rw [same]
    split_ifs <;> first | omega | linarith

theorem le_roundHalfEven {n : ℤ} {x : ℚ} (le : n ≤ x) : n ≤ roundHalfEven x := by
  simpa using roundHalfEven_mono le

theorem roundHalfEven_le {n : ℤ} {x : ℚ} (le : x ≤ n) : roundHalfEven x ≤ n := by
  simpa using roundHalfEven_mono le

theorem lt_roundHalfEven {n : ℤ} {x : ℚ} (less : n + 1 / 2 < x) : n < roundHalfEven x := by
  rcases lt_or_ge x (n + 1) with below | above
  · have floor : ⌊x⌋ = n := by
      rw [Int.floor_eq_iff]
      constructor <;> linarith
    rw [roundHalfEven, floor, if_neg (by linarith), if_pos (by linarith)]
    omega
  · have next : n + 1 ≤ roundHalfEven x := le_roundHalfEven (by push_cast; exact above)
    omega

/-! ## Binary exponents -/

theorem two_zpow_pos (k : ℤ) : (0 : ℚ) < 2 ^ k := zpow_pos (by norm_num) k

theorem log_two {x : ℚ} {k : ℤ} (lower : (2 : ℚ) ^ k ≤ x) (upper : x < 2 ^ (k + 1)) :
    Int.log 2 |x| = k := by
  have pos : 0 < x := lt_of_lt_of_le (two_zpow_pos k) lower
  rw [abs_of_pos pos]
  apply le_antisymm
  · have less : Int.log 2 x < k + 1 :=
      (Int.lt_zpow_iff_log_lt (by decide) pos).mp (by exact_mod_cast upper)
    omega
  · exact (Int.zpow_le_iff_le_log (by decide) pos).mp (by exact_mod_cast lower)

/-- Between two powers of two the numbers are equally far apart. -/
theorem double_between {x : ℚ} (k : ℤ) (lower : (2 : ℚ) ^ k ≤ x) (upper : x < 2 ^ (k + 1)) :
    double x = roundHalfEven (x / 2 ^ (k - 52)) * 2 ^ (k - 52) := by
  simp only [double, ulp, log_two lower upper]

theorem exists_between {x : ℚ} (pos : 0 < x) :
    ∃ k : ℤ, (2 : ℚ) ^ k ≤ x ∧ x < 2 ^ (k + 1) := by
  refine ⟨Int.log 2 x, ?_, ?_⟩
  · exact_mod_cast Int.zpow_log_le_self (by decide : 1 < 2) pos
  · exact_mod_cast Int.lt_zpow_succ_log_self (by decide : 1 < 2) x

theorem zpow_split (k : ℤ) : (2 : ℚ) ^ k = 2 ^ (52 : ℤ) * 2 ^ (k - 52) := by
  rw [← zpow_add₀ (by norm_num)]
  congr 1
  ring

theorem zpow_le_double {x : ℚ} {k : ℤ} (lower : (2 : ℚ) ^ k ≤ x) (upper : x < 2 ^ (k + 1)) :
    (2 : ℚ) ^ k ≤ double x := by
  have step := two_zpow_pos (k - 52)
  rw [double_between k lower upper, zpow_split k]
  apply mul_le_mul_of_nonneg_right _ step.le
  have scaled : ((2 ^ 52 : ℤ) : ℚ) ≤ x / 2 ^ (k - 52) := by
    rw [le_div_iff₀ step]
    push_cast
    calc (2 : ℚ) ^ 52 * 2 ^ (k - 52) = 2 ^ k := (zpow_split k).symm
      _ ≤ x := lower
  exact_mod_cast le_roundHalfEven scaled

theorem zpow_split_succ (k : ℤ) : (2 : ℚ) ^ (k + 1) = 2 ^ (53 : ℤ) * 2 ^ (k - 52) := by
  rw [← zpow_add₀ (by norm_num)]
  congr 1
  ring

theorem double_le_zpow {x : ℚ} {k : ℤ} (lower : (2 : ℚ) ^ k ≤ x) (upper : x < 2 ^ (k + 1)) :
    double x ≤ (2 : ℚ) ^ (k + 1) := by
  have step := two_zpow_pos (k - 52)
  rw [double_between k lower upper, zpow_split_succ k]
  apply mul_le_mul_of_nonneg_right _ step.le
  have scaled : x / 2 ^ (k - 52) ≤ ((2 ^ 53 : ℤ) : ℚ) := by
    rw [div_le_iff₀ step]
    push_cast
    calc x ≤ 2 ^ (k + 1) := upper.le
      _ = (2 : ℚ) ^ 53 * 2 ^ (k - 52) := zpow_split_succ k
  exact_mod_cast roundHalfEven_le scaled

@[simp] theorem double_zero : double 0 = 0 := by
  have zero : roundHalfEven 0 = 0 := by simpa using roundHalfEven_intCast 0
  simp [double, zero]

theorem double_mono {x y : ℚ} (nonneg : 0 ≤ x) (le : x ≤ y) : double x ≤ double y := by
  rcases nonneg.eq_or_lt with rfl | pos
  · rcases le.eq_or_lt with rfl | above
    · exact le_refl _
    · obtain ⟨k, lower, upper⟩ := exists_between above
      rw [double_zero]
      exact (two_zpow_pos k).le.trans (zpow_le_double lower upper)
  · obtain ⟨k, xLower, xUpper⟩ := exists_between pos
    obtain ⟨l, yLower, yUpper⟩ := exists_between (lt_of_lt_of_le pos le)
    have order : k < l + 1 := (zpow_lt_zpow_iff_right₀ (by norm_num : (1 : ℚ) < 2)).mp
      (lt_of_le_of_lt (xLower.trans le) yUpper)
    rcases (Int.lt_add_one_iff.mp order).eq_or_lt with rfl | less
    · rw [double_between k xLower xUpper, double_between k yLower yUpper]
      have step := two_zpow_pos (k - 52)
      apply mul_le_mul_of_nonneg_right _ step.le
      exact_mod_cast roundHalfEven_mono (div_le_div_of_nonneg_right le step.le)
    · calc double x ≤ 2 ^ (k + 1) := double_le_zpow xLower xUpper
        _ ≤ 2 ^ l := zpow_le_zpow_right₀ (by norm_num) less
        _ ≤ double y := zpow_le_double yLower yUpper

end Phonograph.Lib
