import Reckoner.Proofs.Power.Repeated

set_option autoImplicit false

namespace Reckoner.Decimal

/-- The number that so many units of the fine grid make. -/
def fineRat (x : ℤ) : ℚ := x / fineOne

def fineUnit : ℚ := 1 / fineOne

variable {a b p x y : ℤ}

theorem cast_one : (one : ℚ) = 10 ^ 64 := cast_tenPow (by decide)

theorem cast_fineOne : (fineOne : ℚ) = 10 ^ 74 := cast_tenPow (by decide)

theorem cast_fineOne_pos : (0 : ℚ) < fineOne := by exact_mod_cast fineOne_pos

theorem fineUnit_eq : fineUnit = 1 / 10 ^ 74 := by rw [fineUnit, cast_fineOne]

theorem fineUnit_pos : 0 < fineUnit := one_div_pos.mpr cast_fineOne_pos

theorem fineRat_fineOne : fineRat fineOne = 1 := div_self cast_fineOne_pos.ne'

theorem fineRat_guardFactor : fineRat guardFactor = 10 ^ 10 * fineUnit := by
  rw [fineRat, fineUnit, mul_one_div]
  exact congrArg (· / _) (cast_tenPow (by decide))

theorem fineRat_zero : fineRat 0 = 0 := by simp [fineRat]

theorem fineRat_sub (a b : ℤ) : fineRat (a - b) = fineRat a - fineRat b := by
  simp [fineRat, sub_div]

theorem fineRat_add (a b : ℤ) : fineRat (a + b) = fineRat a + fineRat b := by
  simp [fineRat, add_div]

theorem fineRat_neg (a : ℤ) : fineRat (-a) = -fineRat a := by
  simp [fineRat, neg_div]

theorem fineRat_mul_int (a k : ℤ) : fineRat (a * k) = fineRat a * k := by
  simp [fineRat, mul_div_right_comm]

theorem fineRat_le_fineRat : fineRat a ≤ fineRat b ↔ a ≤ b := by
  rw [fineRat, fineRat, div_le_div_iff_of_pos_right cast_fineOne_pos, Int.cast_le]

theorem fineRat_lt_fineRat : fineRat a < fineRat b ↔ a < b := by
  rw [← not_le, fineRat_le_fineRat, not_le]

theorem fineRat_nonneg (h : 0 ≤ a) : 0 ≤ fineRat a := by
  rwa [← fineRat_zero, fineRat_le_fineRat]

theorem fineRat_pos (h : 0 < a) : 0 < fineRat a := by
  rwa [← fineRat_zero, fineRat_lt_fineRat]

theorem one_le_fineRat_iff : 1 ≤ fineRat a ↔ fineOne ≤ a := by
  rw [← fineRat_fineOne, fineRat_le_fineRat]

theorem fineRat_le_one_iff : fineRat a ≤ 1 ↔ a ≤ fineOne := by
  rw [← fineRat_fineOne, fineRat_le_fineRat]

theorem abs_fineRat (a : ℤ) : |fineRat a| = |a| / fineOne := by
  rw [fineRat, abs_div, abs_of_pos cast_fineOne_pos, Int.cast_abs]

theorem fineRat_raise (x : ℤ) : fineRat (raise x) = toRat x := by
  have hguard : (guardFactor : ℚ) ≠ 0 := by exact_mod_cast guardFactor_pos.ne'
  rw [fineRat, raise, ← raise_one, raise, Int.cast_mul, Int.cast_mul, mul_div_mul_right _ _ hguard]
  rfl

theorem abs_tdiv_sub_le (a : ℤ) (hb : 0 < b) : |((a.tdiv b : ℤ) : ℚ) - a / b| ≤ 1 := by
  have hpos : (0 : ℚ) < b := by exact_mod_cast hb
  have hrest : |((a - a.tdiv b * b : ℤ) : ℚ)| ≤ b := by
    exact_mod_cast (abs_sub_tdiv_mul_lt a hb).le
  have hdifference : ((a.tdiv b : ℤ) : ℚ) - a / b = -((a - a.tdiv b * b : ℤ) / b) := by
    push_cast
    field_simp
    ring
  rw [hdifference, abs_neg, abs_div, abs_of_pos hpos]
  exact (div_le_one hpos).mpr hrest

theorem tdiv_le_div (ha : 0 ≤ a) (hb : 0 < b) : ((a.tdiv b : ℤ) : ℚ) ≤ a / b := by
  have hpos : (0 : ℚ) < b := by exact_mod_cast hb
  rw [Int.tdiv_eq_ediv_of_nonneg ha, le_div_iff₀ hpos]
  exact_mod_cast Int.ediv_mul_le a hb.ne'

theorem abs_fineRat_tdiv_sub (a : ℤ) (hb : 0 < b) :
    |fineRat (a.tdiv b) - fineRat a / b| ≤ fineUnit := by
  have hsplit : fineRat (a.tdiv b) - fineRat a / b =
      (((a.tdiv b : ℤ) : ℚ) - a / b) / fineOne := by
    rw [fineRat, fineRat, sub_div, div_right_comm]
  rw [hsplit, abs_div, abs_of_pos cast_fineOne_pos, fineUnit]
  exact div_le_div_of_nonneg_right (abs_tdiv_sub_le a hb) cast_fineOne_pos.le

theorem abs_fineRat_tdiv_le (a : ℤ) (hb : 0 < b) : |fineRat (a.tdiv b)| ≤ |fineRat a| / b := by
  have hpos : (0 : ℚ) < b := by exact_mod_cast hb
  have hle : ((|a.tdiv b| * b : ℤ) : ℚ) ≤ |a| := by exact_mod_cast abs_tdiv_mul_le a hb
  rw [Int.cast_mul] at hle
  rw [abs_fineRat, abs_fineRat, div_right_comm]
  exact div_le_div_of_nonneg_right ((le_div_iff₀ hpos).mpr hle) cast_fineOne_pos.le

theorem abs_fineQuotient_sub (a : ℤ) (hb : 0 < b) :
    |fineRat (fineQuotient a b) - fineRat a / fineRat b| ≤ fineUnit := by
  have hsame : fineRat a / fineRat b = fineRat (a * fineOne) / b := by
    rw [fineRat_mul_int, fineRat, fineRat, div_div_div_cancel_right₀ cast_fineOne_pos.ne',
      div_mul_cancel₀ _ cast_fineOne_pos.ne']
  rw [hsame]
  exact abs_fineRat_tdiv_sub _ hb

theorem abs_fineQuotient_le (a : ℤ) (hb : 0 < b) :
    |fineRat (fineQuotient a b)| ≤ |fineRat a / fineRat b| := by
  have hsame : |fineRat a / fineRat b| = |fineRat (a * fineOne)| / b := by
    have hpos : (0 : ℚ) < b := by exact_mod_cast hb
    rw [fineRat_mul_int, abs_div, abs_mul, abs_of_pos cast_fineOne_pos,
      abs_of_pos (fineRat_pos hb), fineRat, fineRat, div_div_eq_mul_div]
  rw [hsame]
  exact abs_fineRat_tdiv_le _ hb

theorem fineQuotient_le (ha : 0 ≤ a) (hb : 0 < b) :
    fineRat (fineQuotient a b) ≤ fineRat a / fineRat b := by
  have hnumerator : 0 ≤ a * fineOne := mul_nonneg ha fineOne_pos.le
  have hone := cast_fineOne_pos.ne'
  have hle := tdiv_le_div hnumerator hb
  rw [fineRat, fineRat, fineRat, div_div_div_cancel_right₀ hone, div_le_iff₀ cast_fineOne_pos]
  rw [Int.cast_mul, mul_div_right_comm] at hle
  exact hle

theorem fineRat_mul_fineRat (a b : ℤ) : fineRat a * fineRat b = fineRat (a * b) / fineOne := by
  rw [fineRat, fineRat, fineRat, Int.cast_mul, div_mul_div_comm, div_div]

theorem abs_fineProduct_sub (a b : ℤ) :
    |fineRat (fineProduct a b) - fineRat a * fineRat b| ≤ fineUnit := by
  rw [fineRat_mul_fineRat]
  exact abs_fineRat_tdiv_sub _ fineOne_pos

theorem abs_fineProduct_le_mul (a b : ℤ) :
    |fineRat (fineProduct a b)| ≤ |fineRat a| * |fineRat b| := by
  rw [← abs_mul, fineRat_mul_fineRat, abs_div, abs_of_pos cast_fineOne_pos]
  exact abs_fineRat_tdiv_le _ fineOne_pos

theorem abs_fineRat_product_tdiv_sub (a b : ℤ) {k : ℤ} (hk : 0 < k) :
    |fineRat ((a * b).tdiv (fineOne * k)) - fineRat a * fineRat b / k| ≤ fineUnit := by
  have h := abs_fineRat_tdiv_sub (a * b) (mul_pos fineOne_pos hk)
  rwa [Int.cast_mul, ← div_div, ← fineRat_mul_fineRat] at h

theorem abs_fineRat_product_tdiv_le (a b : ℤ) {k : ℤ} (hk : 0 < k) :
    |fineRat ((a * b).tdiv (fineOne * k))| ≤ |fineRat a| * |fineRat b| / k := by
  have h := abs_fineRat_tdiv_le (a * b) (mul_pos fineOne_pos hk)
  rwa [Int.cast_mul, ← div_div, ← abs_of_pos cast_fineOne_pos, ← abs_div, ← fineRat_mul_fineRat,
    abs_mul] at h

theorem fineProduct_nonneg (ha : 0 ≤ a) (hb : 0 ≤ b) : 0 ≤ fineProduct a b :=
  Int.tdiv_nonneg (mul_nonneg ha hb) fineOne_pos.le

theorem fineProduct_le (ha : 0 ≤ a) (hb : 0 ≤ b) :
    fineRat (fineProduct a b) ≤ fineRat a * fineRat b := by
  have hle := tdiv_le_div (mul_nonneg ha hb) fineOne_pos
  rw [fineRat_mul_fineRat, fineRat, fineRat]
  exact div_le_div_of_nonneg_right hle cast_fineOne_pos.le

theorem le_fineProduct (a b : ℤ) :
    fineRat a * fineRat b - fineUnit ≤ fineRat (fineProduct a b) := by
  have h := (abs_le.mp (abs_fineProduct_sub a b)).1
  linarith

theorem floor_mul_two_pow (x : ℤ) (n : ℕ) : ⌊(x : ℚ) * 2 ^ (n : ℤ)⌋ = x * twoPow n := by
  have hcast : (x : ℚ) * 2 ^ (n : ℤ) = ((x * 2 ^ n : ℤ) : ℚ) := by
    push_cast
    rw [zpow_natCast]
  rw [hcast, Int.floor_intCast]
  exact congrArg (x * ·) (Nat.cast_pow 2 n).symm

theorem floor_div_two_pow (x : ℤ) (n : ℕ) : ⌊(x : ℚ) * 2 ^ (-(n : ℤ))⌋ = x.shiftRight n := by
  have hquotient := Rat.floor_intCast_div_natCast x (2 ^ n)
  rw [zpow_neg, zpow_natCast, ← div_eq_mul_inv]
  push_cast at hquotient
  exact hquotient.trans (Int.shiftRight_eq_div_pow x n).symm

/-- A shift to the left is exact and one to the right is rounded down. -/
theorem fineRat_floor_bounds (x k : ℤ) : fineRat ⌊(x : ℚ) * 2 ^ k⌋ ≤ fineRat x * 2 ^ k ∧
    fineRat x * 2 ^ k ≤ fineRat ⌊(x : ℚ) * 2 ^ k⌋ + fineUnit := by
  rw [fineRat, fineRat, fineUnit, ← add_div, div_mul_eq_mul_div]
  exact ⟨div_le_div_of_nonneg_right (Int.floor_le _) cast_fineOne_pos.le,
    div_le_div_of_nonneg_right (Int.lt_floor_add_one _).le cast_fineOne_pos.le⟩

theorem abs_toRat_lower_sub (x : ℤ) : |toRat (lower x) - fineRat x| ≤ 1 / 10 ^ 64 := by
  have hone : (0 : ℚ) < one := by exact_mod_cast one_pos
  have hsplit : toRat (lower x) - fineRat x =
      (((x.tdiv guardFactor : ℤ) : ℚ) - x / guardFactor) / one := by
    rw [toRat, lower, fineRat, ← raise_one, raise, Int.cast_mul, sub_div, div_div,
      mul_comm (guardFactor : ℚ)]
  rw [hsplit, abs_div, abs_of_pos hone, ← cast_one]
  exact div_le_div_of_nonneg_right (abs_tdiv_sub_le x guardFactor_pos) hone.le

theorem lower_nonneg (hx : 0 ≤ x) : 0 ≤ lower x := Int.tdiv_nonneg hx guardFactor_pos.le

theorem toRat_lower_le (hx : 0 ≤ x) : toRat (lower x) ≤ fineRat x := by
  have hone : (0 : ℚ) < one := by exact_mod_cast one_pos
  have hle := tdiv_le_div hx guardFactor_pos
  rw [toRat, lower, fineRat, ← raise_one, raise, Int.cast_mul, mul_comm (one : ℚ), ← div_div]
  exact div_le_div_of_nonneg_right hle hone.le

/-- What is computed on the fine grid and is not negative becomes a decimal, or +∞ when it is beyond
the range itself. -/
theorem saturate_lower (hx : 0 ≤ x) :
    Number.saturate (lower x) = .finite (lower x) ∨
      Number.saturate (lower x) = .posInf ∧ 2 ^ bitLimit ≤ fineRat x * 10 ^ 64 := by
  by_cases hrange : InRange (lower x)
  · exact .inl (saturate_of_inRange hrange)
  · have hlower := lower_nonneg hx
    have hone : (0 : ℚ) < one := by exact_mod_cast one_pos
    refine .inr ⟨Number.saturate_eq_posInf hrange hlower, ?_⟩
    have hlarge : (2 : ℤ) ^ bitLimit ≤ lower x := by
      rw [InRange, not_lt] at hrange
      zify at hrange
      rwa [abs_of_nonneg hlower] at hrange
    have hle := toRat_lower_le hx
    rw [toRat, div_le_iff₀ hone, cast_one] at hle
    refine le_trans ?_ hle
    exact_mod_cast hlarge

end Reckoner.Decimal
