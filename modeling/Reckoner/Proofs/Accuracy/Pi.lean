import Reckoner.Decimal.Trigonometry
import Reckoner.Proofs.Accuracy.Series

set_option autoImplicit false

namespace Reckoner.Decimal

open Real (arctan)
open scoped Real

variable {q unit : ℤ} {n : ℕ}

/-- The tail behind `n` terms is no more than twice the first that is left out. -/
theorem abs_arctan_sum_sub_le {x : ℝ} (hx : |x| ≤ 1 / 2) (n : ℕ) :
    |∑ i ∈ Finset.range n, (-1) ^ i * x ^ (2 * i + 1) / (2 * i + 1 : ℕ) - arctan x| ≤
      2 * (|x| ^ (2 * n + 1) / (2 * n + 1 : ℕ)) := by
  have hsmall : ‖x‖ < 1 := (Real.norm_eq_abs x).trans_lt (hx.trans_lt (by norm_num))
  refine abs_sum_range_sub_le (Real.hasSum_arctan hsmall) n fun i => ?_
  have hratio : (|x| ^ 2) ^ i ≤ (1 / 2) ^ i := by
    refine pow_le_pow_left₀ (by positivity) ?_ i
    exact (pow_le_pow_left₀ (abs_nonneg x) hx 2).trans (by norm_num)
  have hindex : ((2 * n + 1 : ℕ) : ℝ) ≤ (2 * (i + n) + 1 : ℕ) := by
    exact_mod_cast (by omega : 2 * n + 1 ≤ 2 * (i + n) + 1)
  have hpower : |x| ^ (2 * (i + n) + 1) = |x| ^ (2 * n + 1) * (|x| ^ 2) ^ i := by
    rw [← pow_mul, ← pow_add]
    congr 1
    ring
  rw [abs_div, abs_mul, abs_pow, abs_neg, abs_one, one_pow, one_mul, abs_pow, Nat.abs_cast, hpower,
    div_mul_eq_mul_div]
  exact div_le_div₀ (by positivity) (mul_le_mul_of_nonneg_left hratio (by positivity))
    (by positivity) hindex

theorem arctanInverse_term (q unit : ℤ) (n : ℕ) :
    (arctanInverseSeries q unit).term n = ⟨2 * n + 1, q ^ (2 * n + 1)⟩ := by
  induction n with
  | zero => simp [Series.term, arctanInverseSeries]
  | succ n ih =>
    rw [Series.term_succ, ih]
    change Term.mk _ _ = Term.mk _ _
    congr 1
    ring

def reciprocalDivisor (q : ℤ) (n : ℕ) : ℤ := q ^ (2 * n + 1) * (2 * n + 1 : ℕ)

theorem reciprocalDivisor_pos (hq : 0 < q) (n : ℕ) : 0 < reciprocalDivisor q n := by
  unfold reciprocalDivisor
  positivity

theorem reciprocalDivisor_mono (hq : 0 < q) : Monotone (reciprocalDivisor q) := by
  intro i j hij
  have hpower : q ^ (2 * i + 1) ≤ q ^ (2 * j + 1) := pow_le_pow_right₀ hq (by omega)
  exact mul_le_mul hpower (by exact_mod_cast (by omega : 2 * i + 1 ≤ 2 * j + 1)) (by positivity)
    (by positivity)

theorem inv_pow_div_index (q : ℤ) (n : ℕ) :
    (q : ℝ)⁻¹ ^ (2 * n + 1) / (2 * n + 1 : ℕ) = 1 / reciprocalDivisor q n := by
  rw [inv_pow, reciprocalDivisor, Int.cast_mul, Int.cast_pow, Int.cast_natCast, one_div, mul_inv,
    div_eq_mul_inv]

theorem arctanInverse_addend (q unit : ℤ) (n : ℕ) :
    (arctanInverseSeries q unit).addend ((arctanInverseSeries q unit).term n) =
      (-1) ^ n * unit.tdiv (reciprocalDivisor q n) := by
  rw [arctanInverse_term]
  change (if (2 * n + 1) % 4 = 1 then unit.tdiv (reciprocalDivisor q n)
    else -unit.tdiv (reciprocalDivisor q n)) = _
  rcases Nat.even_or_odd n with heven | hodd
  · rw [heven.neg_one_pow, one_mul, if_pos (by obtain ⟨k, rfl⟩ := heven; omega)]
  · rw [hodd.neg_one_pow, neg_one_mul, if_neg (by obtain ⟨k, rfl⟩ := hodd; omega)]

theorem arctanInverse_spent_iff (hq : 0 < q) (hunit : 0 ≤ unit) (n : ℕ) :
    (arctanInverseSeries q unit).spent ((arctanInverseSeries q unit).term n) = true ↔
      unit < reciprocalDivisor q n := by
  rw [arctanInverse_term]
  change decide (unit.tdiv (reciprocalDivisor q n) = 0) = true ↔ _
  rw [decide_eq_true_iff]
  refine ⟨fun hzero => ?_, Int.tdiv_eq_zero_of_lt hunit⟩
  by_contra hle
  have hone := (Int.le_ediv_iff_mul_le (reciprocalDivisor_pos hq n)).mpr
    ((one_mul _).trans_le (not_lt.mp hle))
  rw [Int.tdiv_eq_ediv_of_nonneg hunit] at hzero
  omega

theorem ends_arctanInverseSeries (hq : 0 < q) (hunit : 0 ≤ unit) :
    (arctanInverseSeries q unit).Ends := by
  intro i j hij hspent
  have hlt := (arctanInverse_spent_iff hq hunit i).mp hspent
  rw [arctanInverse_addend,
    Int.tdiv_eq_zero_of_lt hunit (hlt.trans_le (reciprocalDivisor_mono hq hij)), mul_zero]

theorem abs_arctanInverse_addend_sub_le (hq : 0 < q) (unit : ℤ) (n : ℕ) :
    |(((arctanInverseSeries q unit).addend ((arctanInverseSeries q unit).term n) : ℤ) : ℝ) -
      unit * ((-1) ^ n * (q : ℝ)⁻¹ ^ (2 * n + 1) / (2 * n + 1 : ℕ))| ≤ 1 := by
  have hquotient := (Rat.cast_le (K := ℝ)).mpr (abs_tdiv_sub_le unit (reciprocalDivisor_pos hq n))
  push_cast at hquotient
  have hsplit : (((-1) ^ n * unit.tdiv (reciprocalDivisor q n) : ℤ) : ℝ) -
      unit * ((-1) ^ n * (q : ℝ)⁻¹ ^ (2 * n + 1) / (2 * n + 1 : ℕ)) =
      (-1) ^ n * ((unit.tdiv (reciprocalDivisor q n) : ℤ) - unit / (reciprocalDivisor q n : ℝ)) := by
    rw [mul_div_assoc, inv_pow_div_index]
    push_cast
    ring
  rw [arctanInverse_addend, hsplit, abs_mul, abs_pow, abs_neg, abs_one, one_pow, one_mul]
  exact hquotient

/-- The series is off by one unit for each term and two for the tail. -/
theorem abs_arctanInverse_sub_le (hq : 2 ≤ q) (hunit : 0 ≤ unit) (hn : n ≤ Series.turnLimit)
    (hspent : unit < reciprocalDivisor q n) :
    |((arctanInverseSeries q unit).sum : ℝ) - unit * arctan (q : ℝ)⁻¹| ≤ n + 2 := by
  have hpos : 0 < q := by omega
  have hreal : (2 : ℝ) ≤ q := by exact_mod_cast hq
  have hsmall : |(q : ℝ)⁻¹| ≤ 1 / 2 := by
    rw [abs_of_pos (by positivity), ← one_div]
    exact one_div_le_one_div_of_le two_pos hreal
  have hterms : |((arctanInverseSeries q unit).sum : ℝ) - unit *
      ∑ i ∈ Finset.range n, (-1) ^ i * (q : ℝ)⁻¹ ^ (2 * i + 1) / (2 * i + 1 : ℕ)| ≤ n := by
    rw [(ends_arctanInverseSeries hpos hunit).sum_eq hn
      ((arctanInverse_spent_iff hpos hunit n).mpr hspent), Int.cast_sum, Finset.mul_sum,
      ← Finset.sum_sub_distrib]
    refine (Finset.abs_sum_le_sum_abs _ _).trans ((Finset.sum_le_card_nsmul _ _ 1 fun i _ =>
      abs_arctanInverse_addend_sub_le hpos unit i).trans_eq ?_)
    rw [Finset.card_range, nsmul_one]
  have htail : |unit * ∑ i ∈ Finset.range n, (-1) ^ i * (q : ℝ)⁻¹ ^ (2 * i + 1) / (2 * i + 1 : ℕ) -
      unit * arctan (q : ℝ)⁻¹| ≤ 2 := by
    have hlast : (unit : ℝ) ≤ reciprocalDivisor q n := by exact_mod_cast hspent.le
    have hdivisor : (0 : ℝ) < reciprocalDivisor q n := by
      exact_mod_cast reciprocalDivisor_pos hpos n
    have hfirst : |(q : ℝ)⁻¹| ^ (2 * n + 1) / (2 * n + 1 : ℕ) = 1 / reciprocalDivisor q n := by
      rw [abs_of_pos (by positivity), inv_pow_div_index]
    have hbound := abs_arctan_sum_sub_le hsmall n
    rw [hfirst] at hbound
    rw [← mul_sub, abs_mul, abs_of_nonneg (by exact_mod_cast hunit)]
    calc _ ≤ (reciprocalDivisor q n : ℝ) * (2 * (1 / reciprocalDivisor q n)) :=
          mul_le_mul hlast hbound (abs_nonneg _) hdivisor.le
      _ = 2 := by field_simp
  exact (abs_sub_le _ _ _).trans (add_le_add hterms htail)

theorem machinUnit_nonneg : 0 ≤ machinUnit := by decide

theorem machinUnit_lt_five : machinUnit < reciprocalDivisor 5 60 := by decide

theorem machinUnit_lt_large : machinUnit < reciprocalDivisor 239 18 := by decide

theorem abs_machin_sub_le :
    |((16 * (arctanInverseSeries 5 machinUnit).sum - 4 * (arctanInverseSeries 239 machinUnit).sum :
      ℤ) : ℝ) - machinUnit * π| ≤ 2000 := by
  have hfive := abs_le.mp (abs_arctanInverse_sub_le (by decide) machinUnit_nonneg (by decide)
    machinUnit_lt_five)
  have hlarge := abs_le.mp (abs_arctanInverse_sub_le (by decide) machinUnit_nonneg (by decide)
    machinUnit_lt_large)
  have hmachin : π = 16 * arctan 5⁻¹ - 4 * arctan 239⁻¹ := by
    linarith [Real.four_mul_arctan_inv_5_sub_arctan_inv_239]
  rw [hmachin, abs_le]
  push_cast at hfive hlarge ⊢
  constructor <;> linarith [hfive.1, hfive.2, hlarge.1, hlarge.2]

theorem cast_machinUnit : (machinUnit : ℝ) = 10 ^ 84 := cast_tenPow (by decide)

theorem near_finePi : Near finePi π (101 / 100) := by
  have hmachin := abs_le.mp abs_machin_sub_le
  have hquotient := (Rat.cast_le (K := ℝ)).mpr (abs_tdiv_sub_le
    (16 * (arctanInverseSeries 5 machinUnit).sum - 4 * (arctanInverseSeries 239 machinUnit).sum)
    (show 0 < tenPow machinGuard by decide))
  change ((|((finePi : ℤ) : ℚ) - _ / _| : ℚ) : ℝ) ≤ _ at hquotient
  have hguard : (tenPow machinGuard : ℝ) = 10 ^ 10 := cast_tenPow (by decide)
  have hfine : (fineRat finePi : ℝ) = finePi / 10 ^ 74 := by
    rw [cast_fineRat, ← Rat.cast_intCast fineOne, cast_fineOne]
    push_cast
    rfl
  rw [cast_machinUnit] at hmachin
  rw [Rat.cast_abs, Rat.cast_sub, Rat.cast_div] at hquotient
  simp only [Rat.cast_intCast, Rat.cast_one, hguard] at hquotient
  obtain ⟨hlow, hhigh⟩ := abs_le.mp hquotient
  rw [Near, hfine, cast_fineUnit, abs_le]
  constructor <;> linarith [hmachin.1, hmachin.2]

theorem near_fineHalfPi : Near fineHalfPi (π / 2) (151 / 100) := by
  have hhalf := near_finePi.divided (k := 2) two_pos
  rw [Int.cast_ofNat] at hhalf
  exact hhalf.mono (by norm_num)

theorem fineRat_fineHalfPi_bounds :
    151 / 100 ≤ (fineRat fineHalfPi : ℝ) ∧ (fineRat fineHalfPi : ℝ) ≤ 8 / 5 := by
  have hnear := near_fineHalfPi
  rw [Near, cast_fineUnit, abs_le] at hnear
  constructor <;> linarith [hnear.1, hnear.2, Real.pi_gt_d2, Real.pi_lt_d2]

end Reckoner.Decimal
