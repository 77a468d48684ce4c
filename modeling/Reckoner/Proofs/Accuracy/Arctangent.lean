import Reckoner.Application
import Reckoner.Proofs.Accuracy.Logarithm
import Reckoner.Proofs.Accuracy.Pi
import Reckoner.Proofs.Accuracy.Root

/-!
The arctangent is not steeper than 1, so that an error of its argument passes through it without
becoming larger, at the reciprocal and at each halving of the angle. For the arcsine the root in the
divisor may be as small as it will: the angle turns by no more than twice the error of the root,
since the sine and the root stay close to the unit circle.
-/
set_option autoImplicit false

namespace Reckoner.Decimal

open Real (arctan arcsin arccos)
open scoped Real

variable {a b n r x z : ℤ} {d : ℝ}

theorem abs_arctan_sub_arctan_le (a b : ℝ) : |arctan a - arctan b| ≤ |a - b| := by
  have hlipschitz : LipschitzWith 1 arctan := by
    refine lipschitzWith_of_nnnorm_deriv_le Real.differentiable_arctan fun y => ?_
    rw [Real.deriv_arctan, ← NNReal.coe_le_coe, coe_nnnorm, Real.norm_eq_abs,
      abs_of_pos (by positivity), NNReal.coe_one, div_le_one (by positivity)]
    linarith [sq_nonneg y]
  simpa [Real.dist_eq] using hlipschitz.dist_le_mul a b

noncomputable def halfTangent (a : ℝ) : ℝ := a / (1 + √(1 + a ^ 2))

theorem two_mul_arctan_halfTangent {a : ℝ} (ha : 0 ≤ a) :
    2 * arctan (halfTangent a) = arctan a := by
  have hsquare : √(1 + a ^ 2) ^ 2 = 1 + a ^ 2 := Real.sq_sqrt (by positivity)
  have hroot : a < √(1 + a ^ 2) := Real.lt_sqrt_of_sq_lt (by linarith)
  have hpos : 0 < 1 + √(1 + a ^ 2) := by linarith
  have hsmall : halfTangent a < 1 := by
    rw [halfTangent, div_lt_one hpos]
    linarith
  have hnonneg : 0 ≤ halfTangent a := div_nonneg ha hpos.le
  have hdivisor : 1 - halfTangent a ^ 2 = 2 / (1 + √(1 + a ^ 2)) := by
    rw [halfTangent, div_pow, eq_div_iff hpos.ne', sub_mul, div_mul_eq_mul_div, sub_eq_iff_eq_add,
      ← sub_eq_iff_eq_add', eq_div_iff (by positivity)]
    linear_combination (1 + √(1 + a ^ 2)) * hsquare
  rw [Real.two_mul_arctan (by linarith) hsmall, hdivisor, halfTangent]
  congr 1
  field_simp

/-- Below a root that is too small the angle is larger by no more than twice the difference. -/
theorem abs_arctan_div_sub_le {s c c' d : ℝ} (hcircle : s ^ 2 + c ^ 2 = 1) (hc' : 0 < c')
    (hle : c' ≤ c) (hd : c - c' ≤ d) (hsmall : d ≤ 1 / 2) :
    |arctan (s / c') - arctan (s / c)| ≤ 2 * d := by
  have hc : 0 < c := hc'.trans_le hle
  have hs1 : |s| ≤ 1 := by
    rw [← sq_le_one_iff_abs_le_one]
    linarith [sq_nonneg c]
  have hc1 : c ≤ 1 := by
    rw [← abs_of_pos hc, ← sq_le_one_iff_abs_le_one]
    linarith [sq_nonneg s]
  have hproduct : 0 ≤ s / c' * (s / c) := by
    rw [div_mul_div_comm]
    exact div_nonneg (mul_self_nonneg s) (by positivity)
  have hdivisor : 1 / 2 ≤ s ^ 2 + c' * c := by
    have hcross : c * (c - c') ≤ 1 * d := mul_le_mul hc1 hd (by linarith) zero_le_one
    linarith
  have hpos : 0 < s ^ 2 + c' * c := by linarith
  have hdifference : arctan (s / c') - arctan (s / c) =
      arctan (s * (c - c') / (s ^ 2 + c' * c)) := by
    have htop : s / c' + -(s / c) = s * (c - c') / (c' * c) := by
      field_simp
      ring
    have hbottom : 1 - s / c' * -(s / c) = (s ^ 2 + c' * c) / (c' * c) := by
      field_simp
      ring
    rw [sub_eq_add_neg, ← Real.arctan_neg, Real.arctan_add (by linarith), htop, hbottom,
      div_div_div_cancel_right₀ (by positivity)]
  have hbound := abs_arctan_sub_arctan_le (s * (c - c') / (s ^ 2 + c' * c)) 0
  rw [Real.arctan_zero, sub_zero, sub_zero] at hbound
  rw [hdifference]
  refine hbound.trans ?_
  rw [abs_div, abs_of_pos hpos, div_le_iff₀ hpos, abs_mul, abs_of_nonneg (sub_nonneg.mpr hle)]
  calc |s| * (c - c') ≤ 1 * d := mul_le_mul hs1 hd (by linarith) zero_le_one
    _ = 2 * d * (1 / 2) := by ring
    _ ≤ 2 * d * (s ^ 2 + c' * c) := mul_le_mul_of_nonneg_left hdivisor (by linarith)

theorem fineRoot_nonneg (n : ℤ) : 0 ≤ fineRoot n := Int.natCast_nonneg _

theorem fineRat_fineRoot_bounds (hn : 0 ≤ n) :
    (fineRat (fineRoot n) : ℝ) ≤ √((n : ℝ) / (fineOne : ℝ) ^ 2) ∧
      √((n : ℝ) / (fineOne : ℝ) ^ 2) ≤ fineRat (fineRoot n) + fineUnit := by
  have hone : (0 : ℝ) < fineOne := by exact_mod_cast fineOne_pos
  obtain ⟨hlow, hhigh⟩ := isqrt_bounds n.toNat
  zify [Int.toNat_of_nonneg hn] at hlow hhigh
  have hnext : (fineRat (fineRoot n) + fineUnit : ℝ) = (fineRoot n + 1) / fineOne := by
    rw [cast_fineRat, fineUnit, add_div]
    push_cast
    rfl
  have hroot : (0 : ℝ) ≤ fineRoot n := by exact_mod_cast fineRoot_nonneg n
  rw [hnext, cast_fineRat]
  constructor
  · refine Real.le_sqrt_of_sq_le ?_
    rw [div_pow]
    exact div_le_div_of_nonneg_right (by exact_mod_cast hlow) (by positivity)
  · rw [Real.sqrt_le_left (by positivity), div_pow]
    exact div_le_div_of_nonneg_right (by exact_mod_cast hhigh.le) (by positivity)

theorem fineRoot_pos (hn : 0 < n) : 0 < fineRoot n := by
  by_contra hzero
  have hroot : isqrt n.toNat = 0 := by
    rw [fineRoot] at hzero
    omega
  have hhigh := (isqrt_bounds n.toNat).2
  rw [hroot] at hhigh
  omega

theorem fineOne_le_fineRoot (hn : fineOne * fineOne ≤ n) : fineOne ≤ fineRoot n := by
  have hpos := fineOne_pos
  have hhigh := (isqrt_bounds n.toNat).2
  zify [Int.toNat_of_nonneg ((mul_pos hpos hpos).le.trans hn)] at hhigh
  have hlt : fineOne ^ 2 < ((isqrt n.toNat : ℤ) + 1) ^ 2 := by
    rw [sq]
    exact hn.trans_lt hhigh
  have := lt_of_pow_lt_pow_left₀ 2 (by positivity) hlt
  rw [fineRoot]
  omega

theorem fineOne_le_root (a : ℤ) : fineOne ≤ fineRoot (fineOne * fineOne + a * a) :=
  fineOne_le_fineRoot (le_add_of_nonneg_right (mul_self_nonneg a))

theorem two_mul_halfAngle_le (ha : 0 ≤ a) : 2 * halfAngle a ≤ a := by
  have hpos := fineOne_pos
  have hroot := fineOne_le_root a
  have hquotient := abs_tdiv_mul_le (a * fineOne)
    (show 0 < fineOne + fineRoot (fineOne * fineOne + a * a) by omega)
  rw [← fineQuotient, ← halfAngle, abs_of_nonneg (halfAngle_bounds ha).1,
    abs_of_nonneg (mul_nonneg ha hpos.le)] at hquotient
  have hdouble : halfAngle a * (2 * fineOne) ≤
      halfAngle a * (fineOne + fineRoot (fineOne * fineOne + a * a)) :=
    mul_le_mul_of_nonneg_left (by omega) (halfAngle_bounds ha).1
  refine le_of_mul_le_mul_right ?_ hpos
  linarith

theorem abs_div_one_add_sub_le {t ρ σ u : ℝ} (ht : 0 ≤ t) (ht1 : t ≤ 1) (hρ : 0 ≤ ρ) (hle : ρ ≤ σ)
    (hσ : σ ≤ ρ + u) : |t / (1 + ρ) - t / (1 + σ)| ≤ u := by
  have hsplit : t / (1 + ρ) - t / (1 + σ) = t * (σ - ρ) / ((1 + ρ) * (1 + σ)) := by
    rw [div_sub_div _ _ (by linarith) (by linarith)]
    congr 1
    ring
  have hnonneg : 0 ≤ t * (σ - ρ) := mul_nonneg ht (by linarith)
  have hdivisor : 1 ≤ (1 + ρ) * (1 + σ) :=
    one_le_mul_of_one_le_of_one_le (by linarith) (by linarith)
  rw [hsplit, abs_of_nonneg (div_nonneg hnonneg (by linarith))]
  calc t * (σ - ρ) / ((1 + ρ) * (1 + σ)) ≤ t * (σ - ρ) := div_le_self hnonneg hdivisor
    _ ≤ 1 * u := mul_le_mul ht1 (by linarith) (by linarith) zero_le_one
    _ = u := one_mul u

theorem near_halfAngle (ha : 0 ≤ a) (ha1 : a ≤ fineOne) :
    Near (halfAngle a) (halfTangent (fineRat a)) 2 := by
  have hpos := fineOne_pos
  have hroot := fineOne_le_root a
  have hn : 0 ≤ fineOne * fineOne + a * a := by positivity
  have hvalue : ((fineOne * fineOne + a * a : ℤ) : ℝ) / (fineOne : ℝ) ^ 2 =
      1 + (fineRat a : ℝ) ^ 2 := by
    have hone : (fineOne : ℝ) ≠ 0 := by exact_mod_cast hpos.ne'
    rw [cast_fineRat]
    push_cast
    field_simp
  obtain ⟨hlow, hhigh⟩ := fineRat_fineRoot_bounds hn
  rw [hvalue] at hlow hhigh
  have hroot0 : (0 : ℝ) ≤ fineRat (fineRoot (fineOne * fineOne + a * a)) := by
    exact_mod_cast fineRat_nonneg (fineRoot_nonneg _)
  have ha0 : (0 : ℝ) ≤ fineRat a := by exact_mod_cast fineRat_nonneg ha
  have hle : (fineRat a : ℝ) ≤ 1 := by exact_mod_cast fineRat_le_one_iff.mpr ha1
  have hquotient := near_of_rat (abs_fineQuotient_sub a
    (show 0 < fineOne + fineRoot (fineOne * fineOne + a * a) by omega))
  rw [fineRat_add, fineRat_fineOne] at hquotient
  push_cast at hquotient
  have hdivisor := abs_div_one_add_sub_le ha0 hle hroot0 hlow hhigh
  exact (hquotient.trans (e := 1) (by rwa [one_mul])).mono (by norm_num)

theorem abs_arctan_halfAngle_sub_le (ha : 0 ≤ a) (ha1 : a ≤ fineOne) :
    |2 * arctan (fineRat (halfAngle a)) - arctan (fineRat a)| ≤ 4 * fineUnit := by
  have hnear := near_halfAngle ha ha1
  have hsteep := abs_arctan_sub_arctan_le (fineRat (halfAngle a)) (halfTangent (fineRat a))
  have hnonneg : (0 : ℝ) ≤ fineRat a := by exact_mod_cast fineRat_nonneg ha
  rw [Near] at hnear
  rw [← two_mul_arctan_halfTangent hnonneg, ← mul_sub, abs_mul, abs_two]
  linarith

theorem vanishes_arctanSeries (z : ℤ) : (arctanSeries z).Vanishes where
  spent _ := rfl
  addend t ht := by simp [arctanSeries, Term.alternating, Term.divided, ht]
  next t ht := by simp [arctanSeries, oddNext, fineProduct, ht]

theorem arctan_term (z : ℤ) (n : ℕ) : (arctanSeries z).term n = (artanhSeries z).term n := rfl

theorem near_arctan_addend (hz : |(fineRat z : ℝ)| ≤ 1 / 3) (n : ℕ) :
    Near ((arctanSeries z).addend ((arctanSeries z).term n))
      ((-1) ^ n * (fineRat z : ℝ) ^ (2 * n + 1) / (2 * n + 1 : ℕ)) (3 / 2) := by
  have hterm := near_artanh_addend hz n
  rw [arctan_term, mul_div_assoc]
  change Near (Term.alternating _) _ _
  change Near (Term.divided _) _ _ at hterm
  rw [Term.alternating, artanh_term_index]
  push_cast
  rcases Nat.even_or_odd n with heven | hodd
  · rw [heven.neg_one_pow, one_mul, if_pos (by obtain ⟨k, rfl⟩ := heven; omega)]
    exact hterm
  · rw [hodd.neg_one_pow, neg_one_mul, if_neg (by obtain ⟨k, rfl⟩ := hodd; omega)]
    exact hterm.neg

theorem near_arctanSeries (hz : |(fineRat z : ℝ)| ≤ 1 / 3) :
    Near (arctanSeries z).sum (arctan (fineRat z)) 118 := by
  have htail := abs_arctan_sum_sub_le (hz.trans (by norm_num)) 78
  have hlast : 2 * (|(fineRat z : ℝ)| ^ (2 * 78 + 1) / (2 * 78 + 1 : ℕ)) ≤ 1 * fineUnit := by
    have hpower : |(fineRat z : ℝ)| ^ (2 * 78 + 1) ≤ (1 / 3) ^ (2 * 78 + 1) :=
      pow_le_pow_left₀ (abs_nonneg _) hz _
    rw [cast_fineUnit]
    calc _ ≤ 2 * ((1 / 3 : ℝ) ^ (2 * 78 + 1) / (2 * 78 + 1 : ℕ)) := by gcongr
      _ ≤ 1 * (1 / 10 ^ 74) := by norm_num
  have hsum := (vanishes_arctanSeries z).near_sum (n := 78) (by decide)
    (artanh_power_eq_zero hz) (fun i _ => near_arctan_addend hz i) (htail.trans hlast)
  exact hsum.mono (by norm_num)

theorem abs_fineRat_quarter_le (ha : 0 ≤ a) (ha1 : a ≤ fineOne) :
    |(fineRat (halfAngle (halfAngle a)) : ℝ)| ≤ 1 / 3 := by
  have hhalf := (halfAngle_bounds ha).1
  have hquarter := (halfAngle_bounds hhalf).1
  have hfour : 4 * halfAngle (halfAngle a) ≤ fineOne := by
    linarith [two_mul_halfAngle_le ha, two_mul_halfAngle_le hhalf]
  have hfine : fineRat (halfAngle (halfAngle a) * 4) ≤ 1 :=
    fineRat_le_one_iff.mpr (by linarith)
  have hreal := (Rat.cast_le (K := ℝ)).mpr hfine
  rw [fineRat_mul_int] at hreal
  push_cast at hreal
  rw [abs_of_nonneg (by exact_mod_cast fineRat_nonneg hquarter)]
  linarith

theorem near_arctanReduced (ha : 0 ≤ a) (ha1 : a ≤ fineOne) :
    Near (arctanReduced a) (arctan (fineRat a)) 484 := by
  have hhalf := (halfAngle_bounds ha).1
  have hhalf1 : halfAngle a ≤ fineOne := (halfAngle_bounds ha).2.trans ha1
  have hseries := (near_arctanSeries (abs_fineRat_quarter_le ha ha1)).mul_int 4
  have hfirst := abs_le.mp (abs_arctan_halfAngle_sub_le ha ha1)
  have hsecond := abs_le.mp (abs_arctan_halfAngle_sub_le hhalf hhalf1)
  refine (hseries.trans (e := 12) ?_).mono (by norm_num)
  rw [Int.cast_ofNat, abs_le]
  constructor <;> linarith [hfirst.1, hfirst.2, hsecond.1, hsecond.2]

theorem near_arctanMagnitude (ha : 0 ≤ a) : Near (arctanMagnitude a) (arctan (fineRat a)) 487 := by
  have hone := fineOne_pos
  unfold arctanMagnitude
  split
  · next hlarge =>
    have hpos : 0 < a := hone.trans hlarge
    have hinverse : Near (fineQuotient fineOne a) ((fineRat a : ℝ)⁻¹) 1 := by
      have hnear := near_of_rat (abs_fineQuotient_sub fineOne hpos)
      rw [fineRat_fineOne, one_div] at hnear
      exact_mod_cast hnear
    obtain ⟨hnonneg, hle⟩ := reciprocal_bounds hlarge
    have hreduced := (near_arctanReduced hnonneg hle).trans
      ((abs_arctan_sub_arctan_le _ _).trans hinverse)
    have hdifference := near_fineHalfPi.sub hreduced
    rw [Real.arctan_inv_of_pos (by exact_mod_cast fineRat_pos hpos), sub_sub_cancel] at hdifference
    exact hdifference.mono (by norm_num)
  · next hsmall => exact (near_arctanReduced ha (not_lt.mp hsmall)).mono (by norm_num)

theorem near_fineArctan (x : ℤ) : Near (fineArctan x) (arctan (fineRat x)) 487 := by
  have hmagnitude := near_arctanMagnitude (Int.natCast_nonneg x.natAbs)
  unfold fineArctan
  split
  · next hneg =>
    rw [Int.ofNat_natAbs_of_nonpos hneg.le] at hmagnitude ⊢
    rw [fineRat_neg, Rat.cast_neg, Real.arctan_neg] at hmagnitude
    simpa using hmagnitude.neg
  · next hnonneg => rwa [Int.natAbs_of_nonneg (not_lt.mp hnonneg)] at hmagnitude ⊢

/-- Inside the range the angle is off by what its tangent is, and by the root under it. -/
theorem near_arcsin_of_lt (hx : |x| < fineOne) :
    Near (fineArctan (fineQuotient x (fineRoot (fineOne * fineOne - x * x))))
      (arcsin (fineRat x)) 490 := by
  have hone : (fineOne : ℝ) ≠ 0 := by exact_mod_cast fineOne_pos.ne'
  have hn : 0 < fineOne * fineOne - x * x := by
    rw [sub_pos, ← abs_mul_abs_self x]
    exact mul_self_lt_mul_self (abs_nonneg x) hx
  have hinside : |(fineRat x : ℝ)| < 1 := by
    have hlt : |fineRat x| < 1 := by
      rw [abs_fineRat, div_lt_one cast_fineOne_pos]
      exact_mod_cast hx
    exact_mod_cast hlt
  have hvalue : ((fineOne * fineOne - x * x : ℤ) : ℝ) / (fineOne : ℝ) ^ 2 =
      1 - (fineRat x : ℝ) ^ 2 := by
    rw [cast_fineRat]
    push_cast
    field_simp
  have hcircle : (fineRat x : ℝ) ^ 2 + √(1 - (fineRat x : ℝ) ^ 2) ^ 2 = 1 := by
    rw [Real.sq_sqrt, add_sub_cancel]
    rw [sub_nonneg, sq_le_one_iff_abs_le_one]
    exact hinside.le
  obtain ⟨hlow, hhigh⟩ := fineRat_fineRoot_bounds hn.le
  rw [hvalue] at hlow hhigh
  have hroot := fineRoot_pos hn
  have hquotient := near_of_rat (abs_fineQuotient_sub x hroot)
  rw [Rat.cast_div] at hquotient
  have hangle := abs_arctan_div_sub_le (d := fineUnit) hcircle
    (by exact_mod_cast fineRat_pos hroot) hlow (by linarith)
    (by rw [cast_fineUnit]; norm_num)
  rw [← Real.arcsin_eq_arctan (abs_lt.mp hinside)] at hangle
  have hsteep := (near_fineArctan _).trans ((abs_arctan_sub_arctan_le _ _).trans hquotient)
  exact (hsteep.trans hangle).mono (by norm_num)

theorem near_fineArcsin? (hx : |x| ≤ fineOne) :
    ∃ a, fineArcsin? x = some a ∧ Near a (arcsin (fineRat x)) 490 := by
  have habs : (x.natAbs : ℤ) = |x| := (Int.abs_eq_natAbs x).symm
  unfold fineArcsin?
  rw [habs, if_neg hx.not_gt]
  split
  · next hend =>
    refine ⟨_, rfl, ?_⟩
    rcases lt_or_ge x 0 with hneg | hnonneg
    · obtain rfl : x = -fineOne := by
        rw [abs_of_neg hneg] at hend
        omega
      rw [if_pos hneg, fineRat_neg, fineRat_fineOne, Rat.cast_neg, Rat.cast_one,
        Real.arcsin_neg_one]
      exact near_fineHalfPi.neg.mono (by norm_num)
    · obtain rfl : x = fineOne := by rwa [abs_of_nonneg hnonneg] at hend
      rw [if_neg hnonneg.not_gt, fineRat_fineOne, Rat.cast_one, Real.arcsin_one]
      exact near_fineHalfPi.mono (by norm_num)
  · next hinside => exact ⟨_, rfl, near_arcsin_of_lt (lt_of_le_of_ne hx hinside)⟩

theorem fineArcsin?_of_lt (hx : fineOne < |x|) : fineArcsin? x = none := by
  rw [fineArcsin?, if_pos (by rwa [← Int.abs_eq_natAbs])]

theorem abs_raise (x : ℤ) : |raise x| = raise |x| := by
  rw [raise, raise, abs_mul, abs_of_pos guardFactor_pos]

theorem atan_accurate (x : ℤ) : |(toRat (atan x) : ℝ) - arctan (toRat x)| ≤ 2 / 10 ^ 64 := by
  have hnear := near_fineArctan (raise x)
  rw [fineRat_raise] at hnear
  exact hnear.abs_toRat_lower_sub_le.trans (by norm_num)

theorem asin_acos_accurate (hx : |x| ≤ one) :
    (∃ r, Unary.asin.onFinite x = .ok (.finite r) ∧
      |(toRat r : ℝ) - arcsin (toRat x)| ≤ 2 / 10 ^ 64) ∧
    ∃ r, Unary.acos.onFinite x = .ok (.finite r) ∧
      |(toRat r : ℝ) - arccos (toRat x)| ≤ 2 / 10 ^ 64 := by
  have hraise : |raise x| ≤ fineOne := by
    rw [abs_raise, ← raise_one]
    exact mul_le_mul_of_nonneg_right hx guardFactor_pos.le
  obtain ⟨a, ha, hnear⟩ := near_fineArcsin? hraise
  rw [fineRat_raise] at hnear
  have hcomplement := near_fineHalfPi.sub hnear
  refine ⟨⟨lower a, ?_, hnear.abs_toRat_lower_sub_le.trans (by norm_num)⟩,
    lower (fineHalfPi - a), ?_, hcomplement.abs_toRat_lower_sub_le.trans (by norm_num)⟩
  · rw [Unary.onFinite, asin?, ha]
    rfl
  · rw [Unary.onFinite, acos?, ha]
    rfl

theorem asin_acos_of_lt (hx : one < |x|) : Unary.asin.onFinite x = .error .notReal ∧
    Unary.acos.onFinite x = .error .notReal := by
  have hraise : fineOne < |raise x| := by
    rw [abs_raise, ← raise_one]
    exact mul_lt_mul_of_pos_right hx guardFactor_pos
  rw [Unary.onFinite, Unary.onFinite, asin?, acos?, fineArcsin?_of_lt hraise]
  exact ⟨rfl, rfl⟩

/-- The arctangent of every decimal, and the arcsine and the arccosine of every one up to 1 in
magnitude, are right to two units of the last place; beyond that the latter two do not exist. -/
theorem inverse_trigonometry_accurate :
    (∀ x : ℤ, |(toRat (atan x) : ℝ) - arctan (toRat x)| ≤ 2 / 10 ^ 64) ∧
    (∀ x : ℤ, |x| ≤ one →
      (∃ r, Unary.asin.onFinite x = .ok (.finite r) ∧
        |(toRat r : ℝ) - arcsin (toRat x)| ≤ 2 / 10 ^ 64) ∧
      ∃ r, Unary.acos.onFinite x = .ok (.finite r) ∧
        |(toRat r : ℝ) - arccos (toRat x)| ≤ 2 / 10 ^ 64) ∧
    ∀ x : ℤ, one < |x| →
      Unary.asin.onFinite x = .error .notReal ∧ Unary.acos.onFinite x = .error .notReal :=
  ⟨atan_accurate, fun _ => asin_acos_accurate, fun _ => asin_acos_of_lt⟩

theorem inverse_trigonometry_accurate_edges :
    (|one - 1| ≤ one ∧
      (∃ r, Unary.asin.onFinite (one - 1) = .ok (.finite r) ∧
        |(toRat r : ℝ) - arcsin (toRat (one - 1))| ≤ 2 / 10 ^ 64) ∧
      ∃ r, Unary.acos.onFinite (one - 1) = .ok (.finite r) ∧
        |(toRat r : ℝ) - arccos (toRat (one - 1))| ≤ 2 / 10 ^ 64) ∧
    one < |-one - 1| ∧ Unary.asin.onFinite (-one - 1) = .error .notReal ∧
      Unary.acos.onFinite (-one - 1) = .error .notReal := by
  obtain ⟨-, hinside, houtside⟩ := inverse_trigonometry_accurate
  have hlast : |one - 1| ≤ one := by decide
  have hfirst : one < |-one - 1| := by decide
  exact ⟨⟨hlast, hinside _ hlast⟩, hfirst, houtside _ hfirst⟩

end Reckoner.Decimal
