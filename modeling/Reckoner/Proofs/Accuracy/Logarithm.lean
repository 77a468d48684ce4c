import Reckoner.Proofs.Accuracy.Series

set_option autoImplicit false

namespace Reckoner.Decimal

open Real

variable {x z : ℤ}

theorem abs_artanh_sub_le {a b : ℝ} (ha : |a| ≤ 1 / 3) (hb : |b| ≤ 1 / 3) :
    |artanh a - artanh b| ≤ 9 / 8 * |a - b| := by
  let f (y : ℝ) : ℝ := 1 / 2 * log ((1 + y) / (1 - y))
  have hartanh (y : ℝ) (hy : |y| ≤ 1 / 3) : artanh y = f y :=
    artanh_eq_half_log (abs_le.mp (hy.trans (by norm_num)))
  have hderiv (y : ℝ) (hy : y ∈ Set.Icc (-(1 / 3) : ℝ) (1 / 3)) :
      HasDerivWithinAt f (1 / (1 - y ^ 2)) (Set.Icc (-(1 / 3)) (1 / 3)) y := by
    have h := hasDerivAt_half_log_one_add_div_one_sub_sub_sum_range 0
      (by linarith [hy.1] : -1 < y) (by linarith [hy.2])
    simpa [f] using h.hasDerivWithinAt
  have hbound (y : ℝ) (hy : y ∈ Set.Icc (-(1 / 3) : ℝ) (1 / 3)) : ‖1 / (1 - y ^ 2)‖ ≤ 9 / 8 := by
    have hsquare : y ^ 2 ≤ (1 / 3) ^ 2 := sq_le_sq' hy.1 hy.2
    have hpos : 0 < 1 - y ^ 2 := by linarith
    rw [norm_eq_abs, abs_of_pos (one_div_pos.mpr hpos), div_le_iff₀ hpos]
    linarith
  rw [hartanh a ha, hartanh b hb]
  exact (convex_Icc _ _).norm_image_sub_le_of_norm_hasDerivWithin_le hderiv hbound
    (abs_le.mp hb) (abs_le.mp ha)

theorem two_mul_artanh {y : ℝ} (hy : 0 < y) : 2 * artanh ((y - 1) / (y + 1)) = log y := by
  have hsum : 0 < y + 1 := by linarith
  have hrange : (y - 1) / (y + 1) ∈ Set.Icc (-1 : ℝ) 1 := by
    rw [Set.mem_Icc, le_div_iff₀ hsum, div_le_iff₀ hsum]
    constructor <;> linarith
  have hratio : (1 + (y - 1) / (y + 1)) / (1 - (y - 1) / (y + 1)) = y := by
    field_simp
    ring
  rw [artanh_eq_half_log hrange, hratio]
  ring

theorem abs_variable_le {y : ℝ} (hlow : 1 / 2 ≤ y) (hhigh : y ≤ 2) :
    |(y - 1) / (y + 1)| ≤ 1 / 3 := by
  have hsum : 0 < y + 1 := by linarith
  rw [abs_le, le_div_iff₀ hsum, div_le_iff₀ hsum]
  constructor <;> linarith

theorem artanh_term_index (z : ℤ) (n : ℕ) : ((artanhSeries z).term n).index = 2 * n + 1 := by
  induction n with
  | zero => rfl
  | succ n ih =>
    rw [Series.term_succ]
    change ((artanhSeries z).term n).index + 2 = _
    omega

theorem artanh_term_power (z : ℤ) (n : ℕ) : ((artanhSeries z).term (n + 1)).power =
    fineProduct ((artanhSeries z).term n).power (fineProduct z z) := by
  rw [Series.term_succ]
  rfl

section Terms

variable (hz : |(fineRat z : ℝ)| ≤ 1 / 3)

include hz

theorem abs_fineProduct_self_le_ninth : |(fineRat (fineProduct z z) : ℝ)| ≤ 1 / 9 := by
  have hproduct : |(fineRat (fineProduct z z) : ℝ)| ≤ |(fineRat z : ℝ)| * |(fineRat z : ℝ)| := by
    exact_mod_cast abs_fineProduct_le_mul z z
  have hsquare := mul_self_le_mul_self (abs_nonneg _) hz
  linarith

theorem abs_artanh_power_le (n : ℕ) :
    |(fineRat ((artanhSeries z).term n).power : ℝ)| ≤ 1 / 3 * (1 / 9) ^ n := by
  induction n with
  | zero =>
    rw [pow_zero, mul_one]
    exact hz
  | succ n ih =>
    have hproduct : |(fineRat ((artanhSeries z).term (n + 1)).power : ℝ)| ≤
        |(fineRat ((artanhSeries z).term n).power : ℝ)| *
          |(fineRat (fineProduct z z) : ℝ)| := by
      rw [artanh_term_power]
      exact_mod_cast abs_fineProduct_le_mul _ _
    rw [pow_succ, ← mul_assoc]
    exact hproduct.trans
      (mul_le_mul ih (abs_fineProduct_self_le_ninth hz) (abs_nonneg _) (by positivity))

theorem artanh_power_eq_zero : ((artanhSeries z).term 78).power = 0 := by
  refine eq_zero_of_abs_lt ((abs_artanh_power_le hz 78).trans_lt ?_)
  rw [cast_fineUnit]
  norm_num

/-- The error grows no faster than the index that divides it. -/
theorem near_artanh_power (n : ℕ) :
    Near ((artanhSeries z).term n).power ((fineRat z : ℝ) ^ (2 * n + 1)) ((2 * n + 1) / 2) := by
  induction n with
  | zero =>
    rw [mul_zero, zero_add, pow_one]
    exact (near_self z).mono (by norm_num)
  | succ n ih =>
    have hsquare := (near_self z).product (near_self z)
    have hratio := abs_fineProduct_self_le_ninth hz
    have hpower : |(fineRat z : ℝ) ^ (2 * n + 1)| ≤ 1 / 3 := by
      rw [abs_pow]
      exact (pow_le_of_le_one (abs_nonneg _) (hz.trans (by norm_num)) (by omega)).trans hz
    rw [artanh_term_power, show 2 * (n + 1) + 1 = 2 * n + 1 + 2 by ring, pow_add, sq]
    refine (ih.product hsquare).mono ?_
    have hfirst : (2 * (n : ℝ) + 1) / 2 * |(fineRat (fineProduct z z) : ℝ)| ≤
        (2 * n + 1) / 2 * (1 / 9) := mul_le_mul_of_nonneg_left hratio (by positivity)
    have hn : (0 : ℝ) ≤ n := Nat.cast_nonneg n
    push_cast
    linarith

theorem near_artanh_addend (n : ℕ) :
    Near ((artanhSeries z).addend ((artanhSeries z).term n))
      ((fineRat z : ℝ) ^ (2 * n + 1) / (2 * n + 1)) (3 / 2) := by
  have hdivided := (near_artanh_power hz n).divided (k := (2 * n + 1 : ℕ)) (by positivity)
  change Near (Term.divided _) _ _
  rw [Term.divided, artanh_term_index]
  push_cast at hdivided ⊢
  refine hdivided.mono (le_of_eq ?_)
  field_simp
  norm_num

theorem near_artanhSeries : Near (artanhSeries z).sum (artanh (fineRat z)) 118 := by
  have hsmall : |(fineRat z : ℝ)| < 1 := hz.trans_lt (by norm_num)
  -- The power behind 78 terms is below one unit, and so is the tail.
  have htail := sum_range_sub_log_div_le hsmall 78
  rw [← artanh_eq_half_log (abs_le.mp hsmall.le), abs_sub_comm] at htail
  have hrest : |(fineRat z : ℝ)| ^ (2 * 78 + 1) / (1 - (fineRat z : ℝ) ^ 2) ≤ 1 * fineUnit := by
    have hsquare : (fineRat z : ℝ) ^ 2 ≤ (1 / 3) ^ 2 := sq_le_sq' (abs_le.mp hz).1 (abs_le.mp hz).2
    calc |(fineRat z : ℝ)| ^ (2 * 78 + 1) / (1 - (fineRat z : ℝ) ^ 2)
        ≤ (1 / 3) ^ (2 * 78 + 1) / (1 / 2) :=
          div_le_div₀ (by positivity) (pow_le_pow_left₀ (abs_nonneg _) hz _) (by norm_num)
            (by linarith)
      _ ≤ 1 * fineUnit := by
          rw [cast_fineUnit]
          norm_num
  have hsum := (vanishes_artanhSeries z).near_sum (n := 78) (by decide) (artanh_power_eq_zero hz)
    (fun i _ => near_artanh_addend hz i) (htail.trans hrest)
  exact hsum.mono (by norm_num)

end Terms

theorem near_artanhSeries_log {y : ℝ} (hlow : 1 / 2 ≤ y) (hhigh : y ≤ 2)
    (hz : Near z ((y - 1) / (y + 1)) 1) (hle : |(fineRat z : ℝ)| ≤ 1 / 3) :
    Near ((artanhSeries z).sum * 2) (log y) 239 := by
  have hvariable : |artanh (fineRat z) - artanh ((y - 1) / (y + 1))| ≤ 9 / 8 * fineUnit := by
    refine (abs_artanh_sub_le hle (abs_variable_le hlow hhigh)).trans ?_
    rw [Near, one_mul] at hz
    exact mul_le_mul_of_nonneg_left hz (by norm_num)
  have hdouble := ((near_artanhSeries hle).trans hvariable).mul_int 2
  rw [Int.cast_ofNat, mul_comm (artanh _), two_mul_artanh (by linarith)] at hdouble
  exact hdouble.mono (by norm_num)

theorem abs_fineRat_third_le : |(fineRat (fineOne.tdiv 3) : ℝ)| ≤ 1 / 3 := by
  have hle : |(fineRat (fineOne.tdiv 3) : ℝ)| ≤ ((|fineRat fineOne| / (3 : ℤ) : ℚ) : ℝ) := by
    exact_mod_cast abs_fineRat_tdiv_le fineOne (b := 3) (by norm_num)
  rw [fineRat_fineOne] at hle
  exact hle.trans (by norm_num)

theorem near_fineLn2 : Near fineLn2 (log 2) 239 := by
  have hthird : Near (fineOne.tdiv 3) ((fineRat fineOne / (3 : ℤ) : ℚ) : ℝ) 1 :=
    near_of_rat (abs_fineRat_tdiv_sub fineOne (by norm_num))
  rw [fineRat_fineOne] at hthird
  refine near_artanhSeries_log (by norm_num) le_rfl ?_ abs_fineRat_third_le
  convert hthird using 1
  norm_num

theorem fineRat_mantissa_bounds (hx : 0 < x) :
    1 ≤ (fineRat (binaryMantissa x) : ℝ) * 2 ∧ (fineRat (binaryMantissa x) : ℝ) ≤ 2 := by
  obtain ⟨hlow, hhigh⟩ := binaryMantissa_bounds hx
  have hleast : fineOne ≤ 2 ^ 245 * 2 := by decide
  have hmost : 2 ^ 246 ≤ fineOne * 2 := by decide
  have hhalf : 1 ≤ fineRat (binaryMantissa x * 2) := one_le_fineRat_iff.mpr (by linarith)
  have htwo : fineRat (binaryMantissa x) ≤ fineRat (fineOne * 2) :=
    fineRat_le_fineRat.mpr (by linarith)
  rw [fineRat_mul_int] at hhalf htwo
  rw [fineRat_fineOne, one_mul] at htwo
  exact ⟨by exact_mod_cast hhalf, by exact_mod_cast htwo⟩

theorem binaryMantissa_eq_floor (x : ℤ) :
    binaryMantissa x = ⌊(x : ℚ) * 2 ^ (-binaryExponent x)⌋ := by
  rcases lt_or_ge (binaryExponent x) 0 with hk | hk
  · obtain ⟨n, hn⟩ := Int.eq_ofNat_of_zero_le (neg_nonneg.mpr hk.le)
    rw [binaryMantissa, if_neg hk.not_ge, hn, floor_mul_two_pow, Int.toNat_natCast]
  · obtain ⟨n, hn⟩ := Int.eq_ofNat_of_zero_le hk
    rw [binaryMantissa, if_pos hk, hn, floor_div_two_pow, Int.toNat_natCast]

theorem abs_log_sub_le {m q u : ℝ} (hm : 1 ≤ m * 2) (hlow : m ≤ q) (hhigh : q ≤ m + u) :
    |log m - log q| ≤ 2 * u := by
  have hmpos : 0 < m := by linarith
  have hratio : 1 ≤ q / m := (one_le_div hmpos).mpr hlow
  rw [abs_sub_comm, ← log_div (by linarith) hmpos.ne', abs_of_nonneg (log_nonneg hratio)]
  calc log (q / m) ≤ q / m - 1 := log_le_sub_one_of_pos (by linarith)
    _ = (q - m) / m := by rw [sub_div, div_self hmpos.ne']
    _ ≤ (q - m) * 2 := by
        rw [div_le_iff₀ hmpos, mul_assoc, mul_comm 2]
        exact le_mul_of_one_le_right (by linarith) hm
    _ ≤ 2 * u := by linarith

theorem abs_log_mantissa_sub_le (hx : 0 < x) :
    |log (fineRat (binaryMantissa x)) - (log (fineRat x) - log 2 * binaryExponent x)| ≤
      2 * fineUnit := by
  obtain ⟨hlow, hhigh⟩ := fineRat_floor_bounds x (-binaryExponent x)
  rw [← binaryMantissa_eq_floor] at hlow hhigh
  have hxpos : (0 : ℝ) < fineRat x := by exact_mod_cast fineRat_pos hx
  have hquotient : log (fineRat x) - log 2 * binaryExponent x =
      log ((fineRat x * 2 ^ (-binaryExponent x) : ℚ) : ℝ) := by
    push_cast
    rw [log_mul hxpos.ne' (by positivity), log_zpow]
    push_cast
    ring
  rw [hquotient]
  exact abs_log_sub_le (fineRat_mantissa_bounds hx).1 (Rat.cast_le.mpr hlow)
    (by exact_mod_cast hhigh)

theorem mantissa_add_fineOne_pos (hx : 0 < x) : 0 < binaryMantissa x + fineOne :=
  add_pos_of_nonneg_of_pos (binaryMantissa_nonneg hx.le) fineOne_pos

theorem abs_fineRat_variable_le (hx : 0 < x) : |(fineRat (fineQuotient
    (binaryMantissa x - fineOne) (binaryMantissa x + fineOne)) : ℝ)| ≤ 1 / 3 := by
  obtain ⟨hhalf, htwo⟩ := fineRat_mantissa_bounds hx
  have hle : |(fineRat (fineQuotient (binaryMantissa x - fineOne)
      (binaryMantissa x + fineOne)) : ℝ)| ≤ ((|fineRat (binaryMantissa x - fineOne) /
        fineRat (binaryMantissa x + fineOne)| : ℚ) : ℝ) := by
    exact_mod_cast abs_fineQuotient_le (binaryMantissa x - fineOne) (mantissa_add_fineOne_pos hx)
  rw [fineRat_sub, fineRat_add, fineRat_fineOne] at hle
  push_cast at hle
  exact hle.trans (abs_variable_le (by linarith) htwo)

theorem near_fineLn_mantissa (hx : 0 < x) :
    Near ((artanhSeries (fineQuotient (binaryMantissa x - fineOne)
      (binaryMantissa x + fineOne))).sum * 2) (log (fineRat (binaryMantissa x))) 239 := by
  obtain ⟨hhalf, htwo⟩ := fineRat_mantissa_bounds hx
  have hvariable := near_of_rat (abs_fineQuotient_sub (binaryMantissa x - fineOne)
    (mantissa_add_fineOne_pos hx))
  rw [fineRat_sub, fineRat_add, fineRat_fineOne] at hvariable
  push_cast at hvariable
  exact near_artanhSeries_log (by linarith) htwo hvariable (abs_fineRat_variable_le hx)

/-- Each binary digit that is taken out brings the error of one ln 2. -/
theorem near_fineLn (hx : 0 < x) :
    Near (fineLn x) (log (fineRat x)) (241 + 239 * |(binaryExponent x : ℝ)|) := by
  have hmantissa := (near_fineLn_mantissa hx).trans (abs_log_mantissa_sub_le hx)
  have hsum := hmantissa.add (near_fineLn2.mul_int (binaryExponent x))
  rw [sub_add_cancel] at hsum
  refine hsum.mono (le_of_eq ?_)
  push_cast
  ring

theorem near_fineLn_raise (hx : 0 < x) (hrange : InRange x) :
    Near (fineLn (raise x)) (log (toRat x)) (10 ^ 7) := by
  have hbits : bitLength x ≤ bitLimit := bitLength_le_iff.mpr hrange
  have hexponent : |(binaryExponent (raise x) : ℝ)| ≤ 40000 := by
    exact_mod_cast abs_binaryExponent_le (bitLength_raise_le (hbits.trans (Nat.le_succ _)))
  have hpos : 0 < raise x := mul_pos hx guardFactor_pos
  have hnear := near_fineLn hpos
  rw [fineRat_raise] at hnear
  exact hnear.mono (by linarith)

/-- Every positive decimal of the range has a finite logarithm, right to two units of the last place
and never on the wrong side of zero. -/
theorem ln_accurate (hx : 0 < x) (hrange : InRange x) : ∃ r, ln x = .ok (.finite r) ∧
    |(toRat r : ℝ) - log (toRat x)| ≤ 2 / 10 ^ 64 ∧
      (one ≤ x → 0 ≤ r) ∧ (x ≤ one → r ≤ 0) := by
  have hln : ln x = .ok (.finite (lower (fineLn (raise x)))) := by
    rw [ln, checkedLn, if_neg hx.not_gt, if_neg hx.ne']
    rfl
  have hnear := near_fineLn_raise hx hrange
  have hguard : (10 : ℝ) ^ 7 * fineUnit ≤ 1 / 10 ^ 64 := by
    rw [cast_fineUnit]
    norm_num
  have hdigits : (10 : ℝ) ^ 7 < 10 ^ 10 := by norm_num
  refine ⟨_, hln, ?_, fun hge => hnear.lower_nonneg hdigits (log_nonneg ?_),
    fun hle => hnear.lower_nonpos hdigits (log_nonpos ?_ ?_)⟩
  · exact (abs_toRat_lower_sub_le (le_trans hnear hguard)).trans (by norm_num)
  · exact_mod_cast toRat_one ▸ toRat_le_toRat.mpr hge
  · exact_mod_cast toRat_nonneg_iff.mpr hx.le
  · exact_mod_cast toRat_one ▸ toRat_le_toRat.mpr hle

theorem ln_accurate_tenth : (0 < 10 ^ 63 ∧ InRange (10 ^ 63)) ∧
    ∃ r, ln (10 ^ 63) = .ok (.finite r) ∧
      |(toRat r : ℝ) - log (toRat (10 ^ 63))| ≤ 2 / 10 ^ 64 ∧
        (one ≤ 10 ^ 63 → 0 ≤ r) ∧ (10 ^ 63 ≤ one → r ≤ 0) :=
  have hrange : InRange (10 ^ 63) := inRange_of_abs_le (k := 210) (by decide) (by decide)
  ⟨⟨by norm_num, hrange⟩, ln_accurate (by norm_num) hrange⟩

end Reckoner.Decimal
