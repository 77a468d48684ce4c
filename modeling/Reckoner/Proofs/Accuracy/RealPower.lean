import Reckoner.Proofs.Accuracy.Exponential

set_option autoImplicit false

namespace Reckoner.Decimal

open Real (log logb)

variable {e x y : ℤ}

theorem abs_log_sub_exponent_le (hx : 0 < x) :
    |log (fineRat x) - log 2 * binaryExponent x| ≤ log 2 + 2 * fineUnit := by
  obtain ⟨hhalf, htwo⟩ := fineRat_mantissa_bounds hx
  have hhigh : log (fineRat (binaryMantissa x)) ≤ log 2 := Real.log_le_log (by linarith) htwo
  have hlow : -log 2 ≤ log (fineRat (binaryMantissa x)) := by
    rw [← Real.log_inv]
    exact Real.log_le_log (by norm_num) (by linarith)
  obtain ⟨hbelow, habove⟩ := abs_le.mp (abs_log_mantissa_sub_le hx)
  rw [abs_le]
  constructor <;> linarith

theorem abs_binaryExponent_le_logb (hx : 0 < x) :
    |(binaryExponent x : ℝ)| ≤ 51 / 50 + |logb 2 (fineRat x)| := by
  have hlog := Real.log_two_gt_d9
  have hpos : 0 < log 2 := Real.log_pos one_lt_two
  have hsplit : logb 2 (fineRat x) - binaryExponent x =
      (log (fineRat x) - log 2 * binaryExponent x) / log 2 := by
    rw [logb, sub_div, mul_div_cancel_left₀ _ hpos.ne']
  have hdistance : |logb 2 (fineRat x) - binaryExponent x| ≤ 51 / 50 := by
    have hle := abs_log_sub_exponent_le hx
    rw [cast_fineUnit] at hle
    rw [hsplit, abs_div, abs_of_pos hpos, div_le_iff₀ hpos]
    linarith
  rw [abs_sub_comm] at hdistance
  linarith [abs_sub_abs_le_abs_sub (binaryExponent x : ℝ) (logb 2 (fineRat x))]

theorem near_fineLn_logb (hx : 0 < x) :
    Near (fineLn (raise x)) (log (toRat x)) (500 * (1 + |logb 2 (toRat x)|)) := by
  have hpos : 0 < raise x := mul_pos hx guardFactor_pos
  have hnear := near_fineLn hpos
  have hexponent := abs_binaryExponent_le_logb hpos
  rw [fineRat_raise] at hnear hexponent
  exact hnear.mono (by linarith [abs_nonneg (logb 2 (toRat x : ℝ))])

/-- The magnitude of the exponent, times that of the binary logarithm of the base and one more: by
so much the power enlarges the error of a unit. -/
noncomputable def stretch (x y : ℤ) : ℝ := |(toRat y : ℝ)| * (1 + |logb 2 (toRat x)|)

theorem stretch_nonneg (x y : ℤ) : 0 ≤ stretch x y := by
  unfold stretch
  positivity

theorem near_exponent (hx : 0 < x) (y : ℤ) :
    Near (fineProduct (raise y) (fineLn (raise x))) (toRat y * log (toRat x))
      (1 + 500 * stretch x y) := by
  have hproduct := (near_self (raise y)).product (near_fineLn_logb hx)
  rw [fineRat_raise] at hproduct
  refine hproduct.mono (le_of_eq ?_)
  rw [stretch]
  ring

theorem abs_exp_sub_rpow_le {z a p d : ℝ} (hz : 0 < z) (h : |p - a * log z| ≤ d) (hd : d ≤ 1) :
    |Real.exp p - z ^ a| ≤ (1 + d) * d * z ^ a := by
  have hsplit : Real.exp p = z ^ a * Real.exp (p - a * log z) := by
    rw [Real.rpow_def_of_pos hz, ← Real.exp_add, mul_comm (log z), add_sub_cancel]
  have hnonneg : 0 ≤ d := (abs_nonneg _).trans h
  have hpower := Real.rpow_pos_of_pos hz a
  rw [hsplit, ← mul_sub_one, abs_mul, abs_of_pos hpower, mul_comm]
  refine mul_le_mul_of_nonneg_right ?_ hpower.le
  exact (abs_exp_sub_one_le h hd).trans (mul_le_mul_of_nonneg_left h (by linarith))

theorem abs_exp_exponent_sub_le (hx : 0 < x) (hstretch : stretch x y ≤ 10 ^ 70) :
    |Real.exp (fineRat (fineProduct (raise y) (fineLn (raise x)))) -
        (toRat x : ℝ) ^ (toRat y : ℝ)| ≤
      (1 / 10 ^ 73 + 6 / 10 ^ 72 * stretch x y) * (toRat x : ℝ) ^ (toRat y : ℝ) := by
  have hbase : (0 : ℝ) < toRat x := by
    rw [← fineRat_raise]
    exact_mod_cast fineRat_pos (mul_pos hx guardFactor_pos)
  have hnonneg := stretch_nonneg x y
  have hnear := near_exponent hx y
  rw [Near, cast_fineUnit] at hnear
  refine (abs_exp_sub_rpow_le hbase hnear (by linarith)).trans
    (mul_le_mul_of_nonneg_right ?_ (Real.rpow_nonneg hbase.le _))
  have hsmall : 1 + (1 + 500 * stretch x y) * (1 / 10 ^ 74) ≤ 106 / 100 := by linarith
  refine (mul_le_mul_of_nonneg_right hsmall (by positivity)).trans ?_
  linarith

section Power

variable (hx : 0 < x) (hstretch : stretch x y ≤ 10 ^ 70)

include hx hstretch

theorem exp_exponent_le :
    Real.exp (fineRat (fineProduct (raise y) (fineLn (raise x)))) ≤
      107 / 100 * (toRat x : ℝ) ^ (toRat y : ℝ) := by
  have hnear := (abs_le.mp (abs_exp_exponent_sub_le hx hstretch)).2
  have hpower : (0 : ℝ) ≤ (toRat x : ℝ) ^ (toRat y : ℝ) :=
    Real.rpow_nonneg (by exact_mod_cast toRat_nonneg_iff.mpr hx.le) _
  have hshare : 1 / 10 ^ 73 + 6 / 10 ^ 72 * stretch x y ≤ 7 / 100 := by linarith
  linarith [mul_le_mul_of_nonneg_right hshare hpower]

theorem abs_fineExp_exponent_sub_le
    (he : fineExp (fineProduct (raise y) (fineLn (raise x))) = some e) :
    |(fineRat e : ℝ) - (toRat x : ℝ) ^ (toRat y : ℝ)| ≤
      fineUnit + (toRat x : ℝ) ^ (toRat y : ℝ) * (1 / 10 ^ 67 + stretch x y / 10 ^ 71) := by
  have hexponent := abs_exp_exponent_sub_le hx hstretch
  have hle := exp_exponent_le hx hstretch
  have hpower : (0 : ℝ) ≤ (toRat x : ℝ) ^ (toRat y : ℝ) :=
    Real.rpow_nonneg (by exact_mod_cast toRat_nonneg_iff.mpr hx.le) _
  have hshare := mul_nonneg hpower (stretch_nonneg x y)
  refine ((abs_sub_le _ _ _).trans (add_le_add (fineExp_accurate he).2 hexponent)).trans ?_
  linarith

end Power

theorem realPower_of_pos (hx : 0 < x) (y : ℤ) : realPower x y =
    (fineExp (fineProduct (raise y) (fineLn (raise x)))).elim .posInf
      fun e => Number.saturate (lower e) := by
  rw [realPower, if_neg hx.ne']
  cases fineExp (fineProduct (raise y) (fineLn (raise x))) <;> rfl

/-- A positive decimal to any power within reach of the guard digits is right to two units of the
last place and to the share that the exponent stretches, and infinite only where the true power is
beyond the range or within its last two binary digits. -/
theorem realPower_accurate (hx : 0 < x) (hstretch : stretch x y ≤ 10 ^ 70) :
    (∃ r, realPower x y = .finite r ∧ |(toRat r : ℝ) - (toRat x : ℝ) ^ (toRat y : ℝ)| ≤
      2 / 10 ^ 64 + (toRat x : ℝ) ^ (toRat y : ℝ) * (1 / 10 ^ 67 + stretch x y / 10 ^ 71)) ∨
    (realPower x y = .posInf ∧
      2 ^ 33430 ≤ (toRat x : ℝ) ^ (toRat y : ℝ) * 10 ^ 64) := by
  have hbeyond (h : 2 ^ 33431 ≤
      Real.exp (fineRat (fineProduct (raise y) (fineLn (raise x)))) * 10 ^ 64) :
      2 ^ 33430 ≤ (toRat x : ℝ) ^ (toRat y : ℝ) * 10 ^ 64 := by
    have hle := exp_exponent_le hx hstretch
    have hend : (1 : ℝ) ≤ 2 ^ 33430 := one_le_pow₀ one_le_two
    rw [pow_succ] at h
    generalize (2 : ℝ) ^ 33430 = bound at h hend ⊢
    linarith
  rw [realPower_of_pos hx]
  rcases hfine : fineExp (fineProduct (raise y) (fineLn (raise x))) with _ | e
  · exact .inr ⟨rfl, hbeyond (beyond_of_fineExp_none hfine)⟩
  · rcases saturate_lower (fineExp_accurate hfine).1 with hfinite | ⟨hinfinite, hlarge⟩
    · have hnear := abs_fineExp_exponent_sub_le hx hstretch hfine
      rw [cast_fineUnit] at hnear
      exact .inl ⟨_, hfinite, (abs_toRat_lower_sub_le hnear).trans (by linarith)⟩
    · exact .inr ⟨hinfinite, hbeyond (beyond_of_fineExp_some hfine hlarge)⟩

theorem pow_of_not_whole (x : ℤ) (hy : isWhole y = false) :
    Decimal.pow x y = if x < 0 then .error .notReal else .ok (realPower x y) := by
  rw [Decimal.pow, if_neg (by simp [hy])]

/-- A power whose exponent is not whole: that of a positive decimal is right to two units of the
last place and to the share that the exponent stretches, as long as the guard digits hold it, or
infinite where the true one is at the end of the range or beyond; a negative decimal has none. -/
theorem pow_real_accurate (hy : isWhole y = false) :
    (∀ x : ℤ, 0 < x → stretch x y ≤ 10 ^ 70 →
      (∃ r, Decimal.pow x y = .ok (.finite r) ∧ |(toRat r : ℝ) - (toRat x : ℝ) ^ (toRat y : ℝ)| ≤
        2 / 10 ^ 64 + (toRat x : ℝ) ^ (toRat y : ℝ) * (1 / 10 ^ 67 + stretch x y / 10 ^ 71)) ∨
      (Decimal.pow x y = .ok .posInf ∧
        2 ^ 33430 ≤ (toRat x : ℝ) ^ (toRat y : ℝ) * 10 ^ 64)) ∧
    ∀ x : ℤ, x < 0 → Decimal.pow x y = .error .notReal := by
  refine ⟨fun x hx hstretch => ?_, fun x hx => by rw [pow_of_not_whole x hy, if_pos hx]⟩
  rw [pow_of_not_whole x hy, if_neg hx.not_gt]
  rcases realPower_accurate hx hstretch with ⟨r, hr, hnear⟩ | ⟨hinfinite, hlarge⟩
  · exact .inl ⟨r, congrArg Except.ok hr, hnear⟩
  · exact .inr ⟨congrArg Except.ok hinfinite, hlarge⟩

theorem stretch_two_half : stretch (ofInt 2) (one.tdiv 2) = 1 := by
  have hhalf : toRat (one.tdiv 2) = 1 / 2 := by
    rw [toRat, div_eq_div_iff one_ne_zero two_ne_zero]
    norm_cast
  have hbase : toRat (ofInt 2) = 2 := toRat_ofInt 2
  rw [stretch, hhalf, hbase]
  norm_num

theorem pow_real_accurate_halves :
    isWhole (one.tdiv 2) = false ∧
    (0 < ofInt 2 ∧ stretch (ofInt 2) (one.tdiv 2) ≤ 10 ^ 70 ∧
      ∃ r, Decimal.pow (ofInt 2) (one.tdiv 2) = .ok (.finite r) ∧
        |(toRat r : ℝ) - (toRat (ofInt 2) : ℝ) ^ (toRat (one.tdiv 2) : ℝ)| ≤
          2 / 10 ^ 64 + (toRat (ofInt 2) : ℝ) ^ (toRat (one.tdiv 2) : ℝ) *
            (1 / 10 ^ 67 + stretch (ofInt 2) (one.tdiv 2) / 10 ^ 71)) ∧
    ofInt (-2) < 0 ∧ Decimal.pow (ofInt (-2)) (one.tdiv 2) = .error .notReal := by
  have hhalf : isWhole (one.tdiv 2) = false := by decide
  have hbase : 0 < ofInt 2 := by decide
  have hstretch : stretch (ofInt 2) (one.tdiv 2) ≤ 10 ^ 70 := by
    rw [stretch_two_half]
    norm_num
  have hfinite : Decimal.pow (ofInt 2) (one.tdiv 2) ≠ .ok .posInf := by decide +kernel
  have hnegative : ofInt (-2) < 0 := by decide
  obtain ⟨haccurate, hnone⟩ := pow_real_accurate hhalf
  refine ⟨hhalf, ⟨hbase, hstretch, ?_⟩, hnegative, hnone _ hnegative⟩
  exact (haccurate _ hbase hstretch).resolve_right fun h => hfinite h.1

end Reckoner.Decimal
