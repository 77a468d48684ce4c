import Reckoner.Proofs.Accuracy.Logarithm

/-!
A term is off by no more than four units, and the series ends before the 56th. Taking out k times
the computed ln 2 and not the true one turns the result by a relative error of k times that of ln 2,
which is the one that matters.
-/
set_option autoImplicit false

namespace Reckoner.Decimal

open Real (log)

variable {x r e : ℤ} {n : ℕ}

theorem exp_term_index (r : ℤ) (n : ℕ) : ((expSeries r).term n).index = n + 1 := by
  induction n with
  | zero => rfl
  | succ n ih =>
    rw [Series.term_succ]
    change ((expSeries r).term n).index + 1 = _
    rw [ih]

theorem exp_term_power (r : ℤ) (n : ℕ) : ((expSeries r).term (n + 1)).power =
    (((expSeries r).term n).power * r).tdiv (fineOne * (n + 1 : ℕ)) := by
  rw [Series.term_succ, ← exp_term_index r n]
  rfl

section Terms

variable (hr : |(fineRat r : ℝ)| ≤ 3 / 4)

include hr

/-- The factor of the next term takes away a quarter of the error, and truncation adds one unit. -/
theorem near_exp_power (n : ℕ) :
    Near ((expSeries r).term n).power ((fineRat r : ℝ) ^ n / n.factorial) 4 := by
  induction n with
  | zero =>
    have hstart : Near fineOne (fineRat fineOne) 0 := near_self fineOne
    rw [fineRat_fineOne, Rat.cast_one] at hstart
    rw [pow_zero, Nat.factorial_zero, Nat.cast_one, div_one]
    exact hstart.mono (by norm_num)
  | succ n ih =>
    have hstep := ih.product_divided r (k := (n + 1 : ℕ)) (by positivity)
    have hvalue : (fineRat r : ℝ) ^ n / n.factorial * fineRat r / ((n + 1 : ℕ) : ℤ) =
        (fineRat r : ℝ) ^ (n + 1) / (n + 1).factorial := by
      rw [Nat.factorial_succ, pow_succ, div_mul_eq_mul_div, div_div, Int.cast_natCast]
      push_cast
      rw [mul_comm (n.factorial : ℝ)]
    have herror : 4 * |(fineRat r : ℝ)| / ((n + 1 : ℕ) : ℤ) ≤ 3 := by
      have hindex : (1 : ℝ) ≤ ((n + 1 : ℕ) : ℤ) := by
        rw [Int.cast_natCast]
        exact_mod_cast Nat.le_add_left 1 n
      exact (div_le_self (by positivity) hindex).trans (by linarith)
    rw [exp_term_power, ← hvalue]
    exact hstep.mono (by linarith)

theorem abs_exp_power_le (n : ℕ) :
    |(fineRat ((expSeries r).term n).power : ℝ)| ≤ 1 / n.factorial := by
  induction n with
  | zero =>
    change |(fineRat fineOne : ℝ)| ≤ _
    rw [fineRat_fineOne]
    norm_num
  | succ n ih =>
    have hstep := (Rat.cast_le (K := ℝ)).mpr (abs_fineRat_product_tdiv_le
      ((expSeries r).term n).power r (k := (n + 1 : ℕ)) (by positivity))
    push_cast at hstep
    rw [exp_term_power, Nat.factorial_succ, mul_comm (n + 1), Nat.cast_mul, ← div_div]
    push_cast
    refine hstep.trans (div_le_div_of_nonneg_right ?_ (by positivity))
    calc _ ≤ 1 / (n.factorial : ℝ) * 1 :=
          mul_le_mul ih (hr.trans (by norm_num)) (abs_nonneg _) (by positivity)
      _ = 1 / n.factorial := mul_one _

theorem exp_power_eq_zero : ((expSeries r).term 56).power = 0 := by
  refine eq_zero_of_abs_lt ((abs_exp_power_le hr 56).trans_lt ?_)
  rw [cast_fineUnit]
  norm_num [Nat.factorial]

theorem near_expSeries : Near (expSeries r).sum (Real.exp (fineRat r)) 225 := by
  have hone : |(fineRat r : ℝ)| ≤ 1 := hr.trans (by norm_num)
  have htail := Real.exp_bound hone (n := 56) (by norm_num)
  rw [abs_sub_comm] at htail
  have hrest : |(fineRat r : ℝ)| ^ 56 * ((56 : ℕ).succ / ((56 : ℕ).factorial * (56 : ℕ))) ≤
      1 * fineUnit := by
    have hpower : |(fineRat r : ℝ)| ^ 56 ≤ 1 := pow_le_one₀ (abs_nonneg _) hone
    refine (mul_le_mul_of_nonneg_right hpower (by positivity)).trans ?_
    rw [cast_fineUnit]
    norm_num [Nat.factorial]
  have hsum := (vanishes_expSeries r).near_sum (n := 56) (by decide) (exp_power_eq_zero hr)
    (fun i _ => near_exp_power hr i) (htail.trans hrest)
  exact hsum.mono (by norm_num)

end Terms

theorem fineRat_fineLn2_le : (fineRat fineLn2 : ℝ) ≤ 3 / 4 := by
  have hnear := abs_le.mp near_fineLn2
  have hlog := Real.log_two_lt_d9
  rw [cast_fineUnit] at hnear
  linarith [hnear.2]

theorem abs_fineRat_rest_le (x : ℤ) :
    |(fineRat (x - x.tdiv fineLn2 * fineLn2) : ℝ)| ≤ 3 / 4 :=
  (abs_fineRat_sub_tdiv_mul_le x fineLn2_bounds.1).trans fineRat_fineLn2_le

theorem abs_turns_le {m k : ℤ} (hx : |x| ≤ m * fineOne) (hmk : 100 * m ≤ 69 * k) :
    |x.tdiv fineLn2| ≤ k := by
  have hquotient := (abs_tdiv_mul_le x fineLn2_bounds.1).trans hx
  have hlower := mul_le_mul_of_nonneg_left fineLn2_lower (abs_nonneg (x.tdiv fineLn2))
  have hlimit := mul_le_mul_of_nonneg_right hmk fineOne_pos.le
  refine le_of_mul_le_mul_right ?_ (mul_pos (by norm_num : (0 : ℤ) < 69) fineOne_pos)
  linarith

theorem two_zpow_mul_exp_rest (x k : ℤ) :
    (2 : ℝ) ^ k * Real.exp (fineRat (x - k * fineLn2)) =
      Real.exp (fineRat x) * Real.exp (-((fineRat fineLn2 - log 2) * k)) := by
  have htwo : (2 : ℝ) ^ k = Real.exp (log 2 * k) := by
    rw [← Real.rpow_intCast, Real.rpow_def_of_pos two_pos]
  rw [htwo, ← Real.exp_add, ← Real.exp_add, fineRat_sub, mul_comm k, fineRat_mul_int]
  congr 1
  push_cast
  ring

theorem abs_exp_sub_one_le {h t : ℝ} (hh : |h| ≤ t) (ht : t ≤ 1) :
    |Real.exp h - 1| ≤ (1 + t) * |h| := by
  -- The bound by twice |h| alone would use up more than the place that is promised.
  have hfirst := Real.abs_exp_sub_one_sub_id_le (hh.trans ht)
  have hsquare : h ^ 2 ≤ t * |h| := by
    rw [← sq_abs, sq]
    exact mul_le_mul_of_nonneg_right hh (abs_nonneg h)
  have htriangle := abs_add_le (Real.exp h - 1 - h) h
  rw [sub_add_cancel] at htriangle
  linarith

section Turns

variable {k : ℤ} (hturns : |x.tdiv fineLn2| ≤ k)

include hturns

theorem abs_drift_le :
    |(fineRat fineLn2 - log 2) * (x.tdiv fineLn2 : ℤ)| ≤ 239 * fineUnit * k := by
  have hreal : |((x.tdiv fineLn2 : ℤ) : ℝ)| ≤ k := by exact_mod_cast hturns
  have hln2 := near_fineLn2
  rw [Near] at hln2
  rw [abs_mul]
  exact mul_le_mul hln2 hreal (abs_nonneg _) (by linarith [cast_fineUnit_pos])

/-- Each turn takes 240 units of the result with it. -/
theorem abs_scaled_sub_le (hk : k ≤ 10 ^ 6) :
    |(2 : ℝ) ^ x.tdiv fineLn2 * Real.exp (fineRat (x - x.tdiv fineLn2 * fineLn2)) -
      Real.exp (fineRat x)| ≤ 240 * k * fineUnit * Real.exp (fineRat x) := by
  have hdrift := abs_drift_le hturns
  have hnonneg : (0 : ℝ) ≤ k := by exact_mod_cast (abs_nonneg _).trans hturns
  have hlimit : (k : ℝ) ≤ 10 ^ 6 := by exact_mod_cast hk
  have hsmall : 239 * (fineUnit : ℝ) * k ≤ 1 / 10 ^ 3 := by
    rw [cast_fineUnit]
    linarith
  have hfactor := abs_exp_sub_one_le (h := -((fineRat fineLn2 - log 2) * (x.tdiv fineLn2 : ℤ)))
    (t := 1 / 10 ^ 3) (by rw [abs_neg]; exact hdrift.trans hsmall) (by norm_num)
  rw [abs_neg] at hfactor
  rw [two_zpow_mul_exp_rest, ← mul_sub_one, abs_mul, Real.abs_exp, mul_comm]
  refine mul_le_mul_of_nonneg_right (hfactor.trans ?_) (Real.exp_pos _).le
  calc _ ≤ (1 + 1 / 10 ^ 3) * (239 * fineUnit * k : ℝ) :=
        mul_le_mul_of_nonneg_left hdrift (by norm_num)
    _ ≤ 240 * k * fineUnit := by
        rw [cast_fineUnit]
        linarith

end Turns

theorem scaled_eq_floor (s k : ℤ) :
    (if 0 ≤ k then s * twoPow k.toNat else s.shiftRight (-k).toNat) = ⌊(s : ℚ) * 2 ^ k⌋ := by
  rcases lt_or_ge k 0 with hk | hk
  · obtain ⟨n, hn⟩ := Int.eq_ofNat_of_zero_le (neg_nonneg.mpr hk.le)
    rw [if_neg hk.not_ge, hn, Int.toNat_natCast, ← floor_div_two_pow, ← hn, neg_neg]
  · obtain ⟨n, rfl⟩ := Int.eq_ofNat_of_zero_le hk
    rw [if_pos hk, floor_mul_two_pow, Int.toNat_natCast]

theorem fineExp_of_abs_le (hx : |x| ≤ expLimit * fineOne) : fineExp x =
    some ⌊((expSeries (x - x.tdiv fineLn2 * fineLn2)).sum : ℚ) * 2 ^ x.tdiv fineLn2⌋ := by
  obtain ⟨hlow, hhigh⟩ := abs_le.mp hx
  rw [fineExp, if_neg hhigh.not_gt, if_neg hlow.not_gt, ← scaled_eq_floor]

theorem quarter_le_exp {y : ℝ} (hy : |y| ≤ 3 / 4) : 1 / 4 ≤ Real.exp y := by
  have hexp := Real.add_one_le_exp y
  linarith [(abs_le.mp hy).1]

theorem expSeries_nonneg (hr : |(fineRat r : ℝ)| ≤ 3 / 4) : 0 ≤ (expSeries r).sum := by
  have hquarter := quarter_le_exp hr
  have hnear := (abs_le.mp (near_expSeries hr)).1
  rw [cast_fineUnit] at hnear
  have hreal : (0 : ℝ) ≤ fineRat (expSeries r).sum := by linarith
  rw [← fineRat_le_fineRat, fineRat_zero]
  exact_mod_cast hreal

theorem abs_scaled_series_sub_le (hr : |(fineRat r : ℝ)| ≤ 3 / 4) (k : ℤ) :
    |(fineRat (expSeries r).sum : ℝ) * 2 ^ k - 2 ^ k * Real.exp (fineRat r)| ≤
      900 * fineUnit * (2 ^ k * Real.exp (fineRat r)) := by
  have hpower : (0 : ℝ) < 2 ^ k := by positivity
  have hunit := cast_fineUnit_pos
  rw [mul_comm (fineRat _ : ℝ), ← mul_sub, abs_mul, abs_of_pos hpower]
  calc _ ≤ (2 : ℝ) ^ k * (225 * fineUnit) :=
        mul_le_mul_of_nonneg_left (near_expSeries hr) hpower.le
    _ = 900 * fineUnit * (2 ^ k * (1 / 4)) := by ring
    _ ≤ 900 * fineUnit * (2 ^ k * Real.exp (fineRat r)) :=
        mul_le_mul_of_nonneg_left (mul_le_mul_of_nonneg_left (quarter_le_exp hr) hpower.le)
          (by linarith)

theorem abs_fineRat_floor_sub_le (s k : ℤ) :
    |(fineRat ⌊(s : ℚ) * 2 ^ k⌋ : ℝ) - fineRat s * 2 ^ k| ≤ fineUnit := by
  obtain ⟨hlow, hhigh⟩ := fineRat_floor_bounds s k
  rw [← Rat.cast_le (K := ℝ)] at hlow hhigh
  push_cast at hlow hhigh
  rw [abs_le]
  constructor <;> linarith [cast_fineUnit_pos]

theorem fineExp_reduced {k : ℤ} (hx : |x| ≤ expLimit * fineOne) (hturns : |x.tdiv fineLn2| ≤ k)
    (hk : k ≤ 10 ^ 6) (he : fineExp x = some e) : 0 ≤ e ∧
      |(fineRat e : ℝ) - Real.exp (fineRat x)| ≤
        fineUnit + (240 * k + 901) * fineUnit * Real.exp (fineRat x) := by
  rw [fineExp_of_abs_le hx] at he
  obtain rfl := Option.some.inj he
  have hrest := abs_fineRat_rest_le x
  have hscaled := abs_scaled_sub_le hturns hk
  have hseries := abs_scaled_series_sub_le hrest (x.tdiv fineLn2)
  have hfloor := abs_fineRat_floor_sub_le
    (expSeries (x - x.tdiv fineLn2 * fineLn2)).sum (x.tdiv fineLn2)
  have hnonneg : (0 : ℚ) ≤ (expSeries (x - x.tdiv fineLn2 * fineLn2)).sum := by
    exact_mod_cast expSeries_nonneg hrest
  refine ⟨Int.floor_nonneg.mpr (by positivity), ?_⟩
  have hexp := Real.exp_pos (fineRat x : ℝ)
  have hlimit : (k : ℝ) ≤ 10 ^ 6 := by exact_mod_cast hk
  have hturn := mul_le_mul_of_nonneg_right hlimit hexp.le
  generalize (2 : ℝ) ^ x.tdiv fineLn2 *
    Real.exp (fineRat (x - x.tdiv fineLn2 * fineLn2)) = q at hscaled hseries
  calc _ ≤ fineUnit + (900 * fineUnit * q + 240 * k * fineUnit * Real.exp (fineRat x)) :=
        (abs_sub_le _ _ _).trans
          (add_le_add hfloor ((abs_sub_le _ _ _).trans (add_le_add hseries hscaled)))
    _ ≤ fineUnit + (240 * k + 901) * fineUnit * Real.exp (fineRat x) := by
        have hq := (abs_le.mp hscaled).2
        rw [cast_fineUnit] at hq ⊢
        linarith

theorem two_pow_le_exp {y : ℝ} (h : n * 0.6931471808 ≤ y) : 2 ^ n ≤ Real.exp y := by
  have hlog : n * log 2 ≤ y :=
    (mul_le_mul_of_nonneg_left Real.log_two_lt_d9.le (Nat.cast_nonneg n)).trans h
  calc (2 : ℝ) ^ n = Real.exp (n * log 2) := by rw [Real.exp_nat_mul, Real.exp_log two_pos]
    _ ≤ Real.exp y := Real.exp_le_exp.mpr hlog

theorem fineRat_expLimit : fineRat (expLimit * fineOne) = 23100 := by
  rw [mul_comm, fineRat_mul_int, fineRat_fineOne, one_mul, expLimit]
  rfl

theorem exp_le_fineUnit {y : ℝ} (hy : y ≤ -23100) : Real.exp y ≤ fineUnit := by
  have hlarge := two_pow_le_exp (n := 250) (y := -y) (by norm_num; linarith)
  rw [Real.exp_neg] at hlarge
  rw [cast_fineUnit, le_one_div (Real.exp_pos y) (by positivity), one_div]
  exact le_trans (by norm_num) hlarge

theorem fineExp_accurate (he : fineExp x = some e) : 0 ≤ e ∧
    |(fineRat e : ℝ) - Real.exp (fineRat x)| ≤
      fineUnit + 9 / 10 ^ 68 * Real.exp (fineRat x) := by
  rcases lt_or_ge (expLimit * fineOne) x with habove | hhigh
  · rw [fineExp, if_pos habove] at he
    cases he
  rcases lt_or_ge x (-(expLimit * fineOne)) with hbelow | hlow
  · rw [fineExp, if_neg hhigh.not_gt, if_pos hbelow] at he
    obtain rfl := Option.some.inj he
    have hargument : fineRat x ≤ -23100 := by
      rw [← fineRat_expLimit, ← fineRat_neg, fineRat_le_fineRat]
      exact hbelow.le
    have hexp := Real.exp_pos (fineRat x : ℝ)
    have hunit := exp_le_fineUnit (y := fineRat x) (by exact_mod_cast hargument)
    rw [fineRat_zero, Rat.cast_zero, zero_sub, abs_neg, abs_of_pos hexp]
    exact ⟨le_rfl, by linarith⟩
  · have hlimit : |x| ≤ expLimit * fineOne := abs_le.mpr ⟨hlow, hhigh⟩
    obtain ⟨hnonneg, hnear⟩ :=
      fineExp_reduced hlimit (abs_turns_le hlimit (k := 33479) (by decide)) (by norm_num) he
    have hexp := Real.exp_pos (fineRat x : ℝ)
    rw [cast_fineUnit] at hnear ⊢
    push_cast at hnear
    exact ⟨hnonneg, by linarith⟩

theorem lt_of_fineExp_none (h : fineExp x = none) : 23100 < fineRat x := by
  rw [← fineRat_expLimit, fineRat_lt_fineRat]
  by_contra hle
  rw [fineExp, if_neg hle] at h
  split at h <;> cases h

theorem beyond_of_fineExp_none (h : fineExp x = none) :
    2 ^ 33431 ≤ Real.exp (fineRat x) * 10 ^ 64 := by
  have hargument : (23100 : ℝ) < fineRat x := by exact_mod_cast lt_of_fineExp_none h
  have hexp := two_pow_le_exp (n := 33219) (y := fineRat x) (by norm_num; linarith)
  calc (2 : ℝ) ^ 33431 = 2 ^ 33219 * 2 ^ 212 := pow_add 2 33219 212
    _ ≤ Real.exp (fineRat x) * 10 ^ 64 :=
        mul_le_mul hexp (by norm_num) (by positivity) (Real.exp_pos _).le

/-- A computed result may be beyond the range where the true one is only close to its end. -/
theorem beyond_of_fineExp_some (he : fineExp x = some e)
    (hlarge : 2 ^ bitLimit ≤ fineRat e * 10 ^ 64) :
    2 ^ 33431 ≤ Real.exp (fineRat x) * 10 ^ 64 := by
  have hnear := (abs_le.mp (fineExp_accurate he).2).2
  have hbeyond : (2 : ℝ) ^ (33431 + 1) ≤ fineRat e * 10 ^ 64 := by
    have hcast := (Rat.cast_le (K := ℝ)).mpr hlarge
    push_cast at hcast
    exact hcast
  have hend : (1 : ℝ) ≤ 2 ^ 33431 := one_le_pow₀ one_le_two
  rw [cast_fineUnit] at hnear
  rw [pow_succ] at hbeyond
  generalize (2 : ℝ) ^ 33431 = bound at hbeyond hend ⊢
  linarith

/-- The exponential is right to two units of the last place and one part in 10^67, and infinite only
where the true one is beyond the range or within its last binary digit. -/
theorem exp_accurate (x : ℤ) :
    (∃ r, exp x = .finite r ∧ |(toRat r : ℝ) - Real.exp (toRat x)| ≤
      2 / 10 ^ 64 + Real.exp (toRat x) / 10 ^ 67) ∨
    (exp x = .posInf ∧ 2 ^ 33431 ≤ Real.exp (toRat x) * 10 ^ 64) := by
  rw [← fineRat_raise]
  rcases hfine : fineExp (raise x) with _ | e
  · exact .inr ⟨by rw [exp, hfine], beyond_of_fineExp_none hfine⟩
  · obtain ⟨hnonneg, hnear⟩ := fineExp_accurate hfine
    have hvalue : exp x = Number.saturate (lower e) := by rw [exp, hfine]
    rw [hvalue]
    rcases saturate_lower hnonneg with hfinite | ⟨hinfinite, hlarge⟩
    · have hexp := Real.exp_pos (fineRat (raise x) : ℝ)
      rw [cast_fineUnit] at hnear
      exact .inl ⟨_, hfinite, (abs_toRat_lower_sub_le hnear).trans (by linarith)⟩
    · exact .inr ⟨hinfinite, beyond_of_fineExp_some hfine hlarge⟩

end Reckoner.Decimal
