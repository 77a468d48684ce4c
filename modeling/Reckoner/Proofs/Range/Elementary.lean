import Reckoner.Proofs.Number.Order
import Reckoner.Proofs.Range.Arctangent

set_option autoImplicit false

namespace Reckoner

namespace Decimal

variable {c e m p r s x : ℤ}

theorem expSeries_sum_eq (r : ℤ) : (expSeries r).sum =
    ∑ i ∈ Finset.range Series.turnLimit, ((expSeries r).term i).power := by
  have hsum := (vanishes_expSeries r).ends.sumFrom_eq Series.turnLimit 0
  simp only [zero_add] at hsum
  exact hsum

theorem exp_power_nonneg (hr : 0 ≤ r) (n : ℕ) : 0 ≤ ((expSeries r).term n).power := by
  induction n with
  | zero => exact fineOne_pos.le
  | succ n ih =>
    rw [exp_term_power]
    exact Int.tdiv_nonneg (mul_nonneg ih hr) (mul_pos fineOne_pos (by positivity)).le

theorem exp_power_neg (r : ℤ) (n : ℕ) :
    ((expSeries (-r)).term n).power = (-1) ^ n * ((expSeries r).term n).power := by
  induction n with
  | zero => exact (one_mul _).symm
  | succ n ih =>
    rw [exp_term_power, exp_term_power, ih, mul_neg, Int.neg_tdiv, pow_succ, mul_neg_one, neg_mul]
    rcases neg_one_pow_eq_or ℤ n with h | h
    · rw [h, one_mul, one_mul]
    · rw [h, neg_one_mul, neg_one_mul, neg_mul, Int.neg_tdiv]

theorem fineOne_le_expSeries (hr : 0 ≤ r) : fineOne ≤ (expSeries r).sum := by
  rw [expSeries_sum_eq]
  exact Finset.single_le_sum (fun i _ => exp_power_nonneg hr i)
    (Finset.mem_range.mpr (by decide : 0 < Series.turnLimit))

/-- The odd powers of an exponent and of its opposite cancel to the last unit. -/
theorem two_mul_fineOne_le_expSeries (hr : 0 ≤ r) :
    2 * fineOne ≤ (expSeries r).sum + (expSeries (-r)).sum := by
  rw [expSeries_sum_eq, expSeries_sum_eq, ← Finset.sum_add_distrib, two_mul]
  refine Finset.single_le_sum (f := fun i => ((expSeries r).term i).power +
    ((expSeries (-r)).term i).power) (fun i _ => ?_)
    (Finset.mem_range.mpr (by decide : 0 < Series.turnLimit))
  have hpower := exp_power_nonneg hr i
  rw [exp_power_neg]
  rcases neg_one_pow_eq_or ℤ i with h | h <;> rw [h] <;> omega

theorem mul_tdiv_mem_uIcc (hr : r ≤ 0) (hc : -r ≤ c) (hpos : 0 < c) :
    (p * r).tdiv c ∈ Set.uIcc 0 (-p) := by
  have hsize : |(p * r).tdiv c| ≤ |p| := by
    refine abs_tdiv_le hpos ?_
    rw [abs_mul, abs_of_nonpos hr]
    exact mul_le_mul_of_nonneg_left hc (abs_nonneg p)
  rw [Set.mem_uIcc]
  rcases le_total 0 p with hp | hp
  · have hsign : 0 ≤ (-(p * r)).tdiv c :=
      Int.tdiv_nonneg (neg_nonneg.mpr (mul_nonpos_of_nonneg_of_nonpos hp hr)) hpos.le
    rw [Int.neg_tdiv] at hsign
    rw [abs_of_nonneg hp, abs_of_nonpos (by omega)] at hsize
    omega
  · have hsign : 0 ≤ (p * r).tdiv c :=
      Int.tdiv_nonneg (mul_nonneg_of_nonpos_of_nonpos hp hr) hpos.le
    rw [abs_of_nonpos hp, abs_of_nonneg hsign] at hsize
    omega

theorem expSeries_bounds (hr : r ≤ 0) (hsmall : -r ≤ fineOne) :
    0 ≤ (expSeries r).sum ∧ (expSeries r).sum ≤ fineOne := by
  rw [← Set.mem_Icc, ← Set.uIcc_of_le fineOne_pos.le]
  refine (expSeries r).sumFrom_mem_uIcc (fun t => 1 ≤ t.index) (fun t ht => ⟨?_, ?_⟩) _ _ le_rfl
  · exact Nat.le_succ_of_le ht
  · have hindex : fineOne * 1 ≤ fineOne * t.index :=
      mul_le_mul_of_nonneg_left (by exact_mod_cast ht) fineOne_pos.le
    rw [mul_one] at hindex
    exact mul_tdiv_mem_uIcc hr (hsmall.trans hindex) (fineOne_pos.trans_le hindex)

theorem rest_nonneg (hx : 0 ≤ x) : 0 ≤ x - x.tdiv fineLn2 * fineLn2 := by
  rw [mul_comm, ← Int.tmod_def]
  exact Int.tmod_nonneg _ hx

theorem rest_le (x : ℤ) : x - x.tdiv fineLn2 * fineLn2 ≤ fineOne :=
  ((le_abs_self _).trans (abs_sub_tdiv_mul_lt x fineLn2_bounds.1).le).trans fineLn2_bounds.2

theorem le_of_fineExp_eq_some (he : fineExp x = some e) : x ≤ expLimit * fineOne := by
  by_contra hlarge
  rw [fineExp, if_pos (not_le.mp hlarge)] at he
  cases he

theorem fineExp_of_nonneg (hx : 0 ≤ x) (he : fineExp x = some e) : ∃ n : ℕ,
    x.tdiv fineLn2 = n ∧ e = (expSeries (x - x.tdiv fineLn2 * fineLn2)).sum * twoPow n := by
  have hlimit := le_of_fineExp_eq_some he
  rw [fineExp_of_abs_le (by rwa [abs_of_nonneg hx])] at he
  obtain ⟨n, hn⟩ := Int.eq_ofNat_of_zero_le (Int.tdiv_nonneg hx fineLn2_bounds.1.le)
  refine ⟨n, hn, (Option.some.inj he).symm.trans ?_⟩
  rw [← floor_mul_two_pow, ← hn]

theorem fineOne_le_of_fineExp (hx : 0 ≤ x) (he : fineExp x = some e) : fineOne ≤ e := by
  obtain ⟨n, -, rfl⟩ := fineExp_of_nonneg hx he
  have hsum := fineOne_le_expSeries (rest_nonneg hx)
  exact hsum.trans (le_mul_of_one_le_right (fineOne_pos.le.trans hsum) (one_le_twoPow n))

theorem fineExp_neg (hx : 0 ≤ x) (hlimit : x ≤ expLimit * fineOne) : fineExp (-x) =
    some ⌊((expSeries (-(x - x.tdiv fineLn2 * fineLn2))).sum : ℚ) * 2 ^ (-x.tdiv fineLn2)⌋ := by
  have hopposite : -x - -x.tdiv fineLn2 * fineLn2 = -(x - x.tdiv fineLn2 * fineLn2) := by ring
  rw [fineExp_of_abs_le (by rwa [abs_neg, abs_of_nonneg hx]), Int.neg_tdiv, hopposite]

/-- The sum for the opposite is shifted to the right, as far as the other is to the left. -/
theorem fineExp_neg_bounds (hx : 0 ≤ x) : ∃ e, fineExp (-x) = some e ∧ 0 ≤ e ∧ e ≤ fineOne := by
  rcases lt_or_ge (expLimit * fineOne) x with hlarge | hsmall
  · have hlimit : 0 < expLimit * fineOne := by decide
    refine ⟨0, ?_, le_rfl, fineOne_pos.le⟩
    rw [fineExp, if_neg (by omega), if_pos (by omega)]
  · obtain ⟨hnonneg, hle⟩ := expSeries_bounds (neg_nonpos.mpr (rest_nonneg hx))
      (by rw [neg_neg]; exact rest_le x)
    refine ⟨_, fineExp_neg hx hsmall, ?_⟩
    generalize (expSeries (-(x - x.tdiv fineLn2 * fineLn2))).sum = s at hnonneg hle ⊢
    have hturns : 0 ≤ x.tdiv fineLn2 := Int.tdiv_nonneg hx fineLn2_bounds.1.le
    have hs : (0 : ℚ) ≤ s := by exact_mod_cast hnonneg
    have hpower : (2 : ℚ) ^ (-x.tdiv fineLn2) ≤ 1 :=
      zpow_le_one_of_nonpos₀ one_le_two (neg_nonpos.mpr hturns)
    have hfloor := (Int.floor_le _).trans (mul_le_of_le_one_right hs hpower)
    exact ⟨Int.floor_nonneg.mpr (by positivity), (Int.cast_le.mp hfloor).trans hle⟩

/-- Where no power of two is taken out the odd powers cancel, and otherwise the larger exponential
alone is at least 2. -/
theorem two_mul_fineOne_le (hx : 0 ≤ x) (hp : fineExp x = some p)
    (hm : fineExp (-x) = some m) : 2 * fineOne ≤ p + m := by
  obtain ⟨n, hn, rfl⟩ := fineExp_of_nonneg hx hp
  have hrest := rest_nonneg hx
  rcases Nat.eq_zero_or_pos n with rfl | hpos
  · have hlimit : x ≤ expLimit * fineOne := le_of_fineExp_eq_some hp
    rw [fineExp_neg hx hlimit, hn, Nat.cast_zero, neg_zero, zpow_zero, mul_one,
      Int.floor_intCast] at hm
    obtain rfl := Option.some.inj hm
    rw [hn, show twoPow 0 = 1 from rfl, mul_one]
    rw [hn] at hrest
    exact two_mul_fineOne_le_expSeries hrest
  · obtain ⟨e, he, hnonneg, -⟩ := fineExp_neg_bounds hx
    obtain rfl := Option.some.inj (he.symm.trans hm)
    have htwo : 2 ≤ twoPow n := twoPow_le_twoPow hpos
    have hsum := fineOne_le_expSeries hrest
    have hlarge := mul_le_mul hsum htwo zero_le_two (fineOne_pos.le.trans hsum)
    linarith

theorem lower_fineOne : lower fineOne = one := by rw [← raise_one, lower_raise]

theorem saturate_one : Number.saturate one = .one := saturate_of_inRange inRange_one

theorem raise_nonneg (hx : 0 ≤ x) : 0 ≤ raise x := mul_nonneg hx guardFactor_pos.le

theorem one_le_exp (hx : 0 ≤ x) : Number.one ≤ exp x := by
  unfold exp
  split
  · next e he =>
    have hle := lower_le_lower (fineOne_le_of_fineExp (raise_nonneg hx) he)
    rw [lower_fineOne] at hle
    rw [← saturate_one]
    exact Number.saturate_le_saturate hle
  · exact Number.finite_le_posInf _

theorem exp_neg_bounds (hx : 0 ≤ x) : Number.zero ≤ exp (-x) ∧ exp (-x) ≤ Number.one := by
  obtain ⟨e, he, hnonneg, hle⟩ := fineExp_neg_bounds (raise_nonneg hx)
  have hlower := lower_le_lower hle
  rw [lower_fineOne] at hlower
  have hvalue : exp (-x) = Number.saturate (lower e) := by rw [exp, raise_neg, he]
  rw [hvalue, ← saturate_one]
  exact ⟨Number.saturate_le_saturate (lower_nonneg hnonneg), Number.saturate_le_saturate hlower⟩

theorem exp_bounds (x : ℤ) : Number.zero ≤ exp x ∧ (0 ≤ x → Number.one ≤ exp x) ∧
    (x ≤ 0 → exp x ≤ Number.one) := by
  have hbelow (hx : x ≤ 0) := exp_neg_bounds (neg_nonneg.mpr hx)
  rw [neg_neg] at hbelow
  refine ⟨?_, one_le_exp, fun hx => (hbelow hx).2⟩
  rcases le_total 0 x with hx | hx
  · exact Number.le_trans (.finite one_pos.le) (one_le_exp hx)
  · exact (hbelow hx).1

theorem one_le_cosh (x : ℤ) : Number.one ≤ cosh x := by
  wlog hx : 0 ≤ x generalizing x
  · rw [← cosh_neg]
    exact this (-x) (by omega)
  unfold cosh
  split
  · next p m hp hm =>
    have hhalf := Int.tdiv_le_tdiv two_pos (two_mul_fineOne_le (raise_nonneg hx) hp hm)
    rw [Int.mul_tdiv_cancel_left _ two_ne_zero] at hhalf
    have hle := lower_le_lower hhalf
    rw [lower_fineOne] at hle
    rw [← saturate_one]
    exact Number.saturate_le_saturate hle
  · exact Number.finite_le_posInf _

theorem zero_le_sinh (hx : 0 ≤ x) : Number.zero ≤ sinh x := by
  obtain ⟨m, hm, -, hle⟩ := fineExp_neg_bounds (raise_nonneg hx)
  rw [sinh, hm]
  cases hp : fineExp (raise x) with
  | some p =>
    have hge := fineOne_le_of_fineExp (raise_nonneg hx) hp
    exact Number.saturate_le_saturate (lower_nonneg (Int.tdiv_nonneg (by omega) zero_le_two))
  | none => exact Number.finite_le_posInf _

theorem sinh_le_zero (hx : x ≤ 0) : sinh x ≤ Number.zero := by
  have hopposite := Number.neg_le_neg (zero_le_sinh (neg_nonneg.mpr hx))
  rwa [← sinh_neg, neg_neg] at hopposite

theorem abs_fineArcsin?_le_fineHalfPi (h : fineArcsin? x = some s) : |s| ≤ fineHalfPi := by
  have hpos := fineHalfPi_bounds.1
  unfold fineArcsin? at h
  split at h
  · cases h
  · split at h
    · obtain rfl := Option.some.inj h
      split
      · rw [abs_neg, abs_of_pos hpos]
      · rw [abs_of_pos hpos]
    · obtain rfl := Option.some.inj h
      exact abs_fineArctan_le_fineHalfPi _

theorem two_mul_fineHalfPi_le : 2 * fineHalfPi ≤ finePi := by
  rw [fineHalfPi, Int.tdiv_eq_ediv_of_nonneg finePi_nonneg]
  omega

theorem exists_fineArcsin (hx : |x| ≤ one) : ∃ s, fineArcsin? (raise x) = some s := by
  obtain ⟨s, hs, -⟩ := near_fineArcsin? (x := raise x) (by
    rw [abs_raise, ← raise_one]
    exact mul_le_mul_of_nonneg_right hx guardFactor_pos.le)
  exact ⟨s, hs⟩

theorem asin_acos_bounds (hx : |x| ≤ one) : (∃ s, asin? x = some s ∧ |s| ≤ pi.tdiv 2) ∧
    ∃ c, acos? x = some c ∧ 0 ≤ c ∧ c ≤ pi := by
  obtain ⟨s, hs⟩ := exists_fineArcsin hx
  obtain ⟨hlow, hhigh⟩ := abs_le.mp (abs_fineArcsin?_le_fineHalfPi hs)
  have hpi := two_mul_fineHalfPi_le
  refine ⟨⟨lower s, by rw [asin?, hs, Option.map_some], ?_⟩,
    lower (fineHalfPi - s), by rw [acos?, hs, Option.map_some], ?_, ?_⟩
  · rw [← lower_fineHalfPi, abs_le, ← lower_neg]
    exact ⟨lower_le_lower hlow, lower_le_lower hhigh⟩
  · exact lower_nonneg (by omega)
  · exact lower_le_lower (by omega)

/-- The exponential is not negative, and on the side of 1 on which it should be. The hyperbolic
cosine is at least 1, and the hyperbolic sine never on the other side of 0 than its argument. The
arcsine of every decimal up to 1 in magnitude exists and is within the computed π/2 on either side,
and its arccosine between 0 and the computed π. -/
theorem range_laws (x : ℤ) :
    (Number.zero ≤ exp x ∧ (0 ≤ x → Number.one ≤ exp x) ∧ (x ≤ 0 → exp x ≤ Number.one)) ∧
    Number.one ≤ cosh x ∧
    ((0 ≤ x → Number.zero ≤ sinh x) ∧ (x ≤ 0 → sinh x ≤ Number.zero)) ∧
    (|x| ≤ one → (∃ s, asin? x = some s ∧ |s| ≤ pi.tdiv 2) ∧
      ∃ c, acos? x = some c ∧ 0 ≤ c ∧ c ≤ pi) :=
  ⟨exp_bounds x, one_le_cosh x, ⟨zero_le_sinh, sinh_le_zero⟩, asin_acos_bounds⟩

theorem range_laws_ends :
    (0 ≤ 1 ∧ Number.one ≤ exp 1 ∧ Number.zero ≤ sinh 1) ∧
    (-one ≤ 0 ∧ exp (-one) ≤ Number.one ∧ sinh (-one) ≤ Number.zero) ∧
    |-one| ≤ one ∧ (∃ s, asin? (-one) = some s ∧ |s| ≤ pi.tdiv 2) ∧
      ∃ c, acos? (-one) = some c ∧ 0 ≤ c ∧ c ≤ pi := by
  obtain ⟨⟨-, hexp, -⟩, -, ⟨hsinh, -⟩, -⟩ := range_laws 1
  obtain ⟨⟨-, -, hexp'⟩, -, ⟨-, hsinh'⟩, hangles⟩ := range_laws (-one)
  have hneg : -one ≤ 0 := by decide
  have hend : |-one| ≤ one := by decide
  exact ⟨⟨by decide, hexp (by decide), hsinh (by decide)⟩, ⟨hneg, hexp' hneg, hsinh' hneg⟩, hend,
    hangles hend⟩

end Decimal

end Reckoner
