import Reckoner.Decimal.Trigonometry
import Reckoner.Proofs.Accuracy.Circular
import Reckoner.Proofs.Accuracy.Pi

set_option autoImplicit false

namespace Reckoner.Decimal

open scoped Real

variable {x : ℤ}

/-- A sine and a cosine, turned by so many right angles. -/
def turned {α : Type} [Neg α] (q : ℤ) (p : α × α) : α × α :=
  match (q % 4).toNat with
  | 0 => p
  | 1 => (p.2, -p.1)
  | 2 => (-p.1, -p.2)
  | _ => (-p.2, p.1)

theorem emod_four_cases (q : ℤ) : q % 4 = 0 ∨ q % 4 = 1 ∨ q % 4 = 2 ∨ q % 4 = 3 := by omega

section Turned

variable {α : Type} [Neg α] {q : ℤ} (p : α × α)

theorem turned_zero (h : q % 4 = 0) : turned q p = p := by
  rw [turned, h]
  rfl

theorem turned_one (h : q % 4 = 1) : turned q p = (p.2, -p.1) := by
  rw [turned, h]
  rfl

theorem turned_two (h : q % 4 = 2) : turned q p = (-p.1, -p.2) := by
  rw [turned, h]
  rfl

theorem turned_three (h : q % 4 = 3) : turned q p = (-p.2, p.1) := by
  rw [turned, h]
  rfl

end Turned

theorem add_quarter_turns (t : ℝ) {q j : ℤ} (h : q % 4 = j) :
    t + q * (π / 2) = t + j * (π / 2) + (q / 4 : ℤ) * (2 * π) := by
  have hq : (q : ℝ) = 4 * (q / 4 : ℤ) + j := by exact_mod_cast (by omega : q = 4 * (q / 4) + j)
  rw [hq]
  ring

theorem sin_cos_add_quarter_turns (t : ℝ) (q : ℤ) :
    (Real.sin (t + q * (π / 2)), Real.cos (t + q * (π / 2))) =
      turned q (Real.sin t, Real.cos t) := by
  rcases emod_four_cases q with h | h | h | h <;>
    rw [add_quarter_turns t h, Real.sin_add_int_mul_two_pi, Real.cos_add_int_mul_two_pi]
  · rw [turned_zero _ h, Int.cast_zero, zero_mul, add_zero]
  · rw [turned_one _ h, Int.cast_one, one_mul, Real.sin_add_pi_div_two, Real.cos_add_pi_div_two]
  · rw [turned_two _ h, Int.cast_ofNat, mul_div_cancel₀ _ two_ne_zero, Real.sin_add_pi,
      Real.cos_add_pi]
  · have hsplit : t + ((3 : ℤ) : ℝ) * (π / 2) = t + π / 2 + π := by
      push_cast
      ring
    rw [turned_three _ h, hsplit, Real.sin_add_pi, Real.cos_add_pi, Real.sin_add_pi_div_two,
      Real.cos_add_pi_div_two, neg_neg]

theorem Near.turned {s c : ℤ} {a b d : ℝ} (hs : Near s a d) (hc : Near c b d) (q : ℤ) :
    Near (turned q (s, c)).1 (turned q (a, b)).1 d ∧
      Near (turned q (s, c)).2 (turned q (a, b)).2 d := by
  rcases emod_four_cases q with h | h | h | h
  · rw [turned_zero _ h, turned_zero _ h]
    exact ⟨hs, hc⟩
  · rw [turned_one _ h, turned_one _ h]
    exact ⟨hc, hs.neg⟩
  · rw [turned_two _ h, turned_two _ h]
    exact ⟨hs.neg, hc.neg⟩
  · rw [turned_three _ h, turned_three _ h]
    exact ⟨hc.neg, hs⟩

/-- The argument without its quarter turns. -/
def reduced (x : ℤ) : ℤ := x - x.tdiv fineHalfPi * fineHalfPi

theorem fineSinCos_eq (x : ℤ) : fineSinCos x =
    turned (x.tdiv fineHalfPi) ((sinSeries (reduced x)).sum, (cosSeries (reduced x)).sum) := by
  unfold fineSinCos
  rcases emod_four_cases (x.tdiv fineHalfPi) with h | h | h | h
  · simp only [turned_zero _ h, h]
    rfl
  · simp only [turned_one _ h, h]
    rfl
  · simp only [turned_two _ h, h]
    rfl
  · simp only [turned_three _ h, h]
    rfl

theorem abs_fineRat_reduced_le (x : ℤ) : |(fineRat (reduced x) : ℝ)| ≤ 8 / 5 :=
  (abs_fineRat_sub_tdiv_mul_le x fineHalfPi_bounds.1).trans fineRat_fineHalfPi_bounds.2

/-- The turns taken out bring in less than the argument in units. -/
theorem abs_fineRat_reduced_sub_le (x : ℤ) :
    |(fineRat (reduced x) : ℝ) - (fineRat x - (x.tdiv fineHalfPi : ℤ) * (π / 2))| ≤
      |(fineRat x : ℝ)| * fineUnit := by
  obtain ⟨hleast, -⟩ := fineRat_fineHalfPi_bounds
  have hturns : |((x.tdiv fineHalfPi : ℤ) : ℝ)| * fineRat fineHalfPi ≤ |(fineRat x : ℝ)| := by
    have hle : ((|x.tdiv fineHalfPi| * fineHalfPi : ℤ) : ℚ) ≤ |x| := by
      exact_mod_cast abs_tdiv_mul_le x fineHalfPi_bounds.1
    have hfine : |((x.tdiv fineHalfPi : ℤ) : ℚ)| * fineRat fineHalfPi ≤ |fineRat x| := by
      rw [abs_fineRat, fineRat, ← mul_div_assoc]
      push_cast at hle
      exact div_le_div_of_nonneg_right (by exact_mod_cast hle) cast_fineOne_pos.le
    exact_mod_cast hfine
  have hnear := near_fineHalfPi
  rw [Near] at hnear
  have hsplit : (fineRat (reduced x) : ℝ) - (fineRat x - (x.tdiv fineHalfPi : ℤ) * (π / 2)) =
      -((x.tdiv fineHalfPi : ℤ) * ((fineRat fineHalfPi : ℝ) - π / 2)) := by
    rw [reduced, fineRat_sub, mul_comm (x.tdiv fineHalfPi), fineRat_mul_int]
    push_cast
    ring
  have hunit := cast_fineUnit_pos
  rw [hsplit, abs_neg, abs_mul]
  calc _ ≤ |((x.tdiv fineHalfPi : ℤ) : ℝ)| * (151 / 100 * fineUnit) :=
        mul_le_mul_of_nonneg_left hnear (abs_nonneg _)
    _ ≤ |((x.tdiv fineHalfPi : ℤ) : ℝ)| * (fineRat fineHalfPi * fineUnit) :=
        mul_le_mul_of_nonneg_left (mul_le_mul_of_nonneg_right hleast hunit.le) (abs_nonneg _)
    _ ≤ |(fineRat x : ℝ)| * fineUnit := by
        rw [← mul_assoc]
        exact mul_le_mul_of_nonneg_right hturns hunit.le

theorem near_fineSinCos (x : ℤ) :
    Near (fineSinCos x).1 (Real.sin (fineRat x)) (161 + |(fineRat x : ℝ)|) ∧
      Near (fineSinCos x).2 (Real.cos (fineRat x)) (161 + |(fineRat x : ℝ)|) := by
  have hrange := abs_fineRat_reduced_le x
  have hreduced := abs_fineRat_reduced_sub_le x
  have hsin := (near_sinSeries hrange).trans ((Real.abs_sin_sub_sin_le _ _).trans hreduced)
  have hcos := (near_cosSeries hrange).trans ((Real.abs_cos_sub_cos_le _ _).trans hreduced)
  have hturned := hsin.turned hcos (x.tdiv fineHalfPi)
  rwa [← sin_cos_add_quarter_turns, sub_add_cancel, ← fineSinCos_eq] at hturned

/-- Sine and cosine of every decimal are right to two units of the last place and to one part in
10^74 of the argument. -/
theorem sin_cos_accurate (x : ℤ) :
    |(toRat (sin x) : ℝ) - Real.sin (toRat x)| ≤ 2 / 10 ^ 64 + |(toRat x : ℝ)| / 10 ^ 74 ∧
      |(toRat (cos x) : ℝ) - Real.cos (toRat x)| ≤ 2 / 10 ^ 64 + |(toRat x : ℝ)| / 10 ^ 74 := by
  obtain ⟨hsin, hcos⟩ := near_fineSinCos (raise x)
  rw [fineRat_raise] at hsin hcos
  exact ⟨hsin.abs_toRat_lower_sub_le.trans (by linarith),
    hcos.abs_toRat_lower_sub_le.trans (by linarith)⟩

variable {s : ℤ} {a b d σ κ : ℝ}

theorem turned_on_circle {a b : ℝ} (h : a ^ 2 + b ^ 2 = 1) (q : ℤ) :
    (turned q (a, b)).1 ^ 2 + (turned q (a, b)).2 ^ 2 = 1 := by
  rcases emod_four_cases q with hq | hq | hq | hq
  · rwa [turned_zero _ hq]
  · rwa [turned_one _ hq, neg_sq, add_comm]
  · rwa [turned_two _ hq, neg_sq, neg_sq]
  · rwa [turned_three _ hq, neg_sq, add_comm]

/-- However much of its accuracy the reduced argument has lost, both series are taken at the same
one: the point of the circle is that of the reduced argument, turned back. -/
theorem exists_near_circle (x : ℤ) : ∃ a b : ℝ, a ^ 2 + b ^ 2 = 1 ∧
    Near (fineSinCos x).1 a 161 ∧ Near (fineSinCos x).2 b 161 := by
  have hrange := abs_fineRat_reduced_le x
  have hcircle := Real.sin_sq_add_cos_sq (fineRat (reduced x) : ℝ)
  have hnear := (near_sinSeries hrange).turned (near_cosSeries hrange) (x.tdiv fineHalfPi)
  rw [← fineSinCos_eq] at hnear
  exact ⟨_, _, turned_on_circle hcircle (x.tdiv fineHalfPi), hnear⟩

theorem Near.abs_lower_le_one (h : Near s a 161) (ha : |a| ≤ 1) : |lower s| ≤ one := by
  have hfine : |fineRat s| < fineRat (raise (one + 1)) := by
    have hnext : fineRat (raise (one + 1)) = 1 + 1 / 10 ^ 64 := by
      rw [fineRat_raise, toRat, Int.cast_add, cast_one]
      norm_num
    have hreal : |(fineRat s : ℝ)| < 1 + 1 / 10 ^ 64 := by
      have htriangle := abs_add_le ((fineRat s : ℝ) - a) a
      rw [sub_add_cancel] at htriangle
      rw [Near, cast_fineUnit] at h
      linarith
    rw [hnext, ← Rat.cast_lt (K := ℝ)]
    push_cast
    exact hreal
  have hunits : |s| < raise (one + 1) := by
    rw [abs_fineRat, fineRat, div_lt_div_iff_of_pos_right cast_fineOne_pos] at hfine
    exact_mod_cast hfine
  have hlower := (abs_tdiv_mul_le s guardFactor_pos).trans_lt hunits
  exact Int.lt_add_one_iff.mp (lt_of_mul_lt_mul_right hlower guardFactor_pos.le)

theorem abs_sq_sub_sq_le (h : |σ - a| ≤ d) : |σ ^ 2 - a ^ 2| ≤ d * (2 * |a| + d) := by
  have hsum : |σ + a| ≤ 2 * |a| + d := by
    have htriangle := abs_add_le (σ - a) (2 * a)
    rw [abs_mul, abs_two] at htriangle
    calc |σ + a| = |σ - a + 2 * a| := by ring_nf
      _ ≤ 2 * |a| + d := by linarith
  rw [sq_sub_sq, abs_mul, mul_comm]
  exact mul_le_mul h hsum (abs_nonneg _) ((abs_nonneg _).trans h)

theorem abs_circle_sub_le (hcircle : a ^ 2 + b ^ 2 = 1) (hσ : |σ - a| ≤ d) (hκ : |κ - b| ≤ d) :
    |σ ^ 2 + κ ^ 2 - 1| ≤ d * (3 + 2 * d) := by
  have hd : 0 ≤ d := (abs_nonneg _).trans hσ
  have hsquare : (|a| + |b|) ^ 2 ≤ (3 / 2) ^ 2 := by
    have hmean := add_sq_le (a := |a|) (b := |b|)
    rw [sq_abs, sq_abs, hcircle] at hmean
    linarith
  have hsum : |a| + |b| ≤ 3 / 2 := (abs_le_of_sq_le_sq' hsquare (by norm_num)).2
  calc |σ ^ 2 + κ ^ 2 - 1| = |(σ ^ 2 - a ^ 2) + (κ ^ 2 - b ^ 2)| := by
        rw [← hcircle]
        ring_nf
    _ ≤ d * (2 * |a| + d) + d * (2 * |b| + d) :=
        (abs_add_le _ _).trans (add_le_add (abs_sq_sub_sq_le hσ) (abs_sq_sub_sq_le hκ))
    _ = d * (2 * (|a| + |b|) + 2 * d) := by ring
    _ ≤ d * (3 + 2 * d) := mul_le_mul_of_nonneg_left (by linarith) hd

theorem cast_toRat (x : ℤ) : (toRat x : ℝ) = x / 10 ^ 64 := by
  rw [toRat, cast_one]
  push_cast
  rfl

/-- Of every decimal, of any magnitude: neither sine nor cosine is beyond 1, and the sum of their
squares is 1 to four units of the last place. -/
theorem sin_cos_on_circle (x : ℤ) : |sin x| ≤ 10 ^ 64 ∧ |cos x| ≤ 10 ^ 64 ∧
    |sin x ^ 2 + cos x ^ 2 - 10 ^ 128| ≤ 4 * 10 ^ 64 := by
  obtain ⟨a, b, hcircle, hsin, hcos⟩ := exists_near_circle (raise x)
  have ha : |a| ≤ 1 := by
    rw [← sq_le_one_iff_abs_le_one]
    linarith [sq_nonneg b]
  have hb : |b| ≤ 1 := by
    rw [← sq_le_one_iff_abs_le_one]
    linarith [sq_nonneg a]
  refine ⟨hsin.abs_lower_le_one ha, hcos.abs_lower_le_one hb, ?_⟩
  have hoff := abs_circle_sub_le hcircle hsin.abs_toRat_lower_sub_le hcos.abs_toRat_lower_sub_le
  change |(toRat (sin x) : ℝ) ^ 2 + (toRat (cos x) : ℝ) ^ 2 - 1| ≤ _ at hoff
  have hscale : (toRat (sin x) : ℝ) ^ 2 + (toRat (cos x) : ℝ) ^ 2 - 1 =
      ((sin x ^ 2 + cos x ^ 2 - 10 ^ 128 : ℤ) : ℝ) / 10 ^ 128 := by
    rw [cast_toRat, cast_toRat]
    push_cast
    ring
  rw [hscale, abs_div, abs_of_pos (by positivity : (0 : ℝ) < 10 ^ 128), div_le_iff₀ (by positivity)]
    at hoff
  have hreal : |((sin x ^ 2 + cos x ^ 2 - 10 ^ 128 : ℤ) : ℝ)| ≤ ((4 * 10 ^ 64 : ℤ) : ℝ) := by
    refine hoff.trans ?_
    norm_num
  exact_mod_cast hreal

end Reckoner.Decimal
