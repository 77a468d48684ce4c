import Reckoner.Proofs.Accuracy.Arctangent
import Reckoner.Proofs.Parity

set_option autoImplicit false

namespace Reckoner.Decimal

open Real (arctan)

variable {a x z : ℤ} {t : Term}

theorem tdiv_le_tdiv_of_le {a b c d : ℤ} (ha : 0 ≤ a) (hab : a ≤ b) (hd : 0 < d) (hdc : d ≤ c) :
    a.tdiv c ≤ b.tdiv d := by
  have hb := ha.trans hab
  rw [Int.tdiv_eq_ediv_of_nonneg ha, Int.tdiv_eq_ediv_of_nonneg hb]
  have hquotient : 0 ≤ a / c := Int.ediv_nonneg ha (hd.le.trans hdc)
  refine (Int.le_ediv_iff_mul_le hd).mpr ?_
  calc a / c * d ≤ a / c * c := mul_le_mul_of_nonneg_left hdc hquotient
    _ ≤ a := Int.ediv_mul_le a (hd.trans_le hdc).ne'
    _ ≤ b := hab

section Odd

variable (hz : 0 ≤ z) (hz1 : z ≤ fineOne) (hodd : t.index % 2 = 1) (ht : 0 ≤ t.power)

include hz hz1 hodd ht

theorem divided_oddNext_bounds : 0 ≤ (oddNext (fineProduct z z) t).power ∧
    (oddNext (fineProduct z z) t).divided ≤ t.divided := by
  have hsquare := fineProduct_nonneg hz hz
  have hsquare1 : |fineProduct z z| ≤ 1 * fineOne := by
    rw [one_mul, ← mul_one fineOne]
    exact abs_fineProduct_le (by rwa [abs_of_nonneg hz]) (by rwa [abs_of_nonneg hz, one_mul])
  have hpower : fineProduct t.power (fineProduct z z) ≤ t.power := by
    have hle := abs_fineProduct_le (abs_of_nonneg ht).le hsquare1
    rw [mul_one] at hle
    exact (le_abs_self _).trans hle
  have hpower0 := fineProduct_nonneg ht hsquare
  have hindex : (t.index : ℤ) ≤ (t.index + 2 : ℕ) := by omega
  exact ⟨hpower0, tdiv_le_tdiv_of_le hpower0 hpower (by omega) hindex⟩

/-- The next term has the opposite sign. -/
theorem alternating_oddNext_mem_uIcc :
    (oddNext (fineProduct z z) t).alternating ∈ Set.uIcc 0 (-t.alternating) := by
  obtain ⟨hpower, hdivided⟩ := divided_oddNext_bounds hz hz1 hodd ht
  have hnonneg : 0 ≤ (oddNext (fineProduct z z) t).divided :=
    Int.tdiv_nonneg hpower (Int.natCast_nonneg _)
  have hindex : (oddNext (fineProduct z z) t).index = t.index + 2 := rfl
  rw [Term.alternating, Term.alternating, hindex, Set.mem_uIcc]
  split <;> split <;> omega

end Odd

theorem arctanSeries_nonneg (hz : 0 ≤ z) (hz1 : z ≤ fineOne) : 0 ≤ (arctanSeries z).sum := by
  have hsum := (arctanSeries z).sumFrom_mem_uIcc (fun t => t.index % 2 = 1 ∧ 0 ≤ t.power)
    (fun t ht => ⟨⟨?_, (divided_oddNext_bounds hz hz1 ht.1 ht.2).1⟩,
      alternating_oddNext_mem_uIcc hz hz1 ht.1 ht.2⟩) Series.turnLimit (arctanSeries z).start
    ⟨rfl, hz⟩
  · change _ ∈ Set.uIcc 0 (z.tdiv 1) at hsum
    rw [Int.tdiv_one, Set.uIcc_of_le hz] at hsum
    exact hsum.1
  · change (t.index + 2) % 2 = 1
    omega

theorem arctanReduced_nonneg (ha : 0 ≤ a) (ha1 : a ≤ fineOne) : 0 ≤ arctanReduced a := by
  obtain ⟨hhalf, hhalf1⟩ := halfAngle_bounds ha
  obtain ⟨hquarter, hquarter1⟩ := halfAngle_bounds hhalf
  exact mul_nonneg (arctanSeries_nonneg hquarter (by omega)) (by norm_num)

theorem arctanReduced_le (ha : 0 ≤ a) (ha1 : a ≤ fineOne) : arctanReduced a ≤ fineHalfPi := by
  have hnear := (abs_le.mp (near_arctanReduced ha ha1)).2
  have hsteep := abs_arctan_sub_arctan_le (fineRat a) 0
  have ha0 : (0 : ℝ) ≤ fineRat a := by exact_mod_cast fineRat_nonneg ha
  have hle : (fineRat a : ℝ) ≤ 1 := by exact_mod_cast fineRat_le_one_iff.mpr ha1
  have hhalfPi := fineRat_fineHalfPi_bounds.1
  rw [Real.arctan_zero, sub_zero, sub_zero, abs_of_nonneg ha0] at hsteep
  rw [cast_fineUnit] at hnear
  have hreal : (fineRat (arctanReduced a) : ℝ) ≤ fineRat fineHalfPi := by
    linarith [le_abs_self (arctan (fineRat a))]
  rw [← fineRat_le_fineRat]
  exact_mod_cast hreal

theorem arctanMagnitude_bounds (ha : 0 ≤ a) :
    0 ≤ arctanMagnitude a ∧ arctanMagnitude a ≤ fineHalfPi := by
  have hone := fineOne_pos
  unfold arctanMagnitude
  split
  · next hlarge =>
    obtain ⟨hinverse, hinverse1⟩ := reciprocal_bounds hlarge
    have hlow := arctanReduced_nonneg hinverse hinverse1
    have hhigh := arctanReduced_le hinverse hinverse1
    constructor <;> omega
  · next hsmall =>
    exact ⟨arctanReduced_nonneg ha (not_lt.mp hsmall), arctanReduced_le ha (not_lt.mp hsmall)⟩

theorem abs_fineArctan_le_fineHalfPi (x : ℤ) : |fineArctan x| ≤ fineHalfPi := by
  obtain ⟨hlow, hhigh⟩ := arctanMagnitude_bounds (Int.natCast_nonneg x.natAbs)
  have hmagnitude : |arctanMagnitude x.natAbs| ≤ fineHalfPi := by rwa [abs_of_nonneg hlow]
  unfold fineArctan
  split
  · rwa [abs_neg]
  · exact hmagnitude

theorem lower_le_lower {p q : ℤ} (h : p ≤ q) : lower p ≤ lower q :=
  Int.tdiv_le_tdiv guardFactor_pos h

theorem finePi_nonneg : 0 ≤ finePi := by
  by_contra hneg
  have hopposite := Int.tdiv_nonneg (neg_pos.mpr (not_le.mp hneg)).le zero_le_two
  rw [Int.neg_tdiv] at hopposite
  exact absurd fineHalfPi_bounds.1 (not_lt.mpr (neg_nonneg.mp hopposite))

theorem lower_fineHalfPi : lower fineHalfPi = pi.tdiv 2 := by
  have hhalf := fineHalfPi_bounds.1
  have hpi := finePi_nonneg
  have hguard := guardFactor_pos.le
  have hlower : 0 ≤ finePi.tdiv guardFactor := Int.tdiv_nonneg hpi hguard
  rw [lower, pi, lower, Int.tdiv_eq_ediv_of_nonneg hhalf.le, Int.tdiv_eq_ediv_of_nonneg hlower,
    fineHalfPi, Int.tdiv_eq_ediv_of_nonneg hpi, Int.tdiv_eq_ediv_of_nonneg hpi,
    Int.ediv_ediv_of_nonneg zero_le_two, Int.ediv_ediv_of_nonneg hguard, mul_comm]

theorem abs_atan_le (x : ℤ) : |atan x| ≤ pi.tdiv 2 := by
  obtain ⟨hlow, hhigh⟩ := abs_le.mp (abs_fineArctan_le_fineHalfPi (raise x))
  rw [← lower_fineHalfPi, atan, abs_le, ← lower_neg]
  exact ⟨lower_le_lower hlow, lower_le_lower hhigh⟩

end Reckoner.Decimal
