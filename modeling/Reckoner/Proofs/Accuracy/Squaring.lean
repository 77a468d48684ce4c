import Reckoner.Proofs.Accuracy.Truncation

/-!
From 1 on no product loses more than one part in 10^74, so that `m` factors lose at most `m` parts
of the whole; below 1 none loses more than one unit of the fine grid, and `m` factors at most `m`
units.
-/
set_option autoImplicit false

namespace Reckoner.Decimal

variable {a acc b : ℤ} {m : ℕ}

def accumulate (acc b : ℤ) (m : ℕ) : ℤ := if m % 2 = 1 then fineProduct acc b else acc

theorem binaryPower_eq (acc b : ℤ) (m : ℕ) : binaryPower acc b m =
    if m % 2 = 1 ∧ fineOverflow (accumulate acc b m) = true then none
    else if m / 2 = 0 then some (accumulate acc b m)
    else if fineOverflow (fineProduct b b) = true then none
    else binaryPower (accumulate acc b m) (fineProduct b b) (m / 2) := by
  rw [binaryPower, dite_eq_ite]
  rfl

/-- The last turn ends with the accumulator, any other goes on with the square, and either may stop
at a factor beyond the range. -/
theorem binaryPower_cases (acc b : ℤ) (m : ℕ) :
    (m / 2 = 0 ∧ binaryPower acc b m = some (accumulate acc b m)) ∨
    (m / 2 ≠ 0 ∧ binaryPower acc b m =
      binaryPower (accumulate acc b m) (fineProduct b b) (m / 2)) ∨
    (binaryPower acc b m = none ∧
      (m % 2 = 1 ∧ fineOverflow (accumulate acc b m) = true ∨
        m / 2 ≠ 0 ∧ fineOverflow (fineProduct b b) = true)) := by
  rw [binaryPower_eq]
  generalize accumulate acc b m = c
  split
  · next hover => exact .inr (.inr ⟨rfl, .inl hover⟩)
  · split
    · next hlast => exact .inl ⟨hlast, rfl⟩
    · next hmore =>
      split
      · next hover => exact .inr (.inr ⟨rfl, .inr ⟨hmore, hover⟩⟩)
      · exact .inr (.inl ⟨hmore, rfl⟩)

/-- The square takes as many factors as the turns that are left. -/
theorem mod_add_halves (m : ℕ) : m % 2 + 2 * (m / 2) = m := Nat.mod_add_div m 2

theorem fineOverflow_iff : fineOverflow a = true ↔ 2 ^ (bitLimit + 34) ≤ a.natAbs := by
  have hguard : bitLength guardFactor = 34 := by decide
  rw [fineOverflow, decide_eq_true_eq, hguard, gt_iff_lt, ← not_le, bitLength_le_iff, not_lt]

theorem two_pow_le_of_fineOverflow (ha : 0 ≤ a) (h : fineOverflow a = true) :
    2 ^ (bitLimit + 34) ≤ fineRat a * fineOne := by
  have hlarge : (2 : ℤ) ^ (bitLimit + 34) ≤ a := by
    have hnat := fineOverflow_iff.mp h
    zify at hnat
    rwa [abs_of_nonneg ha] at hnat
  rw [fineRat, div_mul_cancel₀ _ cast_fineOne_pos.ne']
  exact_mod_cast hlarge

theorem accumulate_nonneg (hacc : 0 ≤ acc) (hb : 0 ≤ b) (m : ℕ) : 0 ≤ accumulate acc b m := by
  unfold accumulate
  split
  · exact fineProduct_nonneg hacc hb
  · exact hacc

theorem accumulate_le (hacc : 0 ≤ acc) (hb : 0 ≤ b) (m : ℕ) :
    fineRat (accumulate acc b m) ≤ fineRat acc * fineRat b ^ (m % 2) := by
  unfold accumulate
  rcases Nat.mod_two_eq_zero_or_one m with heven | hodd
  · rw [heven, if_neg zero_ne_one, pow_zero, mul_one]
  · rw [hodd, if_pos rfl, pow_one]
    exact fineProduct_le hacc hb

theorem turn_le (hacc : 0 ≤ acc) (hb : 0 ≤ b) (m : ℕ) :
    fineRat (accumulate acc b m) * fineRat (fineProduct b b) ^ (m / 2) ≤
      fineRat acc * fineRat b ^ m := by
  have hA := fineRat_nonneg hacc
  have hB := fineRat_nonneg hb
  have hS := fineRat_nonneg (fineProduct_nonneg hb hb)
  calc fineRat (accumulate acc b m) * fineRat (fineProduct b b) ^ (m / 2)
      ≤ fineRat acc * fineRat b ^ (m % 2) * (fineRat b * fineRat b) ^ (m / 2) :=
        mul_le_mul (accumulate_le hacc hb m) (pow_le_pow_left₀ hS (fineProduct_le hb hb) _)
          (pow_nonneg hS _) (by positivity)
    _ = fineRat acc * fineRat b ^ m := by
        rw [mul_assoc, ← sq, ← pow_mul, ← pow_add, mod_add_halves]

def keptShare : ℚ := 1 - fineUnit

theorem keptShare_pos : 0 < keptShare := by
  rw [keptShare, fineUnit_eq]
  norm_num

theorem keptShare_le_one : keptShare ≤ 1 := sub_le_self 1 fineUnit_pos.le

theorem keptShare_pow_ge (k : ℕ) : 1 - k * fineUnit ≤ keptShare ^ k := by
  have h := one_add_mul_le_pow (a := -fineUnit) (by rw [fineUnit_eq]; norm_num) k
  rw [keptShare, sub_eq_add_neg 1 fineUnit]
  linarith

theorem fineOne_le_fineProduct (ha : fineOne ≤ a) (hb : fineOne ≤ b) :
    fineOne ≤ fineProduct a b := by
  have hproduct : fineOne * fineOne ≤ a * b :=
    mul_le_mul ha hb fineOne_pos.le (fineOne_pos.le.trans ha)
  rw [fineProduct, Int.tdiv_eq_ediv_of_nonneg ((mul_pos fineOne_pos fineOne_pos).le.trans hproduct)]
  exact (Int.le_ediv_iff_mul_le fineOne_pos).mpr hproduct

theorem mul_keptShare_le (ha : fineOne ≤ a) (hb : fineOne ≤ b) :
    fineRat a * fineRat b * keptShare ≤ fineRat (fineProduct a b) := by
  have hone : 1 ≤ fineRat a * fineRat b :=
    one_le_mul_of_one_le_of_one_le (one_le_fineRat_iff.mpr ha) (one_le_fineRat_iff.mpr hb)
  have hunit : fineUnit ≤ fineRat a * fineRat b * fineUnit :=
    le_mul_of_one_le_left fineUnit_pos.le hone
  have hle := le_fineProduct a b
  rw [keptShare, mul_sub, mul_one]
  linarith

theorem fineOne_le_accumulate (hacc : fineOne ≤ acc) (hb : fineOne ≤ b) (m : ℕ) :
    fineOne ≤ accumulate acc b m := by
  unfold accumulate
  split
  · exact fineOne_le_fineProduct hacc hb
  · exact hacc

theorem le_accumulate_from_one (hacc : fineOne ≤ acc) (hb : fineOne ≤ b) (m : ℕ) :
    fineRat acc * (fineRat b * keptShare) ^ (m % 2) ≤ fineRat (accumulate acc b m) := by
  unfold accumulate
  rcases Nat.mod_two_eq_zero_or_one m with heven | hodd
  · rw [heven, if_neg zero_ne_one, pow_zero, mul_one]
  · rw [hodd, if_pos rfl, pow_one, ← mul_assoc]
    exact mul_keptShare_le hacc hb

/-- From 1 on a turn keeps the share of each factor that it takes. -/
theorem le_turn_from_one (hacc : fineOne ≤ acc) (hb : fineOne ≤ b) (m : ℕ) :
    fineRat acc * (fineRat b * keptShare) ^ m ≤
      fineRat (accumulate acc b m) * (fineRat (fineProduct b b) * keptShare) ^ (m / 2) := by
  have hkept := keptShare_pos
  have hB := fineRat_pos (fineOne_pos.trans_le hb)
  have hC := fineRat_pos (fineOne_pos.trans_le (fineOne_le_accumulate hacc hb m))
  have hsquare : fineRat b * keptShare * (fineRat b * keptShare) ≤
      fineRat (fineProduct b b) * keptShare := by
    have h := mul_le_mul_of_nonneg_right (mul_keptShare_le hb hb) hkept.le
    linarith
  have hsplit : fineRat acc * (fineRat b * keptShare) ^ m =
      fineRat acc * (fineRat b * keptShare) ^ (m % 2) *
        (fineRat b * keptShare * (fineRat b * keptShare)) ^ (m / 2) := by
    rw [mul_assoc, ← sq, ← pow_mul, ← pow_add, mod_add_halves]
  rw [hsplit]
  exact mul_le_mul (le_accumulate_from_one hacc hb m) (pow_le_pow_left₀ (by positivity) hsquare _)
    (by positivity) hC.le

/-- What repeated squaring answers from 1 on: a power of which each factor has lost its share at
most, or nothing where the whole power leaves the range of the fine grid. -/
def PowerFromOne (q : Option ℤ) (whole kept : ℚ) : Prop :=
  (∃ p, q = some p ∧ fineOne ≤ p ∧ fineRat p ≤ whole ∧ kept ≤ fineRat p) ∨
    q = none ∧ 2 ^ (bitLimit + 34) ≤ whole * fineOne

theorem PowerFromOne.mono {q : Option ℤ} {v w k l : ℚ} (h : PowerFromOne q v k) (hv : v ≤ w)
    (hk : l ≤ k) : PowerFromOne q w l := by
  rcases h with ⟨p, hq, hone, hle, hge⟩ | ⟨hq, hlarge⟩
  · exact .inl ⟨p, hq, hone, hle.trans hv, hk.trans hge⟩
  · exact .inr ⟨hq, hlarge.trans (mul_le_mul_of_nonneg_right hv cast_fineOne_pos.le)⟩

theorem le_power_of_turn (hacc : fineOne ≤ acc) (hb : fineOne ≤ b) (m : ℕ) :
    fineRat (accumulate acc b m) ≤ fineRat acc * fineRat b ^ m ∧
      (m / 2 ≠ 0 → fineRat (fineProduct b b) ≤ fineRat acc * fineRat b ^ m) := by
  have hturn := turn_le (fineOne_pos.le.trans hacc) (fineOne_pos.le.trans hb) m
  have hC := one_le_fineRat_iff.mpr (fineOne_le_accumulate hacc hb m)
  have hS := one_le_fineRat_iff.mpr (fineOne_le_fineProduct hb hb)
  refine ⟨(le_mul_of_one_le_right (by positivity) (one_le_pow₀ hS)).trans hturn, fun hmore => ?_⟩
  calc fineRat (fineProduct b b) ≤ fineRat (fineProduct b b) ^ (m / 2) := le_self_pow₀ hS hmore
    _ ≤ fineRat (accumulate acc b m) * fineRat (fineProduct b b) ^ (m / 2) :=
        le_mul_of_one_le_left (by positivity) hC
    _ ≤ fineRat acc * fineRat b ^ m := hturn

theorem powerFromOne_binaryPower (m : ℕ) (hacc : fineOne ≤ acc) (hb : fineOne ≤ b) :
    PowerFromOne (binaryPower acc b m) (fineRat acc * fineRat b ^ m)
      (fineRat acc * (fineRat b * keptShare) ^ m) := by
  induction m using Nat.strong_induction_on generalizing acc b with
  | _ m ih =>
    have hC := fineOne_le_accumulate hacc hb m
    have hS := fineOne_le_fineProduct hb hb
    have hturn := turn_le (fineOne_pos.le.trans hacc) (fineOne_pos.le.trans hb) m
    have hkept := le_turn_from_one hacc hb m
    obtain ⟨hlow, hsquare⟩ := le_power_of_turn hacc hb m
    rcases binaryPower_cases acc b m with ⟨hlast, hq⟩ | ⟨hmore, hq⟩ | ⟨hq, hover⟩
    · rw [hlast, pow_zero, mul_one] at hkept
      exact .inl ⟨_, hq, hC, hlow, hkept⟩
    · rw [hq]
      exact (ih (m / 2) (by omega) hC hS).mono hturn hkept
    · refine .inr ⟨hq, ?_⟩
      rcases hover with ⟨-, hover⟩ | ⟨hmore, hover⟩
      · exact (two_pow_le_of_fineOverflow (fineOne_pos.le.trans hC) hover).trans
          (mul_le_mul_of_nonneg_right hlow cast_fineOne_pos.le)
      · exact (two_pow_le_of_fineOverflow (fineOne_pos.le.trans hS) hover).trans
          (mul_le_mul_of_nonneg_right (hsquare hmore) cast_fineOne_pos.le)

theorem fineProduct_le_fineOne (ha : 0 ≤ a) (hb : 0 ≤ b) (ha1 : a ≤ fineOne) (hb1 : b ≤ fineOne) :
    fineProduct a b ≤ fineOne := by
  rw [← fineRat_le_one_iff] at ha1 hb1 ⊢
  exact (fineProduct_le ha hb).trans (mul_le_one₀ ha1 (fineRat_nonneg hb) hb1)

theorem accumulate_le_fineOne (hacc : 0 ≤ acc) (hb : 0 ≤ b) (hacc1 : acc ≤ fineOne)
    (hb1 : b ≤ fineOne) (m : ℕ) : accumulate acc b m ≤ fineOne := by
  unfold accumulate
  split
  · exact fineProduct_le_fineOne hacc hb hacc1 hb1
  · exact hacc1

theorem fineOverflow_of_le_fineOne (ha : 0 ≤ a) (ha1 : a ≤ fineOne) : fineOverflow a = false := by
  have hone : fineOverflow fineOne = false := by
    rw [← raise_one]
    exact fineOverflow_raise inRange_one
  rw [← Bool.not_eq_true, fineOverflow_iff, not_le] at hone ⊢
  omega

theorem le_accumulate_below_one (acc b : ℤ) (m : ℕ) :
    fineRat acc * fineRat b ^ (m % 2) - (m % 2 : ℕ) * fineUnit ≤
      fineRat (accumulate acc b m) := by
  unfold accumulate
  rcases Nat.mod_two_eq_zero_or_one m with heven | hodd
  · rw [heven, if_neg zero_ne_one, pow_zero, mul_one, Nat.cast_zero, zero_mul, sub_zero]
  · rw [hodd, if_pos rfl, pow_one, Nat.cast_one, one_mul]
    exact le_fineProduct acc b

theorem pow_sub_le {s t d : ℚ} (hs : 0 ≤ s) (hst : s ≤ t) (ht : t ≤ 1) (hd : t - d ≤ s) (k : ℕ) :
    t ^ k - k * d ≤ s ^ k := by
  induction k with
  | zero => simp
  | succ k ih =>
    have hpow : s ^ k ≤ 1 := pow_le_one₀ hs (hst.trans ht)
    have hfirst : t * (t ^ k - s ^ k) ≤ k * d := by
      have hnonneg : 0 ≤ t ^ k - s ^ k := sub_nonneg.mpr (pow_le_pow_left₀ hs hst k)
      linarith [mul_le_of_le_one_left hnonneg ht]
    have hlast : (t - s) * s ^ k ≤ d := by
      linarith [mul_le_of_le_one_right (sub_nonneg.mpr hst) hpow]
    push_cast
    linarith [show t ^ (k + 1) - s ^ (k + 1) = t * (t ^ k - s ^ k) + (t - s) * s ^ k by ring]

/-- Below 1 a turn loses as many units as it takes products. -/
theorem le_turn_below_one (hacc : 0 ≤ acc) (hb : 0 ≤ b) (hacc1 : acc ≤ fineOne)
    (hb1 : b ≤ fineOne) (m : ℕ) :
    fineRat acc * fineRat b ^ m - (m % 2 + m / 2 : ℕ) * fineUnit ≤
      fineRat (accumulate acc b m) * fineRat (fineProduct b b) ^ (m / 2) := by
  have hS := fineRat_nonneg (fineProduct_nonneg hb hb)
  have hC := fineRat_nonneg (accumulate_nonneg hacc hb m)
  have hC1 := fineRat_le_one_iff.mpr (accumulate_le_fineOne hacc hb hacc1 hb1 m)
  have hB := fineRat_nonneg hb
  have hB1 := fineRat_le_one_iff.mpr hb1
  have hsquare : (fineRat b * fineRat b) ^ (m / 2) - (m / 2 : ℕ) * fineUnit ≤
      fineRat (fineProduct b b) ^ (m / 2) :=
    pow_sub_le hS (fineProduct_le hb hb) (mul_le_one₀ hB1 hB hB1) (le_fineProduct b b) _
  have hfactor := le_accumulate_below_one acc b m
  have hrest : (fineRat b * fineRat b) ^ (m / 2) ≤ 1 :=
    pow_le_one₀ (mul_nonneg hB hB) (mul_le_one₀ hB1 hB hB1)
  have hrest0 : 0 ≤ (fineRat b * fineRat b) ^ (m / 2) := by positivity
  have hsplit : fineRat acc * fineRat b ^ m =
      fineRat acc * fineRat b ^ (m % 2) * (fineRat b * fineRat b) ^ (m / 2) := by
    rw [mul_assoc, ← sq, ← pow_mul, ← pow_add, mod_add_halves]
  have hunits : 0 ≤ ((m % 2 : ℕ) : ℚ) * fineUnit := mul_nonneg (Nat.cast_nonneg _) fineUnit_pos.le
  have hunits' : 0 ≤ ((m / 2 : ℕ) : ℚ) * fineUnit := mul_nonneg (Nat.cast_nonneg _) fineUnit_pos.le
  rw [hsplit, Nat.cast_add, add_mul]
  generalize fineRat acc * fineRat b ^ (m % 2) = u at hfactor ⊢
  generalize (fineRat b * fineRat b) ^ (m / 2) = t at hsquare hrest hrest0 ⊢
  generalize fineRat (accumulate acc b m) = c at hfactor hC hC1 ⊢
  generalize ((m % 2 : ℕ) : ℚ) * fineUnit = d at hfactor hunits ⊢
  generalize ((m / 2 : ℕ) : ℚ) * fineUnit = d' at hsquare hunits' ⊢
  calc u * t - (d + d') ≤ u * t - (d * t + c * d') := by
        linarith [mul_le_of_le_one_right hunits hrest, mul_le_of_le_one_left hunits' hC1]
    _ = (u - d) * t - c * d' := by ring
    _ ≤ c * t - c * d' := by linarith [mul_le_mul_of_nonneg_right hfactor hrest0]
    _ = c * (t - d') := by ring
    _ ≤ c * fineRat (fineProduct b b) ^ (m / 2) := mul_le_mul_of_nonneg_left hsquare hC

/-- Below 1 nothing overflows, and each factor loses one unit at most. -/
theorem binaryPower_below_one (m : ℕ) (hacc : 0 ≤ acc) (hb : 0 ≤ b) (hacc1 : acc ≤ fineOne)
    (hb1 : b ≤ fineOne) :
    ∃ p, binaryPower acc b m = some p ∧ 0 ≤ p ∧ fineRat p ≤ fineRat acc * fineRat b ^ m ∧
      fineRat acc * fineRat b ^ m - m * fineUnit ≤ fineRat p := by
  induction m using Nat.strong_induction_on generalizing acc b with
  | _ m ih =>
    have hC := accumulate_nonneg hacc hb m
    have hC1 := accumulate_le_fineOne hacc hb hacc1 hb1 m
    have hS := fineProduct_nonneg hb hb
    have hS1 := fineProduct_le_fineOne hb hb hb1 hb1
    have hturn := turn_le hacc hb m
    have hkept := le_turn_below_one hacc hb hacc1 hb1 m
    rcases binaryPower_cases acc b m with ⟨hlast, hq⟩ | ⟨hmore, hq⟩ | ⟨-, hover⟩
    · have hwhole := mod_add_halves m
      rw [hlast, mul_zero, add_zero] at hwhole
      rw [hlast, hwhole, add_zero, pow_zero, mul_one] at hkept
      rw [hlast, pow_zero, mul_one] at hturn
      exact ⟨_, hq, hC, hturn, hkept⟩
    · obtain ⟨p, hp, hnonneg, hle, hge⟩ := ih (m / 2) (by omega) hC hS hC1 hS1
      refine ⟨p, hq.trans hp, hnonneg, hle.trans hturn, ?_⟩
      have hcount : (m : ℚ) = (m % 2 + m / 2 : ℕ) + (m / 2 : ℕ) := by
        have hwhole := mod_add_halves m
        exact_mod_cast (by omega : m = m % 2 + m / 2 + m / 2)
      rw [hcount, add_mul]
      linarith
    · rw [fineOverflow_of_le_fineOne hC hC1, fineOverflow_of_le_fineOne hS hS1] at hover
      simp at hover

end Reckoner.Decimal
