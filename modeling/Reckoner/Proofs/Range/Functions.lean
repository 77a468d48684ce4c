import Reckoner.Application
import Reckoner.Proofs.Exact.Arithmetic
import Reckoner.Proofs.Range.Series

set_option autoImplicit false

namespace Reckoner.Decimal

variable {a b n r x y : Int}

theorem inRange_of_abs_le {k : Nat} (hk : k < bitLimit) (h : |x| ≤ twoPow k) : InRange x := by
  rw [Int.abs_eq_natAbs] at h
  have hle : x.natAbs ≤ 2 ^ k := Int.ofNat_le.mp h
  have hlt : 2 ^ k < 2 ^ bitLimit := Nat.pow_lt_pow_right one_lt_two hk
  exact hle.trans_lt hlt

theorem inRange_of_abs_le_mul {k : Int} (hk : k ≤ 2 ^ 64) (h : |x| ≤ k * fineOne) : InRange x := by
  have hlimit : 1000 < bitLimit := by decide
  have hbound : 2 ^ 64 * fineOne ≤ twoPow 1000 := by decide +kernel
  exact inRange_of_abs_le hlimit
    ((h.trans (mul_le_mul_of_nonneg_right hk fineOne_pos.le)).trans hbound)

theorem natAbs_mul_lt {j k : Nat} (ha : a.natAbs < 2 ^ j) (hb : b.natAbs < 2 ^ k) :
    (a * b).natAbs < 2 ^ (j + k) := by
  rw [Int.natAbs_mul, pow_add]
  exact Nat.mul_lt_mul'' ha hb

theorem abs_lower_le (x : Int) : |lower x| ≤ |x| := abs_tdiv_le_abs _ _

theorem inRange_lower {k : Int} (hk : k ≤ 2 ^ 64) (h : |x| ≤ k * fineOne) : InRange (lower x) :=
  inRange_of_abs_le_mul hk ((abs_lower_le x).trans h)

theorem abs_sub_tdiv_mul_lt (x : Int) (hb : 0 < b) : |x - x.tdiv b * b| < b := by
  rw [mul_comm, ← Int.tmod_def, Int.abs_eq_natAbs, Int.natAbs_tmod]
  have hlt := Nat.mod_lt x.natAbs (Int.natAbs_pos.mpr hb.ne')
  omega

theorem fineHalfPi_bounds : 0 < fineHalfPi ∧ fineHalfPi ≤ 2 * fineOne := by decide +kernel

theorem abs_fineSinCos_le (x : Int) :
    |(fineSinCos x).1| ≤ 256 * fineOne ∧ |(fineSinCos x).2| ≤ 256 * fineOne := by
  obtain ⟨hpos, hle⟩ := fineHalfPi_bounds
  have hrest := (abs_sub_tdiv_mul_lt x hpos).le.trans hle
  have hsin := abs_sinSeries_le hrest
  have hcos := abs_cosSeries_le hrest
  rw [← mul_assoc] at hsin hcos
  unfold fineSinCos
  simp only
  split
  · exact ⟨hsin, hcos⟩
  · exact ⟨hcos, (abs_neg _).trans_le hsin⟩
  · exact ⟨(abs_neg _).trans_le hsin, (abs_neg _).trans_le hcos⟩
  · exact ⟨(abs_neg _).trans_le hcos, hsin⟩

theorem inRange_sin (x : Int) : InRange (sin x) :=
  inRange_lower (by norm_num) (abs_fineSinCos_le (raise x)).1

theorem inRange_cos (x : Int) : InRange (cos x) :=
  inRange_lower (by norm_num) (abs_fineSinCos_le (raise x)).2

theorem halfAngle_bounds (ha : 0 ≤ a) : 0 ≤ halfAngle a ∧ halfAngle a ≤ a := by
  have hone := fineOne_pos
  have hroot : 0 ≤ fineRoot (fineOne * fineOne + a * a) := Int.natCast_nonneg _
  have hdivisor : fineOne ≤ fineOne + fineRoot (fineOne * fineOne + a * a) := by omega
  refine ⟨Int.tdiv_nonneg (mul_nonneg ha hone.le) (hone.le.trans hdivisor), ?_⟩
  refine (le_abs_self _).trans (abs_tdiv_le (hone.trans_le hdivisor) ?_)
  rw [abs_of_nonneg (mul_nonneg ha hone.le)]
  exact mul_le_mul_of_nonneg_left hdivisor ha

theorem abs_arctanReduced_le (ha : 0 ≤ a) (hle : a ≤ fineOne) :
    |arctanReduced a| ≤ 512 * fineOne := by
  obtain ⟨hhalf, hhalf_le⟩ := halfAngle_bounds ha
  obtain ⟨hquarter, hquarter_le⟩ := halfAngle_bounds hhalf
  have hz : |halfAngle (halfAngle a)| ≤ fineOne := by
    rw [abs_of_nonneg hquarter]
    omega
  have hsum := abs_arctanSeries_le hz
  rw [arctanReduced, abs_mul, abs_of_pos (by norm_num : (0 : Int) < 4)]
  omega

theorem reciprocal_bounds (ha : fineOne < a) :
    0 ≤ (fineOne * fineOne).tdiv a ∧ (fineOne * fineOne).tdiv a ≤ fineOne := by
  have hone := fineOne_pos
  have hpos := hone.trans ha
  refine ⟨Int.tdiv_nonneg (mul_pos hone hone).le hpos.le,
    (le_abs_self _).trans (abs_tdiv_le hpos ?_)⟩
  rw [abs_of_pos (mul_pos hone hone)]
  exact mul_le_mul_of_nonneg_left ha.le hone.le

theorem abs_arctanMagnitude_le (ha : 0 ≤ a) : |arctanMagnitude a| ≤ 514 * fineOne := by
  have hone := fineOne_pos
  unfold arctanMagnitude
  split
  · next hlarge =>
    obtain ⟨hpos, hle⟩ := fineHalfPi_bounds
    obtain ⟨hinverse, hinverse1⟩ := reciprocal_bounds hlarge
    have hreduced := abs_arctanReduced_le hinverse hinverse1
    rw [abs_le] at hreduced ⊢
    omega
  · next hsmall =>
    exact (abs_arctanReduced_le ha (not_lt.mp hsmall)).trans (by omega)

theorem abs_fineArctan_le (x : Int) : |fineArctan x| ≤ 514 * fineOne := by
  have hmagnitude := abs_arctanMagnitude_le (Int.natCast_nonneg x.natAbs)
  unfold fineArctan
  split
  · rwa [abs_neg]
  · exact hmagnitude

theorem inRange_atan (x : Int) : InRange (atan x) :=
  inRange_lower (by norm_num) (abs_fineArctan_le _)

theorem abs_fineArcsin?_le (h : fineArcsin? x = some r) : |r| ≤ 514 * fineOne := by
  obtain ⟨hpos, hle⟩ := fineHalfPi_bounds
  unfold fineArcsin? at h
  split at h
  · cases h
  · split at h
    · cases h
      rw [abs_le]
      split <;> omega
    · cases h
      exact abs_fineArctan_le _

theorem inRange_asin? (h : asin? x = some r) : InRange r := by
  obtain ⟨s, hs, rfl⟩ := Option.map_eq_some_iff.mp h
  exact inRange_lower (by norm_num) (abs_fineArcsin?_le hs)

theorem inRange_acos? (h : acos? x = some r) : InRange r := by
  obtain ⟨s, hs, rfl⟩ := Option.map_eq_some_iff.mp h
  obtain ⟨hpos, hle⟩ := fineHalfPi_bounds
  have hsine := abs_fineArcsin?_le hs
  refine inRange_lower (k := 516) (by norm_num) ?_
  rw [abs_le] at hsine ⊢
  omega

theorem fineLn2_lower : 69 * fineOne ≤ 100 * fineLn2 := by decide +kernel

theorem fineLn2_bounds : 0 < fineLn2 ∧ fineLn2 ≤ fineOne := by
  have hone := fineOne_pos
  have hlower := fineLn2_lower
  exact ⟨by omega, by decide +kernel⟩

theorem binaryMantissa_nonneg (hx : 0 ≤ x) : 0 ≤ binaryMantissa x := by
  unfold binaryMantissa
  simp only
  split
  · exact Int.le_shiftRight_of_nonneg hx
  · exact mul_nonneg hx (Int.natCast_nonneg _)

theorem abs_binaryExponent_le (hx : bitLength x ≤ 40000) : |binaryExponent x| ≤ 40000 := by
  have hone : bitLength fineOne ≤ 40000 := by decide
  rw [binaryExponent, abs_le]
  omega

theorem abs_fineQuotient_le_fineOne {m : Int} (hm : 0 ≤ m) :
    |fineQuotient (m - fineOne) (m + fineOne)| ≤ fineOne := by
  have hone := fineOne_pos
  refine abs_tdiv_le (by omega) ?_
  rw [abs_mul, abs_of_pos hone, mul_comm]
  exact mul_le_mul_of_nonneg_left (abs_le.mpr ⟨by omega, by omega⟩) hone.le

theorem abs_fineLn_le (hx : 0 ≤ x) (hbits : bitLength x ≤ 40000) :
    |fineLn x| ≤ 40256 * fineOne := by
  have hone := fineOne_pos
  obtain ⟨hln2, hln2_le⟩ := fineLn2_bounds
  have hseries := abs_artanhSeries_le (abs_fineQuotient_le_fineOne (binaryMantissa_nonneg hx))
  have hexponent : |fineLn2 * binaryExponent x| ≤ fineOne * 40000 := by
    rw [abs_mul, abs_of_pos hln2]
    exact mul_le_mul hln2_le (abs_binaryExponent_le hbits) (abs_nonneg _) hone.le
  rw [fineLn]
  rw [abs_le] at hseries hexponent ⊢
  omega

theorem bitLength_raise_le (h : bitLength x ≤ bitLimit + 1) : bitLength (raise x) ≤ 40000 := by
  have hguard : guardFactor.natAbs < 2 ^ 34 := by decide
  have hlimit : bitLimit + 1 + 34 ≤ 40000 := by decide
  have hraise := natAbs_mul_lt (bitLength_le_iff.mp h) hguard
  exact (bitLength_le_iff.mpr hraise).trans hlimit

theorem inRange_lower_fineLn (hx : 0 ≤ x) (h : bitLength x ≤ bitLimit + 1) :
    InRange (lower (fineLn (raise x))) :=
  inRange_lower (by norm_num)
    (abs_fineLn_le (mul_nonneg hx (by decide)) (bitLength_raise_le h))

theorem descend_le (n y : Nat) : descend n y ≤ y := by
  fun_induction descend n y with
  | case1 y hlt ih => exact ih.trans hlt.le
  | case2 y hge => exact le_rfl

theorem isqrt_lt {n k : Nat} (h : n < 2 ^ k) : isqrt n < 2 ^ (k / 2 + 2) := by
  unfold isqrt
  split
  · exact Nat.two_pow_pos _
  · next hn =>
    have hlog : n.log2 < k := (Nat.log2_lt hn).mpr h
    exact (descend_le _ _).trans_lt (Nat.pow_lt_pow_right one_lt_two (by omega))

theorem inRange_isqrt (hbits : bitLength x ≤ bitLimit + 1) : InRange (isqrt (x * one).toNat) := by
  have hone : one.natAbs < 2 ^ 213 := by decide
  have hlimit : (bitLimit + 1 + 213) / 2 + 2 < bitLimit := by decide
  have hproduct := natAbs_mul_lt (bitLength_le_iff.mp hbits) hone
  have hlt : (x * one).toNat < 2 ^ (bitLimit + 1 + 213) := by omega
  exact (isqrt_lt hlt).trans (Nat.pow_lt_pow_right one_lt_two hlimit)

theorem inRange_sqrt? (hbits : bitLength x ≤ bitLimit + 1) (h : sqrt? x = some r) : InRange r := by
  unfold sqrt? at h
  split at h
  · cases h
  · obtain rfl := Option.some.inj h
    exact inRange_isqrt hbits

theorem one_le_twoPow (k : Nat) : 1 ≤ twoPow k := Int.ofNat_le.mpr Nat.one_le_two_pow

theorem twoPow_le_twoPow {j k : Nat} (h : j ≤ k) : twoPow j ≤ twoPow k :=
  Int.ofNat_le.mpr (Nat.pow_le_pow_right two_pos h)

theorem abs_shiftRight_le (x : Int) (k : Nat) : |x.shiftRight k| ≤ |x| := by
  have hdiv : x.shiftRight k = x / 2 ^ k := Int.shiftRight_eq_div_pow x k
  rw [hdiv, Int.abs_eq_natAbs, Int.abs_eq_natAbs]
  exact_mod_cast Int.natAbs_ediv_le_natAbs _ _

theorem abs_fineExp_le {e : Int} (hx : |x| ≤ 200 * fineOne) (h : fineExp x = some e) :
    |e| ≤ 128 * fineOne * twoPow 300 := by
  have hone := fineOne_pos
  obtain ⟨hln2, hln2_le⟩ := fineLn2_bounds
  have hsum := abs_expSeries_le ((abs_sub_tdiv_mul_lt x hln2).le.trans hln2_le)
  have hexponent : |x.tdiv fineLn2| ≤ 300 := by
    have hratio : 200 * fineOne ≤ 300 * fineLn2 := by
      have hlower := fineLn2_lower
      omega
    exact abs_tdiv_le hln2 (hx.trans hratio)
  have hbound : 128 * fineOne ≤ 128 * fineOne * twoPow 300 :=
    le_mul_of_one_le_right (by positivity) (one_le_twoPow 300)
  unfold fineExp at h
  simp only at h
  split at h
  · cases h
  · split at h
    · cases h
      exact (by positivity : (0 : Int) ≤ 128 * fineOne).trans hbound
    · cases h
      split
      · have hpos := zero_lt_one.trans_le (one_le_twoPow (x.tdiv fineLn2).toNat)
        have hle : (x.tdiv fineLn2).toNat ≤ 300 := by
          rw [abs_le] at hexponent
          omega
        rw [abs_mul, abs_of_pos hpos]
        exact mul_le_mul hsum (twoPow_le_twoPow hle) hpos.le (by positivity)
      · exact ((abs_shiftRight_le _ _).trans hsum).trans hbound

theorem abs_sign_mul_one_le (x : Int) : |x.sign * one| ≤ one := by
  rw [abs_mul, abs_of_pos one_pos]
  refine mul_le_of_le_one_left one_pos.le ?_
  rcases lt_trichotomy x 0 with hx | rfl | hx
  · rw [Int.sign_eq_neg_one_of_neg hx, abs_neg, abs_one]
  · decide
  · rw [Int.sign_eq_one_of_pos hx, abs_one]

theorem inRange_signum (x : Int) : InRange (x.sign * one) := by
  have hone : one ≤ 1 * fineOne := by decide
  exact inRange_of_abs_le_mul (by norm_num) ((abs_sign_mul_one_le x).trans hone)

theorem inRange_tanh (x : Int) : InRange (tanh x) := by
  unfold tanh
  split
  · exact inRange_signum x
  · next hsmall =>
    -- The quotient is bounded by its numerator, crudely but far below the range.
    have hx : |raise x * 2| ≤ 200 * fineOne := by
      have hunit : one * guardFactor = fineOne := by decide
      have hguard : 0 < guardFactor := by decide
      have hle : |x| ≤ 100 * one := by
        rw [Int.abs_eq_natAbs]
        exact not_lt.mp hsmall
      rw [raise, abs_mul, abs_mul, abs_of_pos hguard, abs_two, ← hunit]
      have hscaled := mul_le_mul_of_nonneg_right hle hguard.le
      linarith
    cases he : fineExp (raise x * 2) with
    | none => exact inRange_signum x
    | some e =>
      have hone := fineOne_pos
      have hlimit : 1000 < bitLimit := by decide
      have hclosed : (128 * fineOne * twoPow 300 + fineOne) * fineOne ≤ twoPow 1000 := by
        decide +kernel
      refine inRange_of_abs_le hlimit (((abs_lower_le _).trans (abs_tdiv_le_abs _ _)).trans ?_)
      rw [abs_mul, abs_of_pos hone]
      refine (mul_le_mul_of_nonneg_right ?_ hone.le).trans hclosed
      have hbound := abs_fineExp_le hx he
      calc |e - fineOne| ≤ |e| + |fineOne| := abs_sub _ _
        _ ≤ 128 * fineOne * twoPow 300 + fineOne :=
          add_le_add hbound (abs_of_pos hone).le

theorem abs_trunc_le (x : Int) : |trunc x| ≤ |x| := by
  rw [trunc, abs_mul, abs_of_pos one_pos, Int.abs_eq_natAbs, Int.abs_eq_natAbs, Int.natAbs_tdiv]
  have hone : (one.natAbs : Int) = one := Int.natAbs_of_nonneg one_pos.le
  rw [← hone]
  exact_mod_cast Nat.div_mul_le_self x.natAbs one.natAbs

theorem abs_le_ofInt_iff {k : Int} : |x| ≤ k * one ↔ |toRat x| ≤ k := by
  rw [abs_le, abs_le, ← toRat_ofInt, ← toRat_neg, toRat_le_toRat, toRat_le_toRat]

theorem abs_floor_le {k : Int} (h : |x| ≤ k * one) : |floor x| ≤ k * one := by
  rw [abs_le_ofInt_iff, abs_le] at h
  have hlow : -k ≤ ⌊toRat x⌋ := Int.le_floor.mpr (by push_cast; exact h.1)
  have hhigh : ⌊toRat x⌋ ≤ k := Int.floor_le_iff.mpr (by linarith [h.2])
  rw [abs_le_ofInt_iff, toRat_floor, abs_le]
  exact ⟨by exact_mod_cast hlow, by exact_mod_cast hhigh⟩

theorem abs_ceil_le {k : Int} (h : |x| ≤ k * one) : |ceil x| ≤ k * one := by
  rw [ceil_eq_neg_floor, abs_neg]
  exact abs_floor_le (by rwa [abs_neg])

theorem abs_nearestInt_le {r : ℚ} {k : ℤ} (h : |r| ≤ k) : |nearestInt r| ≤ k := by
  rw [abs_le] at h ⊢
  unfold nearestInt
  split
  · next hr =>
    have hhigh : ⌊r + 1 / 2⌋ < k + 1 := Int.floor_lt.mpr (by push_cast; linarith)
    have hlow : 0 ≤ ⌊r + 1 / 2⌋ := Int.floor_nonneg.mpr (by linarith)
    have hk : 0 ≤ k := by exact_mod_cast hr.trans h.2
    omega
  · next hr =>
    have hhigh : ⌊-r + 1 / 2⌋ < k + 1 := Int.floor_lt.mpr (by push_cast; linarith)
    have hlow : 0 ≤ ⌊-r + 1 / 2⌋ := Int.floor_nonneg.mpr (by linarith)
    have hk : 0 ≤ k := by
      have : (0 : ℚ) ≤ k := by linarith
      exact_mod_cast this
    omega

theorem abs_roundTo_le {k : Int} {n : Nat} (hn : n ≤ places) (h : |x| ≤ k * one) :
    |roundTo x n| ≤ k * one := by
  rw [abs_le_ofInt_iff] at h ⊢
  have hpow : (0 : ℚ) < 10 ^ n := by positivity
  have hscaled : |toRat x * 10 ^ n| ≤ ((k * 10 ^ n : ℤ) : ℚ) := by
    rw [abs_mul, abs_of_pos hpow]
    push_cast
    exact mul_le_mul_of_nonneg_right h hpow.le
  have hnearest : |((nearestInt (toRat x * 10 ^ n) : ℤ) : ℚ)| ≤ ((k * 10 ^ n : ℤ) : ℚ) := by
    exact_mod_cast abs_nearestInt_le hscaled
  rw [toRat_roundTo x hn, abs_div, abs_of_pos hpow, div_le_iff₀ hpow]
  push_cast at hnearest
  exact hnearest

end Reckoner.Decimal
