import Reckoner.Proofs.Exact.Power
import Reckoner.Proofs.Range.Functions

set_option autoImplicit false

namespace Reckoner.Decimal

variable {n p square x z : Int}

theorem abs_tdiv_mul_le (a : Int) {b : Int} (hb : 0 < b) : |a.tdiv b| * b ≤ |a| := by
  have h : |a.tdiv b * b| ≤ |a| := by
    rw [Int.abs_eq_natAbs, Int.abs_eq_natAbs, Int.natAbs_mul, Int.natAbs_tdiv]
    exact_mod_cast Nat.div_mul_le_self _ _
  rwa [abs_mul, abs_of_pos hb] at h

theorem Series.abs_sumFrom_le_first (S : Series) (hadd : ∀ t, |S.addend t| ≤ |t.power|)
    (hnext : ∀ t, 12 * |(S.next t).power| ≤ |t.power|) (turns : Nat) (t : Term) :
    11 * |S.sumFrom turns t| ≤ 12 * |t.power| := by
  induction turns generalizing t with
  | zero => simp [sumFrom]
  | succ turns ih =>
    rw [sumFrom]
    split
    · simp
    · have hsum := abs_add_le (S.addend t) (S.sumFrom turns (S.next t))
      have hfirst := hadd t
      have hrest := ih (S.next t)
      have hsmaller := hnext t
      omega

theorem abs_fineProduct_le_twelfth (h : 12 * |square| ≤ fineOne) :
    12 * |fineProduct p square| ≤ |p| := by
  have hquotient := abs_tdiv_mul_le (p * square) fineOne_pos
  rw [abs_mul] at hquotient
  refine le_of_mul_le_mul_right ?_ fineOne_pos
  calc 12 * |fineProduct p square| * fineOne
      = 12 * (|fineProduct p square| * fineOne) := mul_assoc _ _ _
    _ ≤ 12 * (|p| * |square|) := mul_le_mul_of_nonneg_left hquotient (by norm_num)
    _ = |p| * (12 * |square|) := by ring
    _ ≤ |p| * fineOne := mul_le_mul_of_nonneg_left h (abs_nonneg p)

theorem abs_fineProduct_self_le (hz : 25 * |z| ≤ 7 * fineOne) :
    12 * |fineProduct z z| ≤ fineOne := by
  have hquotient : |fineProduct z z| * fineOne ≤ |z| * |z| := by
    rw [← abs_mul]
    exact abs_tdiv_mul_le (z * z) fineOne_pos
  have hsquare : 25 * |z| * (25 * |z|) ≤ 7 * fineOne * (7 * fineOne) :=
    mul_self_le_mul_self (by positivity) hz
  have hpos := mul_pos fineOne_pos fineOne_pos
  refine le_of_mul_le_mul_right ?_ fineOne_pos
  linarith

theorem abs_artanhSeries_le_first (hz : 25 * |z| ≤ 7 * fineOne) :
    11 * |(artanhSeries z).sum| ≤ 12 * |z| :=
  (artanhSeries z).abs_sumFrom_le_first abs_divided_le
    (fun _ => abs_fineProduct_le_twelfth (abs_fineProduct_self_le hz)) Series.turnLimit ⟨1, z⟩

theorem bitLength_fineOne : bitLength fineOne = 246 := by decide

theorem exists_bitLength (hx : 0 < x) :
    ∃ l : ℕ, bitLength x = l + 1 ∧ 2 ^ l ≤ x ∧ x < 2 ^ (l + 1) := by
  have hbits : bitLength x ≠ 0 := by
    intro hzero
    have hsmall := bitLength_le_iff.mp hzero.le
    omega
  obtain ⟨l, hl⟩ := Nat.exists_eq_succ_of_ne_zero hbits
  have hlow := two_pow_le_of_bitLength (show l < bitLength x by omega)
  have hhigh := bitLength_le_iff.mp hl.le
  zify at hlow hhigh
  rw [abs_of_pos hx] at hlow hhigh
  exact ⟨l, hl, hlow, hhigh⟩

theorem exists_binaryExponent (hx : fineOne ≤ x) :
    ∃ k : ℕ, binaryExponent x = k ∧ 2 ^ (245 + k) ≤ x ∧ x < 2 ^ (246 + k) := by
  obtain ⟨l, hl, hlow, hhigh⟩ := exists_bitLength (fineOne_pos.trans_le hx)
  have hone : (2 : ℤ) ^ 245 ≤ fineOne := by decide
  have hbits : 245 ≤ l := by
    have hlt : (2 : ℤ) ^ 245 < 2 ^ (l + 1) := (hone.trans hx).trans_lt hhigh
    have := (pow_lt_pow_iff_right₀ (one_lt_two (α := ℤ))).mp hlt
    omega
  obtain ⟨k, rfl⟩ := Nat.exists_eq_add_of_le hbits
  refine ⟨k, by rw [binaryExponent, bitLength_fineOne, hl]; omega, hlow, ?_⟩
  rwa [add_right_comm] at hhigh

theorem binaryMantissa_bounds (hx : 0 < x) :
    2 ^ 245 ≤ binaryMantissa x ∧ binaryMantissa x < 2 ^ 246 := by
  obtain ⟨l, hl, hlow, hhigh⟩ := exists_bitLength hx
  have hexponent : binaryExponent x = l + 1 - 246 := by
    rw [binaryExponent, bitLength_fineOne, hl]
    omega
  rcases Nat.lt_or_ge l 245 with hsmall | hlarge
  · obtain ⟨j, hj⟩ := Nat.exists_eq_add_of_le hsmall.le
    have hshift : binaryMantissa x = x * 2 ^ j := by
      have hneg : ¬0 ≤ (l : ℤ) + 1 - 246 := by omega
      have hcount : (-((l : ℤ) + 1 - 246)).toNat = j := by omega
      simp only [binaryMantissa, hexponent, if_neg hneg, hcount, twoPow, Nat.pow_eq]
      push_cast
      rfl
    rw [hshift, hj, show 246 = l + 1 + j by omega, pow_add, pow_add]
    exact ⟨mul_le_mul_of_nonneg_right hlow (by positivity),
      mul_lt_mul_of_pos_right hhigh (by positivity)⟩
  · obtain ⟨k, rfl⟩ := Nat.exists_eq_add_of_le hlarge
    have hpos : (0 : ℤ) < 2 ^ k := by positivity
    have hshift : binaryMantissa x = x / 2 ^ k := by
      have hcast : ((245 + k : ℕ) : ℤ) + 1 - 246 = k := by omega
      simp only [binaryMantissa, hexponent, hcast, Int.natCast_nonneg, if_true, Int.toNat_natCast]
      exact Int.shiftRight_eq_div_pow x k
    rw [hshift, Int.le_ediv_iff_mul_le hpos, Int.ediv_lt_iff_lt_mul hpos, ← pow_add, ← pow_add]
    rw [add_right_comm] at hhigh
    exact ⟨hlow, hhigh⟩

theorem abs_reduced_le (hx : 0 < x) :
    25 * |fineQuotient (binaryMantissa x - fineOne) (binaryMantissa x + fineOne)| ≤
      7 * fineOne := by
  obtain ⟨hlow, hhigh⟩ := binaryMantissa_bounds hx
  generalize binaryMantissa x = m at hlow hhigh
  have hone := fineOne_pos
  have hm : 0 < m + fineOne := by linarith [show (0 : ℤ) < 2 ^ 245 by positivity]
  have hquotient := abs_tdiv_mul_le ((m - fineOne) * fineOne) hm
  rw [abs_mul, abs_of_pos hone] at hquotient
  -- The mantissa is at most 7/25 of the sum away from 1 on either side.
  have hdistance : 25 * |m - fineOne| ≤ 7 * (m + fineOne) := by
    have hleast : 18 * fineOne ≤ 32 * 2 ^ 245 := by decide
    have hmost : 18 * 2 ^ 246 ≤ 32 * fineOne := by decide
    rw [← abs_of_pos (show (0 : ℤ) < 25 by norm_num), ← abs_mul, abs_le]
    constructor <;> linarith
  refine le_of_mul_le_mul_right ?_ hm
  calc 25 * |fineQuotient (m - fineOne) (m + fineOne)| * (m + fineOne)
      = 25 * (|fineQuotient (m - fineOne) (m + fineOne)| * (m + fineOne)) := mul_assoc _ _ _
    _ ≤ 25 * (|m - fineOne| * fineOne) := mul_le_mul_of_nonneg_left hquotient (by norm_num)
    _ = 25 * |m - fineOne| * fineOne := (mul_assoc _ _ _).symm
    _ ≤ 7 * (m + fineOne) * fineOne := mul_le_mul_of_nonneg_right hdistance hone.le
    _ = 7 * fineOne * (m + fineOne) := by ring

theorem fineOne_le_fineLn (hx : 2 * fineOne ≤ x) : fineOne ≤ 13 * fineLn x := by
  have hone := fineOne_pos
  have hz := abs_reduced_le (by linarith : 0 < x)
  have hseries := abs_artanhSeries_le_first hz
  have hsum := neg_abs_le (artanhSeries
    (fineQuotient (binaryMantissa x - fineOne) (binaryMantissa x + fineOne))).sum
  have hexponent : 1 ≤ binaryExponent x := by
    obtain ⟨k, hk, -, hhigh⟩ := exists_binaryExponent (by linarith : fineOne ≤ x)
    rw [hk]
    by_contra hzero
    obtain rfl : k = 0 := by omega
    have hlarge : (2 : ℤ) ^ (246 + 0) ≤ 2 * fineOne := by decide
    linarith
  have hln2 : fineLn2 ≤ fineLn2 * binaryExponent x :=
    le_mul_of_one_le_right fineLn2_bounds.1.le hexponent
  have hlower := fineLn2_lower
  rw [fineLn]
  linarith

theorem fineProduct_whole (n : Int) (l : Int) : fineProduct (raise (n * one)) l = n * l := by
  have hsplit : raise (n * one) * l = n * l * fineOne := by
    rw [← raise_one, raise, raise]
    ring
  rw [fineProduct, hsplit, Int.mul_tdiv_cancel _ fineOne_pos.ne']

theorem realPower_beyond (hx : 2 * one ≤ x) (hn : 2 ^ 63 ≤ n) :
    realPower x (n * one) = .posInf ∧ realPower x (-n * one) = .zero := by
  have hne : x ≠ 0 := by
    have := Decimal.one_pos
    omega
  have hln : fineOne ≤ 13 * fineLn (raise x) := by
    refine fineOne_le_fineLn ?_
    rw [← raise_one, raise, raise, ← mul_assoc]
    exact mul_le_mul_of_nonneg_right hx guardFactor_pos.le
  have hlimit : expLimit * fineOne < n * fineLn (raise x) := by
    have hprod : 2 ^ 63 * fineOne ≤ n * (13 * fineLn (raise x)) :=
      mul_le_mul hn hln fineOne_pos.le (by linarith)
    have hbound : 13 * (expLimit * fineOne) < 2 ^ 63 * fineOne := by decide
    linarith
  constructor
  · rw [realPower, if_neg hne, fineProduct_whole, fineExp, if_pos hlimit]
  · have hpos : 0 < expLimit * fineOne := by decide
    rw [realPower, if_neg hne, fineProduct_whole, fineExp, if_neg (by linarith),
      if_pos (by linarith)]
    rfl

end Reckoner.Decimal
