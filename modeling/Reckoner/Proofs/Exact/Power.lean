import Reckoner.Decimal.Power
import Reckoner.Proofs.Exact.Arithmetic

set_option autoImplicit false

namespace Reckoner.Decimal

variable {a b v w x y : Int} {r : ℚ} {n : ℕ}

theorem toRat_one : toRat one = 1 := div_self one_ne_zero

theorem exists_toRat_iff : (∃ p : ℤ, toRat p = r) ↔ r.den ∣ 10 ^ places := by
  have hone : one = ((10 ^ places : ℕ) : ℤ) := rfl
  constructor
  · rintro ⟨p, rfl⟩
    have hden := Rat.den_dvd p one
    rw [hone] at hden
    rw [toRat, hone]
    exact_mod_cast hden
  · rintro ⟨k, hk⟩
    refine ⟨r.num * k, ?_⟩
    have hden : (r.den : ℚ) ≠ 0 := by exact_mod_cast r.den_ne_zero
    have hone' : (one : ℚ) = r.den * k := by
      rw [hone, hk]
      push_cast
      rfl
    have hk' : (k : ℚ) ≠ 0 := by
      intro hzero
      exact one_ne_zero (by rw [hone', hzero, mul_zero])
    rw [toRat, hone', Int.cast_mul, Int.cast_natCast, mul_div_mul_right _ _ hk', Rat.num_div_den]

theorem two_pow_le_one : 2 ^ 212 ≤ one.natAbs := by decide

theorem one_lt_two_pow : one.natAbs < 2 ^ 213 := by decide

theorem inRange_one : InRange one := inRange_of_natAbs_lt one_lt_two_pow (by decide)

theorem inRange_of_le (h : a.natAbs ≤ b.natAbs) (hb : InRange b) : InRange a := h.trans_lt hb

theorem natAbs_le_of_toRat (ha : 0 ≤ toRat a) (h : toRat a ≤ toRat b) :
    a.natAbs ≤ b.natAbs := by
  rw [toRat_nonneg_iff] at ha
  rw [toRat_le_toRat] at h
  omega

/-- Whether all powers up to the given one are on the grid and within the range. -/
def PowersOnGrid (r : ℚ) (n : ℕ) : Prop := ∀ k ≤ n, ∃ p : ℤ, toRat p = r ^ k ∧ InRange p

theorem powersOnGrid (hr : 0 ≤ r) (h : r ^ n = toRat w) (hw : InRange w) : PowersOnGrid r n := by
  intro k hk
  have hgrid : (r ^ n).den ∣ 10 ^ places := exists_toRat_iff.mp ⟨w, h.symm⟩
  rw [Rat.den_pow] at hgrid
  have hpower : (r ^ k).den ∣ 10 ^ places := by
    rw [Rat.den_pow]
    exact (pow_dvd_pow r.den hk).trans hgrid
  obtain ⟨p, hp⟩ := exists_toRat_iff.mpr hpower
  have hnonneg : 0 ≤ toRat p := by
    rw [hp]
    exact pow_nonneg hr k
  refine ⟨p, hp, ?_⟩
  rcases le_total r 1 with hsmall | hlarge
  · have hle : toRat p ≤ toRat one := by
      rw [hp, toRat_one]
      exact pow_le_one₀ hr hsmall
    exact inRange_of_le (natAbs_le_of_toRat hnonneg hle) inRange_one
  · have hle : toRat p ≤ toRat w := by
      rw [hp, ← h]
      exact pow_le_pow_right₀ hlarge hk
    exact inRange_of_le (natAbs_le_of_toRat hnonneg hle) hw

theorem guardFactor_pos : 0 < guardFactor := by decide

theorem raise_one : raise one = fineOne := by decide

theorem lower_raise (a : Int) : lower (raise a) = a := Int.mul_tdiv_cancel a guardFactor_pos.ne'

theorem fineProduct_raise (h : toRat a * toRat b = toRat v) :
    fineProduct (raise a) (raise b) = raise v := by
  have hproduct := toRat_mul_eq_iff.mp h
  have hsplit : raise a * raise b = raise v * fineOne := by
    rw [← raise_one]
    unfold raise
    linear_combination (guardFactor * guardFactor) * hproduct
  rw [fineProduct, hsplit, Int.mul_tdiv_cancel _ (by decide)]

theorem fineOverflow_of_lower (h : InRange (lower a)) : fineOverflow a = false := by
  have hguard : guardFactor.natAbs < 2 ^ bitLength guardFactor := bitLength_le_iff.mp le_rfl
  have hbits : a.natAbs < 2 ^ (bitLimit + bitLength guardFactor) := by
    rw [InRange, lower, Int.natAbs_tdiv] at h
    calc a.natAbs < guardFactor.natAbs * (a.natAbs / guardFactor.natAbs + 1) :=
          Nat.lt_mul_div_succ _ (by decide)
      _ ≤ guardFactor.natAbs * 2 ^ bitLimit := Nat.mul_le_mul_left _ h
      _ ≤ 2 ^ bitLength guardFactor * 2 ^ bitLimit := Nat.mul_le_mul_right _ hguard.le
      _ = 2 ^ (bitLimit + bitLength guardFactor) := by rw [← pow_add, add_comm]
  rw [fineOverflow, decide_eq_false_iff_not, Nat.not_lt]
  exact bitLength_le_iff.mpr hbits

theorem fineOverflow_raise (h : InRange a) : fineOverflow (raise a) = false :=
  fineOverflow_of_lower (by rwa [lower_raise])

theorem accumulate_exact (hgrid : PowersOnGrid r n) {m i j : ℕ} (hle : i + j * (m % 2) ≤ n)
    (ha : toRat a = r ^ i) (hb : toRat b = r ^ j) :
    ∃ c, (if m % 2 = 1 then fineProduct (raise a) (raise b) else raise a) = raise c ∧
      toRat c = r ^ (i + j * (m % 2)) ∧ InRange c := by
  obtain ⟨c, hc, hrange⟩ := hgrid _ hle
  refine ⟨c, ?_, hc, hrange⟩
  rcases Nat.mod_two_eq_zero_or_one m with heven | hodd
  · rw [heven, mul_zero, add_zero, ← ha, toRat_inj] at hc
    rw [if_neg (by omega), hc]
  · have hproduct : toRat a * toRat b = toRat c := by rw [hc, ha, hb, hodd, mul_one, pow_add]
    rw [if_pos hodd, fineProduct_raise hproduct]

/-- The accumulator and the square are powers of the base whose exponents make up the whole one. -/
theorem binaryPower_exact (hgrid : PowersOnGrid r n) (m i j : ℕ) (hm : m ≠ 0)
    (hsum : i + j * m = n) (ha : toRat a = r ^ i) (hb : toRat b = r ^ j) :
    ∃ w, binaryPower (raise a) (raise b) m = some (raise w) ∧ toRat w = r ^ n := by
  induction m using Nat.strong_induction_on generalizing i j a b with
  | _ m ih =>
    -- What the accumulator takes now and what is left to the square make up the exponent.
    have hrest : i + j * (m % 2) + 2 * j * (m / 2) = n := by
      have hhalves : j * (m % 2 + 2 * (m / 2)) = j * m := by rw [Nat.mod_add_div]
      linarith
    have hle : i + j * (m % 2) ≤ n := by omega
    obtain ⟨c, hc, hvalue, hrange⟩ := accumulate_exact hgrid hle ha hb
    rw [binaryPower]
    simp only [hc, fineOverflow_raise hrange, Bool.false_eq_true, and_false, if_false]
    split
    · next hlast =>
      rw [hlast, mul_zero, add_zero] at hrest
      exact ⟨c, rfl, by rw [hvalue, hrest]⟩
    · next hmore =>
      have hle : 2 * j ≤ 2 * j * (m / 2) := Nat.le_mul_of_pos_right _ (Nat.pos_of_ne_zero hmore)
      obtain ⟨s, hs, hsrange⟩ := hgrid (2 * j) (by omega)
      have hsquare : toRat b * toRat b = toRat s := by rw [hb, hs, ← pow_add, two_mul]
      rw [fineProduct_raise hsquare, fineOverflow_raise hsrange, if_neg Bool.false_ne_true]
      exact ih (m / 2) (by omega) _ _ hmore hrest hvalue hs

theorem two_pow_le_of_bitLength {k : ℕ} (h : k < bitLength a) : 2 ^ k ≤ a.natAbs := by
  by_contra hlt
  have := bitLength_le_iff.mpr (Nat.lt_of_not_le hlt)
  omega

theorem two_pow_le_toRat {e : ℕ} (ha : 0 ≤ a) (h : e + 213 < bitLength a) :
    (2 : ℚ) ^ e ≤ toRat a := by
  have hone : (0 : ℚ) < one := by exact_mod_cast Decimal.one_pos
  have hlow : 2 ^ (e + 213) ≤ a.natAbs := two_pow_le_of_bitLength h
  have hprod : 2 ^ e * one.natAbs ≤ a.natAbs := by
    rw [pow_add] at hlow
    exact (Nat.mul_le_mul_left _ one_lt_two_pow.le).trans hlow
  zify at hprod
  rw [abs_of_nonneg ha, abs_of_nonneg Decimal.one_pos.le] at hprod
  rw [toRat, le_div_iff₀ hone]
  exact_mod_cast hprod

theorem lt_bitLimit_of_two_pow_le {e : ℕ} (h : (2 : ℚ) ^ e ≤ toRat w) (hw : InRange w) :
    e + 212 < bitLimit := by
  have hone : (0 : ℚ) < one := by exact_mod_cast Decimal.one_pos
  rw [toRat, le_div_iff₀ hone] at h
  have hint : 2 ^ e * one ≤ w := by exact_mod_cast h
  have hnat : 2 ^ e * one.natAbs ≤ w.natAbs := by
    zify
    rw [abs_of_nonneg Decimal.one_pos.le]
    exact hint.trans (le_abs_self w)
  have hlow : 2 ^ (e + 212) ≤ w.natAbs := by
    rw [pow_add]
    exact (Nat.mul_le_mul_left _ two_pow_le_one).trans hnat
  exact (Nat.pow_lt_pow_iff_right Nat.one_lt_two).mp (hlow.trans_lt hw)

theorem bitLength_one : bitLength one = 213 := by decide

theorem bitLength_natAbs (a : Int) : bitLength a.natAbs = bitLength a := by
  simp only [bitLength, Int.natAbs_natCast, Int.natCast_eq_zero, Int.natAbs_eq_zero]

theorem surelyInfinite_eq_false (hn : n ≠ 0) (h : toRat x.natAbs ^ n = toRat w)
    (hw : InRange w) : surelyInfinite x n = false := by
  by_contra htrue
  have hpos : (0 : ℤ) < n := by omega
  simp only [surelyInfinite, hpos, if_true, Bool.not_eq_false, decide_eq_true_eq, bitLength_one,
    Int.natAbs_natCast] at htrue
  obtain ⟨hlarge, hlimit⟩ := htrue
  -- The base is at least 2 ^ e, so that the power would have more bits than the range allows.
  obtain ⟨e, he⟩ : ∃ e : ℕ, (bitLength x : ℤ) = e + 214 := ⟨bitLength x - 214, by omega⟩
  have hbase : (2 : ℚ) ^ e ≤ toRat x.natAbs :=
    two_pow_le_toRat (Int.natCast_nonneg _) (by rw [bitLength_natAbs]; omega)
  have hpower : (2 : ℚ) ^ (e * n) ≤ toRat w := by
    rw [← h, pow_mul]
    exact pow_le_pow_left₀ (by positivity) hbase n
  have hbound := lt_bitLimit_of_two_pow_le hpower hw
  have hexponent : (bitLength x : ℤ) - (213 : ℕ) - 1 = e := by omega
  rw [hexponent] at hlimit
  have hlimit' : (33220 : ℤ) < (e * n : ℕ) := by
    push_cast
    exact hlimit
  have hbits : bitLimit = 33432 := rfl
  omega

theorem tmod_two_ne_zero_iff (n : ℕ) : (n : ℤ).tmod 2 ≠ 0 ↔ n % 2 ≠ 0 := by
  rw [Int.tmod_eq_emod_of_nonneg (Int.natCast_nonneg n)]
  omega

theorem toRat_pow_eq (x : Int) (n : ℕ) : toRat x ^ n =
    if x < 0 ∧ n % 2 ≠ 0 then -toRat x.natAbs ^ n else toRat x.natAbs ^ n := by
  rw [toRat_natAbs]
  rcases Nat.mod_two_eq_zero_or_one n with heven | hodd
  · rw [if_neg (by omega), Even.pow_abs (Nat.even_iff.mpr heven)]
  · by_cases hx : x < 0
    · have hneg : toRat x < 0 := by
        rw [← toRat_eq_zero_iff.mpr rfl, toRat_lt_toRat]
        exact hx
      rw [if_pos (by omega), abs_of_neg hneg, Odd.neg_pow (Nat.odd_iff.mpr hodd), neg_neg]
    · have hnonneg : 0 ≤ toRat x := toRat_nonneg_iff.mpr (by omega)
      rw [if_neg (by omega), abs_of_nonneg hnonneg]

theorem exists_magnitude (h : toRat x ^ n = toRat v) (hv : InRange v) :
    ∃ w, toRat x.natAbs ^ n = toRat w ∧ InRange w ∧
      v = if x < 0 ∧ n % 2 ≠ 0 then -w else w := by
  rw [toRat_pow_eq] at h
  split at h
  · next hneg =>
    refine ⟨-v, ?_, inRange_neg_iff.mpr hv, by rw [if_pos hneg, neg_neg]⟩
    rw [toRat_neg, ← h, neg_neg]
  · next hpos => exact ⟨v, h, hv, by rw [if_neg hpos]⟩

theorem wholePower_exact (h : toRat x ^ n = toRat v) (hv : InRange v) :
    wholePower x n = .finite v := by
  have hzero : toRat 0 = 0 := toRat_eq_zero_iff.mpr rfl
  unfold wholePower
  by_cases hn : n = 0
  · rw [hn, pow_zero, ← toRat_one, toRat_inj] at h
    rw [if_pos (by omega), ← h]
    rfl
  have hpos : (0 : ℤ) < n := by omega
  rw [if_neg (by omega)]
  by_cases hx : x = 0
  · rw [hx, hzero, zero_pow hn, ← hzero, toRat_inj] at h
    rw [if_pos hx, if_pos hpos, ← h]
    rfl
  obtain ⟨w, hmagnitude, hrange, hsign⟩ := exists_magnitude h hv
  have hgrid : PowersOnGrid (toRat x.natAbs) n :=
    powersOnGrid (toRat_nonneg_iff.mpr (Int.natCast_nonneg _)) hmagnitude hrange
  obtain ⟨p, hp, hpw⟩ := binaryPower_exact hgrid n 0 1 hn (by omega)
    (toRat_one.trans (pow_zero _).symm) (pow_one _).symm
  rw [hmagnitude, toRat_inj] at hpw
  rw [raise_one, hpw] at hp
  have hnot : ¬(n : ℤ) < 0 := by omega
  rw [if_neg hx, surelyInfinite_eq_false hn hmagnitude hrange]
  simp only [Bool.false_eq_true, if_false, hnot, false_and, decide_false, Int.natAbs_natCast, hp,
    lower_raise]
  simp only [tmod_two_ne_zero_iff, decide_eq_true_eq]
  rw [← hsign, saturate_of_inRange hv]

theorem den_eq_one_of_pow (hn : 213 ≤ n) (h : toRat a ^ n = toRat w) : (toRat a).den = 1 := by
  have hgrid : (toRat a ^ n).den ∣ 10 ^ places := exists_toRat_iff.mp ⟨w, h.symm⟩
  rw [Rat.den_pow] at hgrid
  by_contra hden
  have htwo : 2 ≤ (toRat a).den := by
    have := (toRat a).den_pos
    omega
  have hlarge : 2 ^ n ≤ (toRat a).den ^ n := Nat.pow_le_pow_left htwo n
  have hsmall : (toRat a).den ^ n < 2 ^ 213 :=
    (Nat.le_of_dvd (by decide) hgrid).trans_lt one_lt_two_pow
  have := (Nat.pow_lt_pow_iff_right Nat.one_lt_two).mp (hlarge.trans_lt hsmall)
  omega

theorem lt_two_of_pow (hn : bitLimit ≤ n) (h : toRat a ^ n = toRat w) (hw : InRange w) :
    toRat a < 2 := by
  by_contra hlarge
  have hpower : (2 : ℚ) ^ n ≤ toRat w := by
    rw [← h]
    exact pow_le_pow_left₀ zero_le_two (not_lt.mp hlarge) n
  have := lt_bitLimit_of_two_pow_le hpower hw
  omega

/-- A base that such a power keeps on the grid and within the range is 0 or 1. -/
theorem eq_zero_or_one_of_pow (ha : 0 ≤ a) (hn : bitLimit ≤ n) (h : toRat a ^ n = toRat w)
    (hw : InRange w) : a = 0 ∨ a = one := by
  have hbits : 213 ≤ bitLimit := by decide
  have hwhole := den_eq_one_of_pow (hbits.trans hn) h
  have hlow := toRat_nonneg_iff.mpr ha
  have hhigh := lt_two_of_pow hn h hw
  rw [eq_num_mul_one hwhole]
  rw [← (Rat.den_eq_one_iff _).mp hwhole] at hlow hhigh
  generalize (toRat a).num = k at hlow hhigh
  have hlow' : 0 ≤ k := by exact_mod_cast hlow
  have hhigh' : k < 2 := by exact_mod_cast hhigh
  rcases (by omega : k = 0 ∨ k = 1) with rfl | rfl
  · exact .inl (zero_mul one)
  · exact .inr (one_mul one)

theorem sum_artanhSeries_zero : (artanhSeries 0).sum = 0 := by
  rfl

theorem fineLn_fineOne : fineLn fineOne = 0 := by
  have hexponent : binaryExponent fineOne = 0 := Int.sub_self _
  have hmantissa : binaryMantissa fineOne = fineOne := by
    simp only [binaryMantissa, hexponent]
    decide
  simp only [fineLn, hmantissa, hexponent, Int.sub_self, fineQuotient, Int.zero_mul,
    Int.zero_tdiv, sum_artanhSeries_zero, Int.mul_zero, Int.add_zero]

theorem sum_expSeries_zero : (expSeries 0).sum = fineOne := by
  decide

theorem fineExp_zero : fineExp 0 = some fineOne := by
  have hlow : ¬expLimit * fineOne < 0 := by decide
  have hhigh : ¬(0 : ℤ) < -(expLimit * fineOne) := by decide
  simp only [fineExp, if_neg hlow, if_neg hhigh, Int.zero_tdiv, Int.zero_mul, Int.sub_zero,
    sum_expSeries_zero]
  simp [twoPow]

theorem realPower_one (y : Int) : realPower one y = .one := by
  have hzero : fineProduct (raise y) 0 = 0 := by
    simp [fineProduct]
  unfold realPower
  rw [if_neg Decimal.one_pos.ne', raise_one, fineLn_fineOne, hzero, fineExp_zero]
  change Number.saturate (lower fineOne) = _
  rw [← raise_one, lower_raise, saturate_of_inRange inRange_one]
  rfl

theorem realPower_exact (hx : 0 ≤ x) (hn : bitLimit ≤ n) (h : toRat x ^ n = toRat v)
    (hv : InRange v) : realPower x (n * one) = .finite v := by
  have hpos : 0 < bitLimit := by decide
  rcases eq_zero_or_one_of_pow hx hn h hv with rfl | rfl
  · have hzero : toRat 0 = 0 := toRat_eq_zero_iff.mpr rfl
    rw [hzero, zero_pow (by omega), ← hzero, toRat_inj] at h
    have hy : (0 : ℤ) < n * one := Int.mul_pos (by omega) Decimal.one_pos
    rw [realPower, if_pos rfl, if_pos hy, ← h]
    rfl
  · rw [toRat_one, one_pow, ← toRat_one, toRat_inj] at h
    rw [realPower_one, ← h]
    rfl

theorem isOddWhole_mul_one (n : ℤ) : isOddWhole (n * one) = decide (n.tmod 2 ≠ 0) := by
  simp only [isOddWhole, isWhole_mul_one, mul_one_tdiv_one, Bool.true_and]

theorem wholeWord?_mul_one (n : ℤ) :
    wholeWord? (n * one) = some n ∨ wholeWord? (n * one) = none ∧ 2 ^ 63 ≤ n.natAbs := by
  simp only [wholeWord?, mul_one_tdiv_one]
  split
  · exact .inl rfl
  · exact .inr ⟨rfl, by omega⟩

theorem bitLimit_le_word : bitLimit ≤ 2 ^ 63 := by decide

theorem pow_natCast_exact (h : toRat x ^ n = toRat v) (hv : InRange v) :
    pow x (n * one) = .ok (.finite v) := by
  rw [pow, if_pos (isWhole_mul_one n)]
  rcases wholeWord?_mul_one n with hword | ⟨hword, hlarge⟩
  · simp only [hword, wholePower_exact h hv]
  have hn : bitLimit ≤ n := bitLimit_le_word.trans hlarge
  by_cases hx : x < 0
  · obtain ⟨w, hmagnitude, hrange, hsign⟩ := exists_magnitude h hv
    have habs : -x = x.natAbs := by omega
    simp only [hx, true_and] at hsign
    simp only [hword, if_pos hx, habs, isOddWhole_mul_one, tmod_two_ne_zero_iff,
      decide_eq_true_eq, hsign,
      realPower_exact (Int.natCast_nonneg _) hn hmagnitude hrange]
    split <;> rfl
  · simp only [hword, if_neg hx, realPower_exact (Int.not_lt.mp hx) hn h hv]

theorem pow_exact (h : exactPower? (toRat x) (toRat y) = some (toRat v)) (hv : InRange v) :
    pow x y = .ok (.finite v) := by
  unfold exactPower? at h
  split at h
  · next hy =>
    have hint := eq_num_mul_one hy.1
    have hnum : 0 ≤ (toRat y).num := Rat.num_nonneg.mpr hy.2
    generalize (toRat y).num = k at hint hnum h
    obtain ⟨n, rfl⟩ := Int.eq_ofNat_of_zero_le hnum
    rw [Int.toNat_natCast, Option.some_inj] at h
    rw [hint, pow_natCast_exact h hv]
  · cases h

end Reckoner.Decimal
