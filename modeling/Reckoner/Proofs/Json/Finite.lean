import Reckoner.Json.Numeral
import Reckoner.Proofs.Binary64.Rounding

set_option autoImplicit false

namespace Reckoner

open Binary64 (overflow minExponent maxExponent mantissaEnd)

variable {x y : Binary64} {num den n significand : ℕ} {s : Bool} {e : ℤ}

namespace Binary64

theorem canonical_zero (s : Bool) : (zero s).Canonical :=
  ⟨by decide, le_rfl, by decide, .inr rfl⟩

/-- A ratio below the halfway point to overflow becomes a number of the format. -/
theorem canonical_ofRatio (s : Bool) (hden : 0 < den) (hlt : (num / den : ℚ) < overflow) :
    (ofRatio s num den).Canonical := by
  have hpositive : (ofRatio false num den).Canonical := by
    rcases Nat.eq_zero_or_pos num with rfl | hnum
    · exact canonical_zero false
    · rcases ofRatio_spec hnum hden with ⟨hover, -⟩ | ⟨-, hnear, -⟩
      · exact absurd hlt hover.not_gt
      · exact hnear.isNearest.canonical
  cases s with
  | false => exact hpositive
  | true =>
    rw [← Bool.not_false, ofRatio_neg]
    exact hpositive.neg

theorem canonical_ofRatio_of_isFinite (hden : 0 < den)
    (hfinite : (ofRatio s num den).isFinite = true) : (ofRatio s num den).Canonical := by
  refine canonical_ofRatio s hden (lt_of_not_ge fun hover => ?_)
  have hpos : 0 < num := by
    refine Nat.pos_of_ne_zero fun hzero => ?_
    rw [hzero, Nat.cast_zero, zero_div, overflow_eq] at hover
    exact hover.not_gt (mul_pos (by norm_num) (two_zpow_pos _))
  have hinfinite : ofRatio false num den = .infinite false := by
    rcases ofRatio_spec hpos hden with ⟨-, hinfinite⟩ | ⟨hlt, -⟩
    · exact hinfinite
    · exact absurd hlt hover.not_gt
  cases s with
  | false =>
    rw [hinfinite] at hfinite
    cases hfinite
  | true =>
    rw [← Bool.not_false, ofRatio_neg, hinfinite] at hfinite
    cases hfinite

theorem Canonical.abs_lt_overflow (hx : x.Canonical) : |x.toRat| < overflow := by
  cases x with
  | infinite | nan => exact hx.elim
  | finite s m e =>
    obtain ⟨hm, -, he, -⟩ := hx
    have hm' : (m : ℚ) ≤ 2 ^ 53 - 1 := by
      rw [← cast_mantissaEnd, le_sub_iff_add_le]
      exact_mod_cast hm
    have hstep : (2 : ℚ) ^ e ≤ 2 ^ maxExponent := zpow_le_zpow_right₀ one_le_two he
    rw [abs_toRat, overflow_eq]
    calc (m : ℚ) * 2 ^ e ≤ (2 ^ 53 - 1) * 2 ^ maxExponent :=
          mul_le_mul hm' hstep (two_zpow_pos e).le (by norm_num)
      _ < (2 ^ 53 - 1 / 2) * 2 ^ maxExponent := by
          gcongr
          norm_num

end Binary64

namespace Json

theorem canonical_product (hfinite : (product x y).isFinite = true) :
    (product x y).Canonical := by
  cases x with
  | infinite | nan => cases hfinite
  | finite s m e =>
    cases y with
    | infinite | nan => cases hfinite
    | finite t k f =>
      exact Binary64.canonical_ofRatio_of_isFinite
        (Binary64.scaled_ratio (m * k) Nat.one_pos (-(e + f))).1 hfinite

theorem canonical_quotient (hx : x.Canonical) (hy : y.Canonical) (hone : 1 ≤ |y.toRat|) :
    (quotient x y).Canonical := by
  have hlt := hx.abs_lt_overflow
  cases x with
  | infinite | nan => exact hx.elim
  | finite s m e =>
    cases y with
    | infinite | nan => exact hy.elim
    | finite t k f =>
      rw [Binary64.abs_toRat] at hlt hone
      have hk : 0 < k := by
        refine Nat.pos_of_ne_zero fun hzero => ?_
        rw [hzero, Nat.cast_zero, zero_mul] at hone
        exact absurd hone (by norm_num)
      obtain ⟨hden, hratio⟩ := Binary64.scaled_ratio m hk (f - e)
      have hsmall : ((Binary64.scaled m k (f - e)).1 / (Binary64.scaled m k (f - e)).2 : ℚ) <
          overflow :=
        calc _ = (m : ℚ) * 2 ^ e / (k * 2 ^ f) := by
              have he := (Binary64.two_zpow_pos e).ne'
              rw [hratio, zpow_sub₀ two_ne_zero]
              field_simp
          _ ≤ m * 2 ^ e :=
            div_le_self (mul_nonneg (Nat.cast_nonneg m) (Binary64.two_zpow_pos e).le) hone
          _ < overflow := hlt
      exact Binary64.canonical_ofRatio (s != t) hden hsmall

theorem tenTo_lt_overflow (hn : n ≤ largestTen) : ((Nat.pow 10 n : ℕ) : ℚ) < overflow := by
  have hquarter : (10 : ℚ) ^ 77 ≤ 7 / 8 * 2 ^ 256 := by norm_num
  rw [Nat.pow_eq, Nat.cast_pow, Nat.cast_ofNat, overflow]
  calc (10 : ℚ) ^ n ≤ 10 ^ (77 * 4) := pow_le_pow_right₀ (by norm_num) hn
    _ = (10 ^ 77) ^ 4 := pow_mul ..
    _ ≤ (7 / 8 * 2 ^ 256) ^ 4 := pow_le_pow_left₀ (by positivity) hquarter 4
    _ = (7 / 8) ^ 4 * 2 ^ 54 * 2 ^ 970 := by
      rw [mul_pow, ← pow_mul, mul_assoc, ← pow_add]
    _ < (2 ^ 54 - 1) * 2 ^ 970 := by
      gcongr
      norm_num
    _ = 2 ^ 1024 - 2 ^ 970 := by rw [sub_mul, ← pow_add, one_mul]

theorem canonical_ofNat (hlt : (n : ℚ) < overflow) : (Binary64.ofNat n).Canonical :=
  Binary64.canonical_ofRatio false Nat.one_pos (by rwa [Nat.cast_one, div_one])

theorem canonical_tenTo (hn : n ≤ largestTen) : (tenTo n).Canonical :=
  canonical_ofNat (tenTo_lt_overflow hn)

theorem exists_one : ∃ y : Binary64, y.Canonical ∧ y.toRat = 1 := by
  refine ⟨.finite false (Nat.pow 2 52) (-52), ⟨by decide, by decide, by decide,
    .inl (by decide)⟩, ?_⟩
  norm_num [Binary64.toRat]

theorem one_le_tenTo (hn : n ≤ largestTen) : 1 ≤ |(tenTo n).toRat| := by
  have hpos : 0 < Nat.pow 10 n := Nat.pow_pos (by norm_num)
  have hone : (1 : ℚ) ≤ (Nat.pow 10 n : ℕ) := by exact_mod_cast hpos
  have hspec := Binary64.ofRatio_spec hpos Nat.one_pos
  rw [Nat.cast_one, div_one] at hspec
  rcases hspec with ⟨hover, -⟩ | ⟨-, hnear, -⟩
  · exact absurd (tenTo_lt_overflow hn) hover.not_gt
  · -- What is less than 1 is farther from the power than 1 is.
    obtain ⟨y, hy, hvalue⟩ := exists_one
    have hle := hnear.isNearest.nearest y hy
    rw [hvalue, abs_sub_comm 1, abs_of_nonneg (sub_nonneg.mpr hone)] at hle
    have hge := (abs_le.mp hle).1
    refine le_trans ?_ (le_abs_self _)
    change 1 ≤ (Binary64.ofRatio false (Nat.pow 10 n) 1).toRat
    linarith

theorem canonical_quotient_tenTo (hx : x.Canonical) (hn : n ≤ largestTen) :
    (quotient x (tenTo n)).Canonical :=
  canonical_quotient hx (canonical_tenTo hn) (one_le_tenTo hn)

theorem canonical_dividedByTen (hx : x.Canonical) : (dividedByTen x n).Canonical := by
  fun_induction dividedByTen x n with
  | case1 x n hn => exact canonical_quotient_tenTo hx hn
  | case2 x n hn hzero => exact hx
  | case3 x n hn hzero ih =>
    apply ih
    exact canonical_quotient_tenTo hx le_rfl

theorem canonical_scaleByTen (hs : significand < wordEnd)
    (h : scaleByTen significand e = some x) : x.Canonical := by
  have hle : significand ≤ Nat.pow 10 20 := hs.le.trans (by decide)
  have hword : (Binary64.ofNat significand).Canonical :=
    canonical_ofNat (lt_of_le_of_lt (by exact_mod_cast hle) (tenTo_lt_overflow (by decide)))
  unfold scaleByTen at h
  simp only at h
  split at h
  · cases h
    exact canonical_dividedByTen hword
  · split at h
    · split at h
      · next hfinite =>
        cases h
        exact canonical_product hfinite
      · cases h
    · split at h
      · cases h
        exact hword
      · cases h

theorem collect_lt (hs : significand < wordEnd) (ds : List Char) :
    (collect significand ds).1 < wordEnd := by
  induction ds generalizing significand with
  | nil => exact hs
  | cons d ds ih =>
    rw [collect]
    simp only
    split
    · next hnext => exact ih hnext
    · exact hs

theorem Numeral.canonical_magnitudeBinary64? {n : Numeral} (h : n.magnitudeBinary64? = some x) :
    x.Canonical := by
  have hzero : 0 < wordEnd := by decide
  have hword := collect_lt (collect_lt hzero n.whole) (n.fraction.getD [])
  unfold magnitudeBinary64? at h
  simp only at h
  split at h
  · exact canonical_scaleByTen hword h
  · split at h
    · cases h
    · cases h
      exact Binary64.canonical_zero false

/-- A numeral is read as a number of the format. -/
theorem Numeral.canonical_toBinary64? {n : Numeral} (h : n.toBinary64? = some x) :
    x.Canonical := by
  obtain ⟨y, hy, hx⟩ := Option.map_eq_some_iff.mp h
  have hcanonical := canonical_magnitudeBinary64? hy
  rw [← hx]
  split
  · exact hcanonical.neg
  · exact hcanonical

end Json

end Reckoner
