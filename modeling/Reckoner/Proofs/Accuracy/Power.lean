import Reckoner.Proofs.Accuracy.Squaring

set_option autoImplicit false

namespace Reckoner.Decimal

variable {a b n p x : ℤ} {m : ℕ}

/-- How near a magnitude comes to a power of `n` factors: to two units of the grid and two parts in
10^74 for each factor, from below when `n` is positive. It is +∞ only for a power beyond the
range. -/
def NearPower (n : ℤ) (whole : ℚ) (v : Number) : Prop :=
  (∃ w, v = .finite w ∧ 0 ≤ w ∧
    |toRat w - whole| ≤ 2 / 10 ^ 64 + 2 * |n| / 10 ^ 74 * max 1 whole ∧
    (0 < n → toRat w ≤ whole)) ∨
  v = .posInf ∧ 2 ^ bitLimit ≤ whole * 10 ^ 64

variable {whole : ℚ}

theorem beyond_of_fine (h : 2 ^ (bitLimit + 34) ≤ whole * fineOne) :
    2 ^ bitLimit ≤ whole * 10 ^ 64 := by
  have hguard : (10 : ℚ) ^ 10 ≤ 2 ^ 34 := by norm_num
  have hpos : 0 < whole := by
    by_contra hneg
    have hlarge := mul_nonpos_of_nonpos_of_nonneg (not_lt.mp hneg) cast_fineOne_pos.le
    linarith [pow_pos (two_pos (α := ℚ)) (bitLimit + 34)]
  refine le_of_mul_le_mul_right ?_ (pow_pos (two_pos (α := ℚ)) 34)
  calc (2 : ℚ) ^ bitLimit * 2 ^ 34 = 2 ^ (bitLimit + 34) := (pow_add _ _ _).symm
    _ ≤ whole * fineOne := h
    _ = whole * 10 ^ 64 * 10 ^ 10 := by rw [cast_fineOne]; ring
    _ ≤ whole * 10 ^ 64 * 2 ^ 34 := mul_le_mul_of_nonneg_left hguard (by positivity)

theorem ten_pow_lt : (10 : ℚ) ^ 64 < 2 ^ 213 := by norm_num

theorem ten_pow_lt_range : (10 : ℚ) ^ 64 < 2 ^ bitLimit :=
  ten_pow_lt.trans_le (pow_le_pow_right₀ one_le_two (by decide))

theorem nearPower_of_fine (hp : 0 ≤ p) (hle : fineRat p ≤ max 1 whole)
    (hbelow : 0 < n → fineRat p ≤ whole)
    (hnear : |fineRat p - whole| ≤ 2 * |n| * fineUnit * max 1 whole) :
    NearPower n whole (Number.saturate (lower p)) := by
  rcases saturate_lower hp with hv | ⟨hv, hlarge⟩
  · refine .inl ⟨_, hv, lower_nonneg hp, ?_, fun hn => (toRat_lower_le hp).trans (hbelow hn)⟩
    have htriangle := abs_sub_le (toRat (lower p)) (fineRat p) whole
    have hlower := abs_toRat_lower_sub p
    rw [fineUnit_eq, mul_one_div] at hnear
    linarith [show (1 : ℚ) / 10 ^ 64 ≤ 2 / 10 ^ 64 by norm_num]
  · refine .inr ⟨hv, ?_⟩
    have hmax : (2 : ℚ) ^ bitLimit ≤ max 1 whole * 10 ^ 64 :=
      hlarge.trans (mul_le_mul_of_nonneg_right hle (by positivity))
    rcases max_choice 1 whole with hone | hwhole
    · rw [hone, one_mul] at hmax
      exact absurd hmax ten_pow_lt_range.not_ge
    · rwa [hwhole] at hmax

theorem nearPower_of_power (hp : 0 ≤ p) (hle : fineRat p ≤ whole)
    (hge : whole - 2 * |n| * fineUnit * max 1 whole ≤ fineRat p) :
    NearPower n whole (Number.saturate (lower p)) := by
  have hslack : 0 ≤ 2 * |n| * fineUnit * max 1 whole := by
    have := fineUnit_pos
    positivity
  refine nearPower_of_fine hp (hle.trans (le_max_right 1 whole)) (fun _ => hle) ?_
  rw [abs_le]
  constructor <;> linarith

theorem toRat_natAbs_mul_two_pow_le {j : ℕ} (h : bitLength x + j ≤ 212) :
    toRat x.natAbs * 2 ^ j ≤ 1 := by
  have hone : (0 : ℚ) < one := by exact_mod_cast one_pos
  have hsmall : x.natAbs * 2 ^ j ≤ one.natAbs := by
    calc x.natAbs * 2 ^ j ≤ 2 ^ bitLength x * 2 ^ j :=
          Nat.mul_le_mul_right _ (bitLength_le_iff.mp le_rfl).le
      _ = 2 ^ (bitLength x + j) := (pow_add _ _ _).symm
      _ ≤ 2 ^ 212 := Nat.pow_le_pow_right Nat.two_pos h
      _ ≤ one.natAbs := two_pow_le_one
  zify at hsmall
  rw [abs_of_pos one_pos] at hsmall
  rw [toRat, Int.natCast_natAbs, div_mul_eq_mul_div, div_le_one hone]
  exact_mod_cast hsmall

theorem two_pow_le_of_surelyInfinite (h : surelyInfinite x m = true) :
    2 ^ (logLimit.toNat + 1) ≤ toRat x.natAbs ^ m := by
  have hm : 0 < (m : ℤ) := by
    by_contra hzero
    obtain rfl : m = 0 := by omega
    simp [surelyInfinite, logLimit] at h
  simp only [surelyInfinite, bitLength_one, if_pos hm, decide_eq_true_eq, Int.natAbs_natCast] at h
  obtain ⟨hlarge, hlimit⟩ := h
  obtain ⟨e, he⟩ : ∃ e : ℕ, (bitLength x : ℤ) - (213 : ℕ) - 1 = e :=
    ⟨bitLength x - 214, by omega⟩
  have hbase : (2 : ℚ) ^ e ≤ toRat x.natAbs :=
    two_pow_le_toRat (Int.natCast_nonneg _) (by rw [bitLength_natAbs]; omega)
  have hexponent : logLimit.toNat + 1 ≤ e * m := by
    rw [he] at hlimit
    zify
    exact hlimit
  calc (2 : ℚ) ^ (logLimit.toNat + 1) ≤ 2 ^ (e * m) := pow_le_pow_right₀ one_le_two hexponent
    _ = (2 ^ e) ^ m := pow_mul _ _ _
    _ ≤ toRat x.natAbs ^ m := pow_le_pow_left₀ (by positivity) hbase m

theorem two_pow_le_of_surelyInfinite_neg (hx : x ≠ 0) (h : surelyInfinite x (-m) = true) :
    2 ^ (logLimit.toNat + 1) ≤ (toRat x.natAbs)⁻¹ ^ m := by
  have hm : ¬0 < -(m : ℤ) := by omega
  have hpos : 0 < toRat x.natAbs := by
    rw [toRat_natAbs]
    exact abs_pos.mpr (mt toRat_eq_zero_iff.mp hx)
  simp only [surelyInfinite, bitLength_one, if_neg hm, decide_eq_true_eq, Int.natAbs_neg,
    Int.natAbs_natCast] at h
  obtain ⟨hsmall, hlimit⟩ := h
  obtain ⟨j, hj⟩ : ∃ j : ℕ, -((bitLength x : ℤ) - (213 : ℕ)) - 1 = j :=
    ⟨212 - bitLength x, by omega⟩
  have hbase : (2 : ℚ) ^ j ≤ (toRat x.natAbs)⁻¹ := by
    have h := toRat_natAbs_mul_two_pow_le (x := x) (j := j) (by omega)
    rwa [le_inv_comm₀ (by positivity) hpos, ← one_div, le_div_iff₀ (by positivity)]
  have hexponent : logLimit.toNat + 1 ≤ j * m := by
    rw [hj] at hlimit
    zify
    exact hlimit
  calc (2 : ℚ) ^ (logLimit.toNat + 1) ≤ 2 ^ (j * m) := pow_le_pow_right₀ one_le_two hexponent
    _ = (2 ^ j) ^ m := pow_mul _ _ _
    _ ≤ (toRat x.natAbs)⁻¹ ^ m := pow_le_pow_left₀ (by positivity) hbase m

theorem beyond_of_logLimit (h : 2 ^ (logLimit.toNat + 1) ≤ whole) :
    2 ^ bitLimit ≤ whole * 10 ^ 64 := by
  have hunits : (2 : ℚ) ^ 212 ≤ 10 ^ 64 := by norm_num
  calc (2 : ℚ) ^ bitLimit ≤ 2 ^ (logLimit.toNat + 1 + 212) :=
        pow_le_pow_right₀ one_le_two (by decide)
    _ = 2 ^ (logLimit.toNat + 1) * 2 ^ 212 := pow_add _ _ _
    _ ≤ whole * 10 ^ 64 := mul_le_mul h hunits (by positivity) ((pow_nonneg zero_le_two _).trans h)

theorem fineRat_raise_natAbs (x : ℤ) : fineRat (raise x.natAbs) = |toRat x| := by
  rw [fineRat_raise, toRat_natAbs]

theorem raise_natAbs_pos (hx : x ≠ 0) : 0 < raise x.natAbs :=
  mul_pos (Int.natCast_pos.mpr (Int.natAbs_pos.mpr hx)) guardFactor_pos

theorem powerFromOne_whole (hb : fineOne ≤ b) (m : ℕ) :
    PowerFromOne (binaryPower fineOne b m) (fineRat b ^ m) (fineRat b ^ m * keptShare ^ m) := by
  have h := powerFromOne_binaryPower m le_rfl hb
  rwa [fineRat_fineOne, one_mul, one_mul, mul_pow] at h

theorem nearPower_of_fromOne {q : Option ℤ} (hn : n.natAbs = m)
    (h : PowerFromOne q whole (whole * keptShare ^ (2 * m))) :
    NearPower n whole (q.elim .posInf fun p => Number.saturate (lower p)) := by
  rcases h with ⟨p, rfl, hone, hle, hge⟩ | ⟨rfl, hlarge⟩
  · have hwhole : 1 ≤ whole := (one_le_fineRat_iff.mpr hone).trans hle
    have hkept := mul_le_mul_of_nonneg_left (keptShare_pow_ge (2 * m)) (zero_le_one.trans hwhole)
    have habs : ((|n| : ℤ) : ℚ) = m := by rw [Int.abs_eq_natAbs, hn, Int.cast_natCast]
    refine nearPower_of_power (fineOne_pos.le.trans hone) hle ?_
    rw [max_eq_right hwhole, habs]
    push_cast at hkept
    linarith
  · exact .inr ⟨rfl, beyond_of_fine hlarge⟩

theorem nearPower_from_one (hx : fineOne ≤ raise x.natAbs) :
    NearPower m (|toRat x| ^ m)
      ((binaryPower fineOne (raise x.natAbs) m).elim .posInf fun p =>
        Number.saturate (lower p)) := by
  have h := powerFromOne_whole hx m
  rw [fineRat_raise_natAbs] at h
  refine nearPower_of_fromOne (Int.natAbs_natCast m) (h.mono le_rfl ?_)
  refine mul_le_mul_of_nonneg_left ?_ (by positivity)
  exact pow_le_pow_of_le_one keptShare_pos.le keptShare_le_one (by omega)

theorem nearPower_below_one (hx : raise x.natAbs ≤ fineOne) :
    NearPower m (|toRat x| ^ m)
      ((binaryPower fineOne (raise x.natAbs) m).elim .posInf fun p =>
        Number.saturate (lower p)) := by
  have hbase : 0 ≤ raise x.natAbs := mul_nonneg (Int.natCast_nonneg _) guardFactor_pos.le
  obtain ⟨p, hp, hnonneg, hle, hge⟩ := binaryPower_below_one m fineOne_pos.le hbase le_rfl hx
  rw [fineRat_fineOne, one_mul, fineRat_raise_natAbs] at hle hge
  rw [hp]
  refine nearPower_of_power hnonneg hle ?_
  have hmax : (m : ℚ) * fineUnit * 1 ≤ m * fineUnit * max 1 (|toRat x| ^ m) :=
    mul_le_mul_of_nonneg_left (le_max_left _ _)
      (mul_nonneg (Nat.cast_nonneg _) fineUnit_pos.le)
  have hunits : (0 : ℚ) ≤ m * fineUnit := mul_nonneg (Nat.cast_nonneg _) fineUnit_pos.le
  rw [Nat.abs_cast, Int.cast_natCast]
  linarith

theorem inverse_bounds (ha : 0 < a) (ha1 : a ≤ fineOne) :
    fineOne ≤ fineQuotient fineOne a ∧ fineRat (fineQuotient fineOne a) ≤ (fineRat a)⁻¹ ∧
      (fineRat a)⁻¹ * keptShare ≤ fineRat (fineQuotient fineOne a) := by
  have hpos := fineRat_pos ha
  have hone : 1 ≤ (fineRat a)⁻¹ := (one_le_inv₀ hpos).mpr (fineRat_le_one_iff.mpr ha1)
  have hle := fineQuotient_le fineOne_pos.le ha
  have hge := (abs_le.mp (abs_fineQuotient_sub fineOne ha)).1
  rw [fineRat_fineOne, one_div] at hle hge
  refine ⟨?_, hle, ?_⟩
  · rw [fineQuotient, Int.tdiv_eq_ediv_of_nonneg (mul_pos fineOne_pos fineOne_pos).le]
    exact (Int.le_ediv_iff_mul_le ha).mpr (mul_le_mul_of_nonneg_left ha1 fineOne_pos.le)
  · have hunit : fineUnit ≤ (fineRat a)⁻¹ * fineUnit :=
      le_mul_of_one_le_left fineUnit_pos.le hone
    rw [keptShare, mul_sub, mul_one]
    linarith

theorem nearPower_of_inverse (hx : x ≠ 0) (hx1 : raise x.natAbs ≤ fineOne) :
    NearPower (-m) (|toRat x|⁻¹ ^ m)
      ((binaryPower fineOne (fineQuotient fineOne (raise x.natAbs)) m).elim .posInf fun p =>
        Number.saturate (lower p)) := by
  obtain ⟨hone, hle, hge⟩ := inverse_bounds (raise_natAbs_pos hx) hx1
  rw [fineRat_raise_natAbs] at hle hge
  have hpos := fineRat_pos (fineOne_pos.trans_le hone)
  have hkept := keptShare_pos
  refine nearPower_of_fromOne (by rw [Int.natAbs_neg, Int.natAbs_natCast])
    ((powerFromOne_whole hone m).mono (pow_le_pow_left₀ hpos.le hle m) ?_)
  calc |toRat x|⁻¹ ^ m * keptShare ^ (2 * m)
      = (|toRat x|⁻¹ * keptShare) ^ m * keptShare ^ m := by
        rw [two_mul, pow_add, mul_pow, mul_assoc]
    _ ≤ fineRat (fineQuotient fineOne (raise x.natAbs)) ^ m * keptShare ^ m := by gcongr

/-- A share of at least a half has at most twice its loss added when it is inverted. -/
theorem inv_le_of_share {t v w : ℚ} (hv : 0 < v) (hw : 0 < w) (ht0 : 0 ≤ t) (ht : t ≤ 1 / 2)
    (h : w * (1 - t) ≤ v) : v⁻¹ ≤ w⁻¹ * (1 + 2 * t) := by
  have hshare : 1 ≤ (1 + 2 * t) * (1 - t) := by
    linarith [mul_nonneg ht0 (show 0 ≤ 1 - 2 * t by linarith)]
  rw [inv_le_iff_one_le_mul₀ hv]
  calc (1 : ℚ) ≤ (1 + 2 * t) * (1 - t) := hshare
    _ = w⁻¹ * (1 + 2 * t) * (w * (1 - t)) := by field_simp
    _ ≤ w⁻¹ * (1 + 2 * t) * v := mul_le_mul_of_nonneg_left h (by positivity)

theorem count_units_le (hword : m ≤ 2 ^ 63) : m * fineUnit ≤ 1 / 2 := by
  have hcount : (m : ℚ) ≤ 2 ^ 63 := by exact_mod_cast hword
  refine (mul_le_mul_of_nonneg_right hcount fineUnit_pos.le).trans ?_
  rw [fineUnit_eq]
  norm_num

/-- The inverse of a power from 1 on is off by two units for each factor at most. -/
theorem inverse_power_bounds (hp : fineOne ≤ p) (hle : fineRat p ≤ whole)
    (hge : whole * keptShare ^ m ≤ fineRat p) (hm : m ≠ 0) (hword : m ≤ 2 ^ 63) :
    |fineRat (fineQuotient fineOne p) - whole⁻¹| ≤ 2 * m * fineUnit := by
  have hpos := fineOne_pos.trans_le hp
  have hone : 1 ≤ fineRat p := one_le_fineRat_iff.mpr hp
  have hfine : 0 < fineRat p := zero_lt_one.trans_le hone
  have hwhole : 0 < whole := hfine.trans_le hle
  have hunits : 0 ≤ m * fineUnit := mul_nonneg (Nat.cast_nonneg _) fineUnit_pos.le
  have hunit : fineUnit ≤ m * fineUnit :=
    le_mul_of_one_le_left fineUnit_pos.le (by exact_mod_cast Nat.one_le_iff_ne_zero.mpr hm)
  have hlow : whole⁻¹ - fineUnit ≤ fineRat (fineQuotient fineOne p) := by
    have hquotient := (abs_le.mp (abs_fineQuotient_sub fineOne hpos)).1
    rw [fineRat_fineOne, one_div] at hquotient
    linarith [inv_anti₀ hfine hle]
  have hhigh : fineRat (fineQuotient fineOne p) ≤ whole⁻¹ * (1 + 2 * (m * fineUnit)) := by
    have hquotient := fineQuotient_le fineOne_pos.le hpos
    rw [fineRat_fineOne, one_div] at hquotient
    have hkept := (mul_le_mul_of_nonneg_left (keptShare_pow_ge m) hwhole.le).trans hge
    exact hquotient.trans (inv_le_of_share hfine hwhole hunits (count_units_le hword) hkept)
  have hparts : whole⁻¹ * (2 * (m * fineUnit)) ≤ 1 * (2 * (m * fineUnit)) :=
    mul_le_mul_of_nonneg_right (inv_le_one_of_one_le₀ (hone.trans hle)) (by linarith)
  rw [abs_le]
  constructor <;> linarith

theorem fineQuotient_nonneg (ha : 0 ≤ a) (hb : 0 ≤ b) : 0 ≤ fineQuotient a b :=
  Int.tdiv_nonneg (mul_nonneg ha fineOne_pos.le) hb

theorem nearPower_zero (hlarge : 2 ^ bitLimit ≤ whole * 10 ^ 64) (hn : n < 0) :
    NearPower n whole⁻¹ .zero := by
  have hsquare : (10 : ℚ) ^ 64 * 10 ^ 64 ≤ 2 ^ bitLimit := by
    calc (10 : ℚ) ^ 64 * 10 ^ 64 ≤ 2 ^ 213 * 2 ^ 213 :=
          mul_le_mul ten_pow_lt.le ten_pow_lt.le (by positivity) (by positivity)
      _ = 2 ^ (213 + 213) := (pow_add _ _ _).symm
      _ ≤ 2 ^ bitLimit := pow_le_pow_right₀ one_le_two (by decide)
  have hwhole : (10 : ℚ) ^ 64 ≤ whole :=
    le_of_mul_le_mul_right (hsquare.trans hlarge) (by positivity)
  have hsmall : whole⁻¹ ≤ 1 / 10 ^ 64 := by
    rw [one_div]
    exact inv_anti₀ (by positivity) hwhole
  have hslack : 0 ≤ 2 * |n| / (10 : ℚ) ^ 74 * max 1 whole⁻¹ := by positivity
  have hinverse : 0 ≤ whole⁻¹ := inv_nonneg.mpr ((by positivity : (0 : ℚ) ≤ 10 ^ 64).trans hwhole)
  refine .inl ⟨0, rfl, le_rfl, ?_, fun hpos => absurd hpos hn.le.not_gt⟩
  rw [toRat_eq_zero_iff.mpr rfl, zero_sub, abs_neg, abs_of_nonneg hinverse]
  linarith [show (1 : ℚ) / 10 ^ 64 ≤ 2 / 10 ^ 64 by norm_num]

theorem nearPower_inverted (hx : fineOne ≤ raise x.natAbs) (hm : m ≠ 0) (hword : m ≤ 2 ^ 63) :
    NearPower (-m) (|toRat x| ^ m)⁻¹
      ((binaryPower fineOne (raise x.natAbs) m).elim .zero fun p =>
        Number.saturate (lower (fineQuotient fineOne p))) := by
  have hneg : -(m : ℤ) < 0 := by omega
  have h := powerFromOne_whole hx m
  rw [fineRat_raise_natAbs] at h
  rcases h with ⟨p, hp, hone, hle, hge⟩ | ⟨hnone, hlarge⟩
  · have hpos := fineOne_pos.trans_le hone
    have hinverse : fineRat (fineQuotient fineOne p) ≤ 1 := by
      refine (fineQuotient_le fineOne_pos.le hpos).trans ?_
      rw [fineRat_fineOne, one_div]
      exact inv_le_one_of_one_le₀ (one_le_fineRat_iff.mpr hone)
    rw [hp]
    refine nearPower_of_fine (fineQuotient_nonneg fineOne_pos.le hpos.le)
      (hinverse.trans (le_max_left _ _)) (fun hn => absurd hn hneg.le.not_gt) ?_
    refine (inverse_power_bounds hone hle hge hm hword).trans ?_
    rw [abs_neg, Nat.abs_cast, Int.cast_natCast]
    exact le_mul_of_one_le_right (by have := fineUnit_pos; positivity) (le_max_left _ _)
  · rw [hnone]
    exact nearPower_zero (beyond_of_fine hlarge) hneg

theorem wholeMagnitude_of_below_one (hn : n < 0) (h : raise x.natAbs < fineOne) :
    wholeMagnitude x n = if surelyInfinite x n then .posInf
      else (binaryPower fineOne (fineQuotient fineOne (raise x.natAbs)) n.natAbs).elim .posInf
        fun p => Number.saturate (lower p) := by
  rw [wholeMagnitude]
  simp only [hn, h, and_self, decide_true, if_true, not_true_eq_false, and_false, decide_false,
    Bool.false_eq_true, if_false, fineQuotient]
  cases binaryPower _ _ _ <;> rfl

theorem wholeMagnitude_of_from_one (hn : n < 0) (h : fineOne ≤ raise x.natAbs) :
    wholeMagnitude x n = if surelyInfinite x n then .posInf
      else (binaryPower fineOne (raise x.natAbs) n.natAbs).elim .zero
        fun p => Number.saturate (lower (fineQuotient fineOne p)) := by
  rw [wholeMagnitude]
  simp only [hn, not_lt.mpr h, and_false, decide_false, Bool.false_eq_true, if_false,
    not_false_eq_true, and_self, decide_true, if_true, fineQuotient]
  cases binaryPower _ _ _ <;> rfl

theorem nearPower_positive (x : ℤ) (m : ℕ) : NearPower m (|toRat x| ^ m) (wholeMagnitude x m) := by
  rw [wholeMagnitude_of_nonneg (Int.natCast_nonneg m), Int.natAbs_natCast]
  split
  · next hsure =>
    have hlarge := two_pow_le_of_surelyInfinite hsure
    rw [toRat_natAbs] at hlarge
    exact .inr ⟨rfl, beyond_of_logLimit hlarge⟩
  · rcases le_total fineOne (raise x.natAbs) with hlarge | hsmall
    · exact nearPower_from_one hlarge
    · exact nearPower_below_one hsmall

theorem nearPower_negative (hx : x ≠ 0) (hm : m ≠ 0) (hword : m ≤ 2 ^ 63) :
    NearPower (-m) (|toRat x| ^ m)⁻¹ (wholeMagnitude x (-m)) := by
  have hneg : -(m : ℤ) < 0 := by omega
  have hbeyond (hsure : surelyInfinite x (-m) = true) :
      NearPower (-m) (|toRat x| ^ m)⁻¹ .posInf := by
    have hlarge := two_pow_le_of_surelyInfinite_neg hx hsure
    rw [toRat_natAbs, inv_pow] at hlarge
    exact .inr ⟨rfl, beyond_of_logLimit hlarge⟩
  rcases lt_or_ge (raise x.natAbs) fineOne with hsmall | hlarge
  · rw [wholeMagnitude_of_below_one hneg hsmall, Int.natAbs_neg, Int.natAbs_natCast]
    split
    · next hsure => exact hbeyond hsure
    · rw [← inv_pow]
      exact nearPower_of_inverse hx hsmall.le
  · rw [wholeMagnitude_of_from_one hneg hlarge, Int.natAbs_neg, Int.natAbs_natCast]
    split
    · next hsure => exact hbeyond hsure
    · exact nearPower_inverted hlarge hm hword

theorem nearPower_wholeMagnitude (hx : x ≠ 0) (hn : n ≠ 0) (hword : n.natAbs ≤ 2 ^ 63) :
    NearPower n (|toRat x| ^ n) (wholeMagnitude x n) := by
  obtain ⟨m, rfl | rfl⟩ := Int.eq_nat_or_neg n
  · rw [zpow_natCast]
    exact nearPower_positive x m
  · rw [zpow_neg, zpow_natCast]
    exact nearPower_negative hx (by omega) (by omega)

theorem tmod_two_ne_zero_iff_odd (n : ℤ) : n.tmod 2 ≠ 0 ↔ Odd n := by
  rw [← Int.not_even_iff_odd, even_iff_two_dvd, Int.dvd_iff_tmod_eq_zero]

theorem toRat_neg_iff : toRat x < 0 ↔ x < 0 := by
  rw [← not_le, toRat_nonneg_iff, not_le]

theorem toRat_zpow_neg_iff (x n : ℤ) : toRat x ^ n < 0 ↔ x < 0 ∧ n.tmod 2 ≠ 0 := by
  rw [tmod_two_ne_zero_iff_odd, ← toRat_neg_iff]
  rcases Int.even_or_odd n with heven | hodd
  · refine iff_of_false (heven.zpow_nonneg _).not_gt fun h => ?_
    exact Int.not_even_iff_odd.mpr h.2 heven
  · rw [hodd.zpow_neg_iff]
    exact (and_iff_left hodd).symm

theorem wholeWord?_ofInt (hlow : -2 ^ 63 ≤ n) (hhigh : n < 2 ^ 63) :
    wholeWord? (ofInt n) = some n := by
  simp only [wholeWord?, ofInt, mul_one_tdiv_one]
  exact if_pos (by omega)

theorem pow_wholeWord (x : ℤ) (hlow : -2 ^ 63 ≤ n) (hhigh : n < 2 ^ 63) :
    Decimal.pow x (ofInt n) = .ok (wholePower x n) := by
  rw [Decimal.pow, ofInt, if_pos (isWhole_mul_one n), ← ofInt]
  simp only [wholeWord?_ofInt hlow hhigh]

theorem sign_signed {w : ℤ} (hx : x ≠ 0) (hw : 0 < w) {negative : Bool}
    (hneg : toRat x ^ n < 0 ↔ negative = true) :
    SignType.sign (toRat (if negative then -w else w)) = SignType.sign (toRat x ^ n) := by
  have hne : toRat x ^ n ≠ 0 := zpow_ne_zero n (mt toRat_eq_zero_iff.mp hx)
  cases negative with
  | true =>
    have hminus : -w < 0 := by omega
    rw [if_pos rfl, sign_neg (toRat_neg_iff.mpr hminus), sign_neg (hneg.mpr rfl)]
  | false =>
    have hpos : 0 < toRat w := by
      rw [← not_le, ← toRat_eq_zero_iff.mpr rfl, toRat_le_toRat]
      omega
    have hpower : 0 < toRat x ^ n :=
      lt_of_le_of_ne (not_lt.mp fun h => Bool.false_ne_true (hneg.mp h)) hne.symm
    rw [if_neg Bool.false_ne_true, sign_pos hpos, sign_pos hpower]

/-- The power of a decimal other than 0 with a whole exponent other than 0 that fits a 64-bit word.
A finite result is 0 or has the sign of the power, and its magnitude is that of the power to two
units and to two parts in 10^74 for each factor, from below when the exponent is positive. An
infinite result has the sign of the power, which is then beyond the range. -/
theorem pow_word_accurate (hx : x ≠ 0) (hn : n ≠ 0) (hlow : -2 ^ 63 ≤ n) (hhigh : n < 2 ^ 63) :
    (∃ r, Decimal.pow x (ofInt n) = .ok (.finite r) ∧
      (r = 0 ∨ SignType.sign (toRat r) = SignType.sign (toRat x ^ n)) ∧
      |(|toRat r| - |toRat x| ^ n)| ≤
        2 / 10 ^ 64 + 2 * |n| / 10 ^ 74 * max 1 (|toRat x| ^ n) ∧
      (0 < n → |toRat r| ≤ |toRat x| ^ n)) ∨
    (Decimal.pow x (ofInt n) = .ok (Number.infinity (toRat x ^ n < 0)) ∧
      2 ^ bitLimit ≤ |toRat x| ^ n * 10 ^ 64) := by
  have hneg : toRat x ^ n < 0 ↔ decide (x < 0 ∧ n.tmod 2 ≠ 0) = true := by
    rw [decide_eq_true_iff, toRat_zpow_neg_iff]
  rw [pow_wholeWord x hlow hhigh, wholePower_eq_signed hx hn]
  generalize decide (x < 0 ∧ n.tmod 2 ≠ 0) = negative at hneg ⊢
  rcases nearPower_wholeMagnitude hx hn (by omega) with
    ⟨w, hw, hnonneg, hnear, hbelow⟩ | ⟨hv, hlarge⟩
  · have habs : |toRat (if negative then -w else w)| = toRat w := by
      rw [apply_ite toRat, toRat_neg, apply_ite abs, abs_neg, ite_self,
        abs_of_nonneg (toRat_nonneg_iff.mpr hnonneg)]
    refine .inl ⟨if negative then -w else w, ?_, ?_, ?_, ?_⟩
    · rw [hw, Number.signed]
      cases negative <;> rfl
    · rcases hnonneg.eq_or_lt with rfl | hpos
      · exact .inl (by simp)
      · exact .inr (sign_signed hx hpos hneg)
    · rwa [habs]
    · rwa [habs]
  · refine .inr ⟨?_, hlarge⟩
    rw [hv, Number.signed_posInf]
    simp only [hneg, Bool.decide_eq_true]

theorem pow_word_accurate_third :
    (-(one.tdiv 3) ≠ 0 ∧ (3 : ℤ) ≠ 0 ∧ -2 ^ 63 ≤ (3 : ℤ) ∧ (3 : ℤ) < 2 ^ 63) ∧
    Decimal.pow (-(one.tdiv 3)) (ofInt 3) = .ok (.finite (-(one.tdiv 27))) ∧
    |(|toRat (-(one.tdiv 27))| - |toRat (-(one.tdiv 3))| ^ (3 : ℤ))| ≤
      2 / 10 ^ 64 + 2 * |(3 : ℤ)| / 10 ^ 74 * max 1 (|toRat (-(one.tdiv 3))| ^ (3 : ℤ)) := by
  have hbase : -(one.tdiv 3) ≠ 0 := by decide
  have hlow : -2 ^ 63 ≤ (3 : ℤ) := by decide
  have hhigh : (3 : ℤ) < 2 ^ 63 := by decide
  have hvalue : Decimal.pow (-(one.tdiv 3)) (ofInt 3) = .ok (.finite (-(one.tdiv 27))) := by
    decide +kernel
  refine ⟨⟨hbase, by decide, hlow, hhigh⟩, hvalue, ?_⟩
  rcases pow_word_accurate hbase (by decide) hlow hhigh with ⟨r, hr, -, hnear, -⟩ | ⟨hr, -⟩
  · obtain rfl := Number.finite.inj (Except.ok.inj (hvalue.symm.trans hr))
    exact hnear
  · have hinfinite := Except.ok.inj (hvalue.symm.trans hr)
    unfold Number.infinity at hinfinite
    split at hinfinite <;> cases hinfinite

end Reckoner.Decimal
