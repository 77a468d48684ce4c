import Reckoner.Proofs.Binary64.Nearest

set_option autoImplicit false

namespace Reckoner.Binary64

/-- Halfway from the largest finite number to the next power of two. -/
def overflow : ℚ := 2 ^ 1024 - 2 ^ 970

variable {num den d q : ℕ} {r a : ℚ} {e : ℤ} {x : Binary64}

theorem divNearest_error (n : ℕ) (hd : 0 < d) :
    |(divNearest n d : ℚ) - n / d| ≤ 1 / 2 ∧
      (|(divNearest n d : ℚ) - n / d| = 1 / 2 → divNearest n d % 2 = 0) := by
  have hd' : (0 : ℚ) < d := by exact_mod_cast hd
  have hlt : n % d < d := Nat.mod_lt n hd
  have hsplit : (n : ℚ) / d = (n / d : ℕ) + (n % d : ℕ) / d := by
    rw [div_eq_iff hd'.ne', add_mul, div_mul_cancel₀ _ hd'.ne']
    exact_mod_cast (Nat.div_add_mod' n d).symm
  simp only [divNearest, hsplit]
  generalize n / d = k
  generalize n % d = s at hlt
  have hs : (0 : ℚ) ≤ s / d := by positivity
  have hlt' : (s : ℚ) / d < 1 := (div_lt_one hd').mpr (by exact_mod_cast hlt)
  -- The error is the fraction s / d, or what the fraction lacks to 1.
  split
  · next hlow =>
    have hhalf : (s : ℚ) / d ≤ 1 / 2 := by
      rw [div_le_div_iff₀ hd' two_pos]
      exact_mod_cast (by omega : s * 2 ≤ 1 * d)
    rw [sub_add_cancel_left, abs_neg, abs_of_nonneg hs]
    refine ⟨hhalf, fun htie => ?_⟩
    rw [div_eq_div_iff hd'.ne' two_ne_zero] at htie
    have htie' : s * 2 = 1 * d := by exact_mod_cast htie
    omega
  · next hhigh =>
    have hhalf : 1 / 2 ≤ (s : ℚ) / d := by
      rw [div_le_div_iff₀ two_pos hd']
      exact_mod_cast (by omega : 1 * d ≤ s * 2)
    have herror : ((k + 1 : ℕ) : ℚ) - (k + s / d) = 1 - s / d := by
      push_cast
      ring
    rw [herror, abs_of_pos (by linarith)]
    refine ⟨by linarith, fun htie => ?_⟩
    have htie : (s : ℚ) / d = 1 / 2 := by linarith
    rw [div_eq_div_iff hd'.ne' two_ne_zero] at htie
    have htie' : s * 2 = 1 * d := by exact_mod_cast htie
    omega

theorem scaled_ratio (num : ℕ) (hden : 0 < den) (e : ℤ) :
    0 < (scaled num den e).2 ∧
      ((scaled num den e).1 : ℚ) / (scaled num den e).2 = num / den / 2 ^ e := by
  unfold scaled
  split
  · next he =>
    obtain ⟨k, rfl⟩ := Int.eq_ofNat_of_zero_le he
    refine ⟨Nat.mul_pos hden (Nat.two_pow_pos _), ?_⟩
    rw [div_div]
    simp
  · next he =>
    obtain ⟨k, hk⟩ := Int.eq_ofNat_of_zero_le (by omega : 0 ≤ -e)
    obtain rfl : e = -k := by omega
    refine ⟨hden, ?_⟩
    rw [zpow_neg, div_inv_eq_mul, div_mul_eq_mul_div]
    simp

theorem floorLog_bounds (hnum : 0 < num) (hden : 0 < den) :
    (2 : ℚ) ^ floorLog num den ≤ num / den ∧ (num / den : ℚ) < 2 * 2 ^ floorLog num den := by
  have hden' : (0 : ℚ) < den := by exact_mod_cast hden
  have hlog {k : ℕ} (hk : 0 < k) : (2 : ℚ) ^ k.log2 ≤ k ∧ (k : ℚ) < 2 * 2 ^ k.log2 := by
    refine ⟨by exact_mod_cast Nat.log2_self_le hk.ne', ?_⟩
    rw [← pow_succ']
    exact_mod_cast Nat.lt_log2_self (n := k)
  obtain ⟨hnumlow, hnumhigh⟩ := hlog hnum
  obtain ⟨hdenlow, hdenhigh⟩ := hlog hden
  have hpow : (2 : ℚ) ^ ((num.log2 : ℤ) - den.log2) * 2 ^ den.log2 = 2 ^ num.log2 := by
    rw [zpow_sub₀ two_ne_zero, zpow_natCast, zpow_natCast, div_mul_cancel₀ _ (by positivity)]
  have hpos := two_zpow_pos ((num.log2 : ℤ) - den.log2)
  obtain ⟨hd, hratio⟩ := scaled_ratio num hden ((num.log2 : ℤ) - den.log2)
  have hd' : (0 : ℚ) < (scaled num den ((num.log2 : ℤ) - den.log2)).2 := by exact_mod_cast hd
  -- The difference of the two logarithms is the exponent or one more.
  unfold floorLog
  simp only
  split
  · next hlt =>
    have hone : (num / den : ℚ) / 2 ^ ((num.log2 : ℤ) - den.log2) < 1 := by
      rw [← hratio, div_lt_one hd']
      exact_mod_cast hlt
    rw [div_lt_one hpos] at hone
    rw [zpow_sub_one₀ two_ne_zero]
    refine ⟨?_, by linarith⟩
    rw [le_div_iff₀ hden']
    nlinarith
  · next hge =>
    have hone : 1 ≤ (num / den : ℚ) / 2 ^ ((num.log2 : ℤ) - den.log2) := by
      rw [← hratio, one_le_div hd']
      exact_mod_cast not_lt.mp hge
    rw [one_le_div hpos] at hone
    refine ⟨hone, ?_⟩
    rw [div_lt_iff₀ hden']
    nlinarith

theorem onBinade_ratio (hnum : 0 < num) (hden : 0 < den) :
    OnBinade (num / den) (max (floorLog num den - 52) minExponent) := by
  obtain ⟨hlow, hhigh⟩ := floorLog_bounds hnum hden
  have hpow (e : ℤ) (k : ℕ) : (2 : ℚ) ^ k * 2 ^ e = 2 ^ (e + k) := (two_zpow_add e k).symm
  refine ⟨le_max_right _ _, ?_, ?_⟩
  · refine hhigh.trans_le ?_
    rw [hpow, ← zpow_one_add₀ two_ne_zero]
    exact zpow_le_zpow_right₀ one_le_two (by push_cast; omega)
  · rcases max_choice (floorLog num den - 52) minExponent with hmax | hmax
    · right
      rw [hmax, hpow]
      simpa using hlow
    · exact .inl hmax

/-- A rounded mantissa, with its exponent, that the format may have to shift once. -/
structure Rounded (q : ℕ) (e : ℤ) : Prop where
  least : minExponent ≤ e
  le : q ≤ mantissaEnd
  full : e = minExponent ∨ mantissaEnd / 2 ≤ q

/-! The upper end in units of the greatest exponent. -/

theorem two_pow_end : (2 : ℚ) ^ 1024 = 2 ^ 53 * 2 ^ maxExponent := by
  have hexponent : ((1024 : ℕ) : ℤ) = maxExponent + (53 : ℕ) := rfl
  rw [← two_zpow_add, ← hexponent, zpow_natCast]

theorem overflow_eq : overflow = (2 ^ 53 - 1 / 2) * 2 ^ maxExponent := by
  have hexponent : maxExponent = ((970 : ℕ) : ℤ) + 1 := rfl
  have hhalf : (2 : ℚ) ^ 970 = 1 / 2 * 2 ^ maxExponent := by
    rw [hexponent, zpow_add_one₀ two_ne_zero, zpow_natCast, mul_comm, mul_assoc,
      mul_one_div_cancel two_ne_zero, mul_one]
  rw [overflow, two_pow_end, hhalf, sub_mul]

theorem pack_of_lt (s : Bool) (h : q < mantissaEnd) :
    pack s q e = if maxExponent < e then .infinite s else .finite s q e := by
  simp only [pack, h.ne, if_false]

theorem pack_end (s : Bool) (e : ℤ) : pack s mantissaEnd e =
    if maxExponent < e + 1 then .infinite s else .finite s (mantissaEnd / 2) (e + 1) := by
  simp only [pack, if_true]

theorem pack_neg (s : Bool) (q : ℕ) (e : ℤ) : pack (!s) q e = (pack s q e).neg := by
  unfold pack
  simp only [apply_ite neg]
  rfl

theorem two_mul_le_two_zpow (h : maxExponent < e) : 2 * (2 : ℚ) ^ maxExponent ≤ 2 ^ e := by
  rw [← zpow_one_add₀ two_ne_zero, add_comm]
  exact zpow_le_zpow_right₀ one_le_two h

theorem Rounded.pack (h : Rounded q e) :
    (pack false q e = .infinite false ∧ 2 ^ 1024 ≤ (q : ℚ) * 2 ^ e) ∨
      ((pack false q e).Canonical ∧ (pack false q e).toRat = (q : ℤ) * 2 ^ e ∧
        (q % 2 = 0 → (pack false q e).mantissa % 2 = 0) ∧
        (q ≠ 0 → (pack false q e).mantissa ≠ 0) ∧ (q : ℚ) * 2 ^ e < 2 ^ 1024) := by
  have hpos := two_zpow_pos e
  have hend := two_zpow_pos maxExponent
  obtain ⟨hleast, hle, hfull⟩ := h
  rw [two_pow_end]
  -- A mantissa below 2^53 is packed as it is, 2^53 itself after one shift.
  rcases hle.lt_or_eq with hlt | rfl
  · rw [pack_of_lt false hlt]
    split
    · next hover =>
      have hmin : minExponent < e := lt_trans (by decide) hover
      have hq : (2 : ℚ) ^ 52 ≤ q := by
        rw [← cast_half_mantissaEnd]
        exact_mod_cast hfull.resolve_left hmin.ne'
      refine .inl ⟨rfl, ?_⟩
      calc (2 : ℚ) ^ 53 * 2 ^ maxExponent = 2 ^ 52 * (2 * 2 ^ maxExponent) := by ring
        _ ≤ (q : ℚ) * 2 ^ e :=
          mul_le_mul hq (two_mul_le_two_zpow hover) (by positivity) (Nat.cast_nonneg q)
    · next hfit =>
      have hq : (q : ℚ) < 2 ^ 53 := by
        rw [← cast_mantissaEnd]
        exact_mod_cast hlt
      have hunit : (2 : ℚ) ^ e ≤ 2 ^ maxExponent :=
        zpow_le_zpow_right₀ one_le_two (not_lt.mp hfit)
      refine .inr ⟨⟨hlt, hleast, not_lt.mp hfit, hfull.symm⟩, rfl, id, id, ?_⟩
      calc (q : ℚ) * 2 ^ e < 2 ^ 53 * 2 ^ e := mul_lt_mul_of_pos_right hq hpos
        _ ≤ 2 ^ 53 * 2 ^ maxExponent := mul_le_mul_of_nonneg_left hunit (by positivity)
  · rw [pack_end, cast_mantissaEnd]
    split
    · next hover =>
      have hunit : (2 : ℚ) ^ maxExponent ≤ 2 ^ e :=
        zpow_le_zpow_right₀ one_le_two (Int.lt_add_one_iff.mp hover)
      exact .inl ⟨rfl, mul_le_mul_of_nonneg_left hunit (by positivity)⟩
    · next hfit =>
      have hunit : (2 : ℚ) ^ e < 2 ^ maxExponent := zpow_lt_zpow_right₀ one_lt_two (by omega)
      have hhalf : mantissaEnd / 2 < mantissaEnd := by decide
      have heven : mantissaEnd / 2 % 2 = 0 := by decide
      have hzero : mantissaEnd / 2 ≠ 0 := by decide
      rw [mantissa]
      refine .inr ⟨⟨hhalf, by omega, by omega, .inl le_rfl⟩, ?_, fun _ => heven, fun _ => hzero,
        mul_lt_mul_of_pos_left hunit (by positivity)⟩
      simp only [toRat, Bool.false_eq_true, if_false, zpow_add_one₀ (two_ne_zero (α := ℚ)),
        Int.cast_natCast, cast_half_mantissaEnd, cast_mantissaEnd]
      ring

theorem rounded_of_error (h : OnBinade r e) (hq : |(q : ℚ) - r / 2 ^ e| ≤ 1 / 2) :
    Rounded q e := by
  have hpos := two_zpow_pos e
  obtain ⟨hlow, hhigh⟩ := abs_le.mp hq
  refine ⟨h.least, ?_, h.above.imp_right fun habove => ?_⟩
  · have hbelow : r / 2 ^ e < 2 ^ 53 := (div_lt_iff₀ hpos).mpr h.below
    have hlt : (q : ℚ) < mantissaEnd + 1 := by
      rw [cast_mantissaEnd]
      linarith
    exact Nat.lt_succ_iff.mp (by exact_mod_cast hlt)
  · have habove : 2 ^ 52 ≤ r / 2 ^ e := (le_div_iff₀ hpos).mpr habove
    have hlt : ((mantissaEnd / 2 : ℕ) : ℚ) < q + 1 := by
      rw [cast_half_mantissaEnd]
      linarith
    exact Nat.lt_succ_iff.mp (by exact_mod_cast hlt)

/-- A rounded mantissa reaches the next power of two exactly from halfway on. -/
theorem mantissaEnd_le_iff (hq : |(q : ℚ) - a| ≤ 1 / 2)
    (htie : |(q : ℚ) - a| = 1 / 2 → q % 2 = 0) :
    mantissaEnd ≤ q ↔ (2 : ℚ) ^ 53 - 1 / 2 ≤ a := by
  obtain ⟨hlow, hhigh⟩ := abs_le.mp hq
  rw [← cast_mantissaEnd]
  constructor
  · intro hle
    have hle' : (mantissaEnd : ℚ) ≤ q := by exact_mod_cast hle
    linarith
  · intro hle
    have hstep : (mantissaEnd : ℚ) ≤ q + 1 := by linarith
    have hstep' : mantissaEnd ≤ q + 1 := by exact_mod_cast hstep
    -- Halfway between the two, the larger mantissa is the even one.
    have hne : mantissaEnd ≠ q + 1 := by
      intro heq
      have hq' : (mantissaEnd : ℚ) = q + 1 := by exact_mod_cast heq
      have herror : |(q : ℚ) - a| = 1 / 2 := by
        rw [abs_sub_comm, abs_of_nonneg] <;> linarith
      have hodd : (q + 1) % 2 = 0 := by
        rw [← heq]
        decide
      have heven := htie herror
      omega
    omega

theorem OnBinade.overflow_iff (h : OnBinade r e) (hq : |(q : ℚ) - r / 2 ^ e| ≤ 1 / 2)
    (htie : |(q : ℚ) - r / 2 ^ e| = 1 / 2 → q % 2 = 0) :
    2 ^ 1024 ≤ (q : ℚ) * 2 ^ e ↔ overflow ≤ r := by
  have hpos := two_zpow_pos e
  have hend := two_zpow_pos maxExponent
  obtain ⟨-, hle, hfull⟩ := rounded_of_error h hq
  rw [overflow_eq, two_pow_end]
  rcases lt_trichotomy e maxExponent with hlt | rfl | hgt
  · -- In a lower binade neither side holds.
    have hunit : 2 * (2 : ℚ) ^ e ≤ 2 ^ maxExponent := by
      rw [← zpow_one_add₀ two_ne_zero, add_comm]
      exact zpow_le_zpow_right₀ one_le_two hlt
    have hvalue : (q : ℚ) * 2 ^ e ≤ 2 ^ 53 * 2 ^ e := by
      rw [← cast_mantissaEnd]
      exact mul_le_mul_of_nonneg_right (by exact_mod_cast hle) hpos.le
    have hbelow := h.below
    exact ⟨fun hover => by linarith, fun hover => by linarith⟩
  · have hq' := mantissaEnd_le_iff hq htie
    rw [le_div_iff₀ hpos] at hq'
    rw [← hq', ← cast_mantissaEnd, mul_le_mul_iff_left₀ hpos, Nat.cast_le]
  · -- In a higher binade both hold.
    have hmin : minExponent < e := lt_trans (by decide) hgt
    have hunit := two_mul_le_two_zpow hgt
    have habove := h.above.resolve_left hmin.ne'
    have hvalue : (2 : ℚ) ^ 52 * 2 ^ e ≤ q * 2 ^ e := by
      rw [← cast_half_mantissaEnd]
      exact mul_le_mul_of_nonneg_right (by exact_mod_cast hfull.resolve_left hmin.ne') hpos.le
    exact ⟨fun _ => by linarith, fun _ => by linarith⟩

theorem ofRatio_neg (s : Bool) (num den : ℕ) :
    ofRatio (!s) num den = (ofRatio s num den).neg := by
  unfold ofRatio
  split
  · rfl
  · exact pack_neg ..

/-- A positive ratio is rounded to the one nearest value or, from halfway beyond the largest one on,
becomes infinite. -/
theorem ofRatio_spec (hnum : 0 < num) (hden : 0 < den) :
    (overflow ≤ (num / den : ℚ) ∧ ofRatio false num den = .infinite false) ∨
      ((num / den : ℚ) < overflow ∧ IsTheNearest (num / den) (ofRatio false num den) ∧
        (1 ≤ (num / den : ℚ) / 2 ^ minExponent → (ofRatio false num den).mantissa ≠ 0)) := by
  have hbinade := onBinade_ratio hnum hden
  unfold ofRatio
  rw [if_neg hnum.ne']
  simp only
  generalize max (floorLog num den - 52) minExponent = e at hbinade
  obtain ⟨hd, hratio⟩ := scaled_ratio num hden e
  obtain ⟨herror, htie⟩ := divNearest_error (scaled num den e).1 hd
  rw [hratio] at herror htie
  generalize divNearest (scaled num den e).1 (scaled num den e).2 = q at herror htie
  have hover := hbinade.overflow_iff herror htie
  rcases (rounded_of_error hbinade herror).pack with
    ⟨hpack, hlarge⟩ | ⟨hcanonical, hvalue, heven, hzero, hsmall⟩
  · exact .inl ⟨hover.mp hlarge, hpack⟩
  · have hnearest := hbinade.isTheNearest (q := q) herror (fun h => by exact_mod_cast htie h)
      hcanonical hvalue (fun h => heven (by exact_mod_cast h))
    refine .inr ⟨lt_of_not_ge fun h => hsmall.not_ge (hover.mpr h), hnearest,
      fun hone => hzero ?_⟩
    rintro rfl
    rw [Nat.cast_zero, zero_sub, abs_neg] at herror
    have hle := (le_abs_self _).trans herror
    rcases hbinade.above with rfl | habove
    · linarith
    · have habove : 2 ^ 52 ≤ (num / den : ℚ) / 2 ^ e := (le_div_iff₀ (two_zpow_pos e)).mpr habove
      linarith

theorem one_le_ratio (hnum : 0 < num) {places : ℕ} (hplaces : places ≤ 64) :
    1 ≤ (num / (10 ^ places : ℕ) : ℚ) / 2 ^ minExponent := by
  have hexponent : minExponent = -((1074 : ℕ) : ℤ) := rfl
  have hten : (10 : ℚ) ^ places ≤ 2 ^ (1074 : ℕ) :=
    calc (10 : ℚ) ^ places ≤ 10 ^ 64 := pow_le_pow_right₀ (by norm_num) hplaces
      _ ≤ 2 ^ 256 := by norm_num
      _ ≤ 2 ^ 1074 := pow_le_pow_right₀ one_le_two (by norm_num)
  have hnum' : (1 : ℚ) ≤ num := by exact_mod_cast hnum
  rw [one_le_div (two_zpow_pos _), le_div_iff₀ (by positivity), hexponent, zpow_neg, zpow_natCast,
    inv_mul_le_iff₀ (by positivity)]
  push_cast
  calc (10 : ℚ) ^ places ≤ 2 ^ (1074 : ℕ) := hten
    _ ≤ 2 ^ (1074 : ℕ) * num := le_mul_of_one_le_right (by positivity) hnum'

/-- A decimal becomes infinite with its sign from halfway beyond the largest number on, and
otherwise the nearest number, which for 0 is the positive zero. -/
theorem ofDecimal_spec (m : ℤ) {places : ℕ} (hplaces : places ≤ 64) :
    (overflow ≤ |(m / 10 ^ places : ℚ)| ∧ ofDecimal m places = .infinite (m < 0)) ∨
      (|(m / 10 ^ places : ℚ)| < overflow ∧
        ∀ x, ofDecimal m places = x ↔ IsNearest (m / 10 ^ places) x ∧ x ≠ .zero true) := by
  have hden : 0 < 10 ^ places := by positivity
  have hpow : Nat.pow 10 places = 10 ^ places := rfl
  have habs : |(m / 10 ^ places : ℚ)| = m.natAbs / (10 ^ places : ℕ) := by
    rw [abs_div, abs_of_pos (by positivity : (0 : ℚ) < 10 ^ places), Nat.cast_natAbs,
      Int.cast_abs, Nat.cast_pow, Nat.cast_ofNat]
  rw [habs, ofDecimal, hpow]
  rcases lt_trichotomy m 0 with hneg | rfl | hpos
  · have hnum : 0 < m.natAbs := Int.natAbs_pos.mpr hneg.ne
    have hm : (m / 10 ^ places : ℚ) = -(m.natAbs / (10 ^ places : ℕ)) := by
      rw [← habs, abs_of_neg (div_neg_of_neg_of_pos (by exact_mod_cast hneg) (by positivity)),
        neg_neg]
    rw [hm, decide_eq_true hneg, ← Bool.not_false, ofRatio_neg]
    rcases ofRatio_spec hnum hden with ⟨hover, hinf⟩ | ⟨hsmall, hnear, hzero⟩
    · exact .inl ⟨hover, by rw [hinf]; rfl⟩
    · refine .inr ⟨hsmall, hnear.neg.eq_iff (ne_zero_of_mantissa ?_ _)⟩
      rw [mantissa_neg]
      exact hzero (one_le_ratio hnum hplaces)
  · refine .inr ⟨?_, ?_⟩
    · rw [Int.natAbs_zero, Nat.cast_zero, zero_div, overflow_eq]
      exact mul_pos (by norm_num) (two_zpow_pos _)
    · rw [Int.cast_zero, zero_div]
      exact isTheNearest_zero.eq_iff (by decide)
  · have hnum : 0 < m.natAbs := Int.natAbs_pos.mpr hpos.ne'
    have hm : (m / 10 ^ places : ℚ) = m.natAbs / (10 ^ places : ℕ) := by
      rw [← habs, abs_of_pos (div_pos (by exact_mod_cast hpos) (by positivity))]
    rw [hm, decide_eq_false hpos.not_gt]
    rcases ofRatio_spec hnum hden with hover | ⟨hsmall, hnear, hzero⟩
    · exact .inl hover
    · exact .inr ⟨hsmall, hnear.eq_iff (ne_zero_of_mantissa (hzero (one_le_ratio hnum hplaces)) _)⟩

end Reckoner.Binary64
