import Reckoner.Proofs.Exact.Arithmetic

set_option autoImplicit false

namespace Reckoner.Decimal

variable {x y d m n : ℤ}

/-- Of the multiples of `d` none is nearer to `x` than `m · d`; of two that are as near it is the one
farther from zero. -/
structure NearestMultiple (x d m : ℤ) : Prop where
  close : 2 * |x - m * d| ≤ d
  farther : ∀ n, 2 * |x - n * d| ≤ d → n ≠ m → |n| < |m|

theorem two_mul_abs_le_iff :
    2 * |x - m * d| ≤ d ↔ 2 * x - d ≤ 2 * (m * d) ∧ 2 * (m * d) ≤ 2 * x + d := by
  have habs : 2 * |x - m * d| = |2 * (x - m * d)| := by rw [abs_mul, abs_two]
  rw [habs, abs_le]
  constructor <;> rintro ⟨hlow, hhigh⟩ <;> constructor <;> linarith

namespace NearestMultiple

theorem unique (hm : NearestMultiple x d m) (hn : NearestMultiple x d n) : m = n := by
  by_contra hne
  exact lt_asymm (hm.farther n hn.close (Ne.symm hne)) (hn.farther m hm.close hne)

theorem neg (h : NearestMultiple x d m) : NearestMultiple (-x) d (-m) := by
  have hmirror (k : ℤ) : |-x - k * d| = |x - -k * d| := by
    rw [← abs_neg]
    congr 1
    ring
  refine ⟨by rw [hmirror, neg_neg]; exact h.close, fun n hn hne => ?_⟩
  rw [hmirror] at hn
  have hlt := h.farther (-n) hn fun heq => hne (by rw [← heq, neg_neg])
  rwa [abs_neg] at hlt ⊢

theorem mono (hd : 0 < d) (hxy : x ≤ y) (hm : NearestMultiple x d m)
    (hn : NearestMultiple y d n) : m ≤ n := by
  by_contra hlt
  obtain ⟨-, hhigh⟩ := two_mul_abs_le_iff.mp hm.close
  obtain ⟨hlow, -⟩ := two_mul_abs_le_iff.mp hn.close
  have hstep : (n + 1) * d ≤ m * d := mul_le_mul_of_nonneg_right (by omega) hd.le
  have hsame : x = y := by linarith
  subst hsame
  exact hlt (hm.unique hn).le

end NearestMultiple

theorem nearestMultiple_mul (hd : 0 < d) (m : ℤ) : NearestMultiple (m * d) d m := by
  refine ⟨by simpa using hd.le, fun n hn hne => absurd hn ?_⟩
  have hone : 1 ≤ |m - n| := Int.one_le_abs (sub_ne_zero.mpr (Ne.symm hne))
  have hstep : 1 * d ≤ |m - n| * d := mul_le_mul_of_nonneg_right hone hd.le
  rw [← sub_mul, abs_mul, abs_of_pos hd]
  linarith

theorem nearestMultiple_of_nonneg {d : ℕ} (hx : 0 ≤ x) (hd : 0 < d) :
    NearestMultiple x d ((2 * x + d) / (2 * d)) := by
  have hpos : (0 : ℤ) < 2 * d := by omega
  have hle (n : ℤ) : n ≤ (2 * x + d) / (2 * d) ↔ 2 * (n * d) ≤ 2 * x + d := by
    rw [Int.le_ediv_iff_mul_le hpos, mul_left_comm]
  generalize (2 * x + d) / (2 * d) = m at hle
  have hlow : 2 * x + d < 2 * ((m + 1) * d) :=
    not_le.mp fun h => absurd ((hle (m + 1)).mpr h) (by omega)
  refine ⟨two_mul_abs_le_iff.mpr ⟨by linarith, (hle m).mp le_rfl⟩, fun n hn hne => ?_⟩
  obtain ⟨hlown, hhighn⟩ := two_mul_abs_le_iff.mp hn
  have hn0 : 0 ≤ n := by
    by_contra hneg
    have hstep : n * d ≤ -1 * d := mul_le_mul_of_nonneg_right (by omega) (by omega)
    have hd' : (0 : ℤ) < d := by omega
    linarith
  have hnm := (hle n).mpr hhighn
  rw [abs_of_nonneg hn0, abs_of_nonneg (hn0.trans hnm)]
  exact lt_of_le_of_ne hnm hne

theorem nearestMultiple_divideNearest {d : ℕ} (x : ℤ) (hd : 0 < d) :
    NearestMultiple x d (divideNearest x d) := by
  rcases le_total 0 x with hx | hx
  · rw [divideNearest_of_nonneg hx hd]
    exact nearestMultiple_of_nonneg hx hd
  · have hneg := (nearestMultiple_of_nonneg (neg_nonneg.mpr hx) hd).neg
    rwa [neg_neg, ← divideNearest_of_nonneg (neg_nonneg.mpr hx) hd, divideNearest_neg, neg_neg]
      at hneg

section Places

variable {source target : ℕ}

theorem tenPow_eq {k : ℕ} (hk : k < exponentEnd) : tenPow k = 10 ^ k :=
  (Int.cast_id).symm.trans (cast_tenPow hk)

theorem tenPow_mod (k : ℕ) : tenPow k = 10 ^ (k % exponentEnd) := by
  rw [tenPow, Nat.pow_eq, Nat.cast_pow, Nat.cast_ofNat]

theorem rescale_of_le (x : ℤ) (hle : source ≤ target) :
    rescale x source target = x * 10 ^ ((target - source) % exponentEnd) := by
  rw [rescale, if_pos hle, tenPow_mod]

/-- The multiples are those of the power whose exponent is what a word of 32 bits keeps. -/
theorem nearestMultiple_rescale (x : ℤ) (hlt : target < source) :
    NearestMultiple x (10 ^ ((source - target) % exponentEnd)) (rescale x source target) := by
  have hpow : tenPow (source - target) = (10 ^ ((source - target) % exponentEnd) : ℕ) := by
    rw [tenPow_mod, Nat.cast_pow, Nat.cast_ofNat]
  have hrescale : rescale x source target =
      divideNearest x (10 ^ ((source - target) % exponentEnd) : ℕ) := by
    unfold rescale
    rw [if_neg hlt.not_ge, hpow]
    rfl
  have hnearest := nearestMultiple_divideNearest x
    (show 0 < 10 ^ ((source - target) % exponentEnd) by positivity)
  rwa [← hrescale, Nat.cast_pow, Nat.cast_ofNat] at hnearest

theorem nearestMultiple_of_word (x : ℤ) (hle : target ≤ source)
    (hword : source - target < exponentEnd) :
    NearestMultiple x (10 ^ (source - target)) (rescale x source target) := by
  rcases hle.lt_or_eq with hlt | rfl
  · have hnearest := nearestMultiple_rescale x hlt
    rwa [Nat.mod_eq_of_lt hword] at hnearest
  · rw [rescale_of_le x le_rfl, Nat.sub_self, Nat.zero_mod, pow_zero, mul_one]
    simpa using nearestMultiple_mul Int.zero_lt_one x

theorem nearestMultiple_zero_iff (hd : 0 < d) : NearestMultiple x d 0 ↔ 2 * |x| < d := by
  constructor
  · intro h
    have hclose := h.close
    rw [zero_mul, sub_zero] at hclose
    refine lt_of_le_of_ne hclose fun hhalf => ?_
    rcases le_total 0 x with hx | hx
    · rw [abs_of_nonneg hx] at hhalf
      have hone : 2 * |x - 1 * d| ≤ d := two_mul_abs_le_iff.mpr ⟨by linarith, by linarith⟩
      exact absurd (h.farther 1 hone (by decide)) (by decide)
    · rw [abs_of_nonpos hx] at hhalf
      have hone : 2 * |x - -1 * d| ≤ d := two_mul_abs_le_iff.mpr ⟨by linarith, by linarith⟩
      exact absurd (h.farther (-1) hone (by decide)) (by decide)
  · intro hlt
    refine ⟨by rw [zero_mul, sub_zero]; exact hlt.le, fun n hn hne => ?_⟩
    have hone : 1 * d ≤ |n| * d := mul_le_mul_of_nonneg_right (Int.one_le_abs hne) hd.le
    have htriangle : |n * d| ≤ |x| + |x - n * d| := by
      have hsplit : n * d = x - (x - n * d) := by ring
      calc |n * d| = |x - (x - n * d)| := by rw [← hsplit]
        _ ≤ |x| + |x - n * d| := abs_sub _ _
    rw [abs_mul, abs_of_pos hd] at htriangle
    linarith

theorem eq_zero_of_nearestMultiple {j k : ℕ} (hjk : j < k) (hj : NearestMultiple x (10 ^ j) m)
    (hk : NearestMultiple x (10 ^ k) m) : m = 0 := by
  by_contra hm
  have hpos : (0 : ℤ) < 10 ^ j := by positivity
  have hstep : (10 : ℤ) ^ j * 10 ≤ 10 ^ k := by
    rw [← pow_succ]
    exact pow_le_pow_right₀ (by norm_num) hjk
  have hone : 1 * ((10 : ℤ) ^ k - 10 ^ j) ≤ |m| * (10 ^ k - 10 ^ j) :=
    mul_le_mul_of_nonneg_right (Int.one_le_abs hm) (by linarith)
  have htriangle : |m| * (10 ^ k - 10 ^ j) ≤ |x - m * 10 ^ j| + |x - m * 10 ^ k| := by
    have hsplit : m * (10 ^ k - 10 ^ j) = (x - m * 10 ^ j) - (x - m * 10 ^ k) := by ring
    have hgap : |(10 : ℤ) ^ k - 10 ^ j| = 10 ^ k - 10 ^ j := abs_of_pos (by linarith)
    calc |m| * (10 ^ k - 10 ^ j) = |m * (10 ^ k - 10 ^ j)| := by rw [abs_mul, hgap]
      _ ≤ |x - m * 10 ^ j| + |x - m * 10 ^ k| := by
        rw [hsplit]
        exact abs_sub _ _
  have hclosej := hj.close
  have hclosek := hk.close
  linarith

/-- Rounding finds the nearest multiple exactly where the scales differ by less than the word holds,
or where less than half of the power that is left of it is rounded. -/
theorem rescale_nearest_iff (x : ℤ) (hlt : target < source) :
    NearestMultiple x (10 ^ (source - target)) (rescale x source target) ↔
      source - target < exponentEnd ∨ 2 * |x| < 10 ^ ((source - target) % exponentEnd) := by
  have hfound := nearestMultiple_rescale x hlt
  rcases lt_or_ge (source - target) exponentEnd with hword | hword
  · rw [Nat.mod_eq_of_lt hword] at hfound
    exact iff_of_true hfound (.inl hword)
  · have hless : (source - target) % exponentEnd < source - target :=
      (Nat.mod_lt _ (by decide)).trans_le hword
    rw [or_iff_right hword.not_gt, ← nearestMultiple_zero_iff (by positivity)]
    constructor
    · intro hnearest
      rwa [eq_zero_of_nearestMultiple hless hfound hnearest] at hfound
    · intro hzero
      have hsmall := (nearestMultiple_zero_iff (by positivity)).mp hzero
      rw [hfound.unique hzero, nearestMultiple_zero_iff (by positivity)]
      exact hsmall.trans_le (pow_le_pow_right₀ (by norm_num) hless.le)

theorem rescale_extends_iff (x : ℤ) (hle : source ≤ target) :
    rescale x source target = x * 10 ^ (target - source) ↔
      target - source < exponentEnd ∨ x = 0 := by
  rw [rescale_of_le x hle]
  rcases lt_or_ge (target - source) exponentEnd with hword | hword
  · rw [Nat.mod_eq_of_lt hword]
    exact iff_of_true rfl (.inl hword)
  · have hless : (target - source) % exponentEnd < target - source :=
      (Nat.mod_lt _ (by decide)).trans_le hword
    have hpow := (pow_lt_pow_right₀ (show (1 : ℤ) < 10 by norm_num) hless).ne
    rw [or_iff_right hword.not_gt, mul_eq_mul_left_iff, or_iff_right hpow]

end Places

theorem exists_roundTo (x : ℤ) (n : ℕ) : ∃ m, NearestMultiple x (10 ^ (64 - min n 64)) m ∧
    roundTo x n = m * 10 ^ (64 - min n 64) := by
  have hword : 64 - min n 64 < exponentEnd := lt_exponentEnd (Nat.sub_le _ _)
  refine ⟨rescale x places (min n 64), nearestMultiple_of_word x (min_le_right n 64) hword, ?_⟩
  rw [← tenPow_eq hword]
  rfl

theorem roundTo_eq_of_nearest {k : ℕ} (h : NearestMultiple x (10 ^ (64 - min k 64)) m) :
    roundTo x k = m * 10 ^ (64 - min k 64) := by
  obtain ⟨m', hm', hround⟩ := exists_roundTo x k
  rw [hround, hm'.unique h]

theorem roundTo_roundTo (x : ℤ) (n : ℕ) : roundTo (roundTo x n) n = roundTo x n := by
  obtain ⟨m, -, hround⟩ := exists_roundTo x n
  rw [hround]
  exact roundTo_eq_of_nearest (nearestMultiple_mul (by positivity) m)

theorem monotone_roundTo (n : ℕ) : Monotone fun x => roundTo x n := by
  intro x y hxy
  obtain ⟨m, hm, hx⟩ := exists_roundTo x n
  obtain ⟨k, hk, hy⟩ := exists_roundTo y n
  have hunit : (0 : ℤ) < 10 ^ (64 - min n 64) := by positivity
  change roundTo x n ≤ roundTo y n
  rw [hx, hy]
  exact mul_le_mul_of_nonneg_right (hm.mono hunit hxy hk) hunit.le

theorem floor_eq_ediv (x : ℤ) : floor x = x / one * one := by rw [floor_eq, floor_toRat]

theorem isGreatest_floor (x : ℤ) : IsGreatest {y | one ∣ y ∧ y ≤ x} (floor x) := by
  rw [floor_eq_ediv]
  refine ⟨⟨dvd_mul_left _ _, Int.ediv_mul_le x one_pos.ne'⟩, ?_⟩
  rintro _ ⟨⟨k, rfl⟩, hk⟩
  rw [mul_comm] at hk ⊢
  exact mul_le_mul_of_nonneg_right ((Int.le_ediv_iff_mul_le one_pos).mpr hk) one_pos.le

theorem isLeast_ceil (x : ℤ) : IsLeast {y | one ∣ y ∧ x ≤ y} (ceil x) := by
  obtain ⟨⟨hwhole, hle⟩, hgreatest⟩ := isGreatest_floor (-x)
  rw [ceil_eq_neg_floor]
  refine ⟨⟨hwhole.neg_right, le_neg.mp hle⟩, fun y ⟨hy, hxy⟩ => ?_⟩
  exact neg_le.mp (hgreatest ⟨hy.neg_right, neg_le_neg hxy⟩)

/-- The multiple of `d` between zero and `x` that is nearest to `x`. -/
structure NearestInward (x d t : ℤ) : Prop where
  multiple : d ∣ t
  between : t ∈ Set.uIcc 0 x
  nearest : ∀ y ∈ Set.uIcc 0 x, d ∣ y → y ≠ t → |x - t| < |x - y|

theorem mem_uIcc_zero_neg : -y ∈ Set.uIcc 0 (-x) ↔ y ∈ Set.uIcc 0 x := by
  rw [Set.mem_uIcc, Set.mem_uIcc]
  omega

theorem NearestInward.neg {t : ℤ} (h : NearestInward x d t) : NearestInward (-x) d (-t) := by
  refine ⟨h.multiple.neg_right, mem_uIcc_zero_neg.mpr h.between, fun y hy hwhole hne => ?_⟩
  have hmirror (k : ℤ) : |-x - k| = |x - -k| := by
    rw [← abs_neg]
    congr 1
    ring
  rw [hmirror, hmirror, neg_neg]
  exact h.nearest (-y) (mem_uIcc_zero_neg.mp (by rwa [neg_neg])) hwhole.neg_right
    fun heq => hne (by rw [← heq, neg_neg])

theorem nearestInward_of_nonneg (hx : 0 ≤ x) : NearestInward x one (trunc x) := by
  have htrunc : trunc x = floor x := by rw [trunc_of_nonneg hx, floor_eq_ediv]
  obtain ⟨⟨hwhole, hle⟩, hgreatest⟩ := isGreatest_floor x
  have hnonneg : 0 ≤ floor x := hgreatest ⟨dvd_zero one, hx⟩
  rw [htrunc]
  refine ⟨hwhole, Set.mem_uIcc.mpr (.inl ⟨hnonneg, hle⟩), fun y hy hmultiple hne => ?_⟩
  rw [Set.uIcc_of_le hx] at hy
  have hlt : y < floor x := lt_of_le_of_ne (hgreatest ⟨hmultiple, hy.2⟩) hne
  rw [abs_of_nonneg (sub_nonneg.mpr hle), abs_of_nonneg (sub_nonneg.mpr hy.2)]
  omega

theorem nearestInward_trunc (x : ℤ) : NearestInward x one (trunc x) := by
  rcases le_total 0 x with hx | hx
  · exact nearestInward_of_nonneg hx
  · have hneg := (nearestInward_of_nonneg (neg_nonneg.mpr hx)).neg
    rwa [neg_neg, trunc_neg, neg_neg] at hneg

theorem one_eq : one = 10 ^ 64 := tenPow_eq (by decide)

/-- Rounding from one scale to another finds the nearest multiple exactly where the scales differ by
less than 2^32, or where what is rounded is less than half of the power of ten that is left of the
difference. On the grid it keeps the order and what is rounded already, without a condition; the
other roundings find the next whole number below, above and toward zero. -/
theorem roundings_nearest (x : ℤ) (source target n : ℕ) :
    (target < source →
      ((∀ m, rescale x source target = m ↔ NearestMultiple x (10 ^ (source - target)) m) ↔
        source - target < 2 ^ 32 ∨ 2 * |x| < 10 ^ ((source - target) % 2 ^ 32))) ∧
    (source ≤ target → (rescale x source target = x * 10 ^ (target - source) ↔
      target - source < 2 ^ 32 ∨ x = 0)) ∧
    (∃ m, NearestMultiple x (10 ^ (64 - min n 64)) m ∧ roundTo x n = m * 10 ^ (64 - min n 64)) ∧
    roundTo (roundTo x n) n = roundTo x n ∧
    (∀ y, x ≤ y → roundTo x n ≤ roundTo y n) ∧
    IsGreatest {y | 10 ^ 64 ∣ y ∧ y ≤ x} (floor x) ∧
    IsLeast {y | 10 ^ 64 ∣ y ∧ x ≤ y} (ceil x) ∧
    NearestInward x (10 ^ 64) (trunc x) := by
  refine ⟨fun hlt => ?_, rescale_extends_iff x, exists_roundTo x n, roundTo_roundTo x n,
    fun y hxy => monotone_roundTo n hxy, ?_⟩
  · refine Iff.trans ⟨fun h => (h _).mp rfl, fun hnearest m => ?_⟩ (rescale_nearest_iff x hlt)
    exact ⟨fun h => h ▸ hnearest, hnearest.unique⟩
  · rw [← one_eq]
    exact ⟨isGreatest_floor x, isLeast_ceil x, nearestInward_trunc x⟩

theorem roundings_nearest_minusHalf : 0 < 1 ∧ rescale (-25) 1 0 = -3 ∧
    NearestMultiple (-25) (10 ^ (1 - 0)) (-3) ∧
      0 ≤ 2 ∧ rescale (-7) 0 2 = -7 * 10 ^ (2 - 0) := by
  have hlt : 0 < 1 := by decide
  have hhalf : rescale (-25) 1 0 = -3 := by decide
  have hle : 0 ≤ 2 := by decide
  have hround := ((roundings_nearest (-25) 1 0 0).1 hlt).mpr (.inl (by decide))
  have hextend := ((roundings_nearest (-7) 0 2 0).2.1 hle).mpr (.inl (by decide))
  exact ⟨hlt, hhalf, (hround (-3)).mp hhalf, hle, hextend⟩

/-- A difference of 2^32 scales counts as none, so that 1 stays 1 where the nearest multiple is 0. -/
theorem rescale_beyond_word : 0 < 4294967296 ∧ rescale 1 4294967296 0 = 1 ∧
    ¬NearestMultiple 1 (10 ^ (4294967296 - 0)) (rescale 1 4294967296 0) := by
  have hlt : 0 < exponentEnd := by decide
  have hvalue : rescale 1 exponentEnd 0 = 1 := by decide
  have hword : ¬(exponentEnd - 0 < exponentEnd) := by decide
  have hlarge : ¬2 * |(1 : ℤ)| < 10 ^ ((exponentEnd - 0) % exponentEnd) := by decide
  have hnearest := (rescale_nearest_iff 1 hlt).not.mpr (not_or.mpr ⟨hword, hlarge⟩)
  exact ⟨hlt, hvalue, hnearest⟩

end Reckoner.Decimal
