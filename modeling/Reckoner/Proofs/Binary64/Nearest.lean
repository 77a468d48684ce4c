import Mathlib
import Reckoner.Binary64.Basic

set_option autoImplicit false

namespace Reckoner.Binary64

def toRat : Binary64 → ℚ
  | .finite s m e => (if s then -m else m : ℤ) * 2 ^ e
  | _ => 0

/-- The finite numbers of the format, each in its one form. -/
def Canonical : Binary64 → Prop
  | .finite _ m e =>
    m < mantissaEnd ∧ minExponent ≤ e ∧ e ≤ maxExponent ∧ (mantissaEnd / 2 ≤ m ∨ e = minExponent)
  | _ => False

def mantissa : Binary64 → Nat
  | .finite _ m _ => m
  | _ => 0

/-- The number is nearest to `r` in the format; beside another one as near its mantissa is even. -/
structure IsNearest (r : ℚ) (x : Binary64) : Prop where
  canonical : x.Canonical
  nearest : ∀ y : Binary64, y.Canonical → |x.toRat - r| ≤ |y.toRat - r|
  even : ∀ y : Binary64, y.Canonical → |x.toRat - r| = |y.toRat - r| → y.toRat ≠ x.toRat →
    x.mantissa % 2 = 0

/-- Nearest, and at the only value that is. -/
structure IsTheNearest (r : ℚ) (x : Binary64) : Prop where
  isNearest : IsNearest r x
  toRat_eq : ∀ y, IsNearest r y → y.toRat = x.toRat

variable {n m q : ℕ} {r a : ℚ} {e f : ℤ} {x y : Binary64}

theorem two_zpow_pos (e : ℤ) : (0 : ℚ) < 2 ^ e := zpow_pos two_pos e

theorem two_zpow_add (e : ℤ) (k : ℕ) : (2 : ℚ) ^ (e + k) = 2 ^ k * 2 ^ e := by
  rw [zpow_add₀ two_ne_zero, zpow_natCast, mul_comm]

theorem two_mul_half_mantissaEnd : mantissaEnd / 2 * 2 = mantissaEnd := by decide

theorem cast_mantissaEnd : (mantissaEnd : ℚ) = 2 ^ 53 := by
  norm_num [mantissaEnd, mantissaBits]

theorem cast_half_mantissaEnd : ((mantissaEnd / 2 : ℕ) : ℚ) = 2 ^ 52 := by
  norm_num [mantissaEnd, mantissaBits]

theorem abs_toRat (s : Bool) (m : ℕ) (e : ℤ) : |toRat (.finite s m e)| = m * 2 ^ e := by
  rw [toRat, abs_mul, abs_of_pos (two_zpow_pos e)]
  cases s <;> simp

theorem exponent_le (hm : m < mantissaEnd) (hn : mantissaEnd / 2 ≤ n ∨ f = minExponent)
    (he : minExponent ≤ e) (h : (m : ℚ) * 2 ^ e = n * 2 ^ f) : f ≤ e := by
  rcases hn with hn | rfl
  · by_contra hlt
    obtain ⟨j, rfl⟩ := Int.lt.dest (not_le.mp hlt)
    rw [two_zpow_add, ← mul_assoc] at h
    have hmn : m = n * 2 ^ (j + 1) := by
      exact_mod_cast mul_right_cancel₀ (two_zpow_pos e).ne' h
    have htwo : 2 ≤ 2 ^ (j + 1) := Nat.le_self_pow j.succ_ne_zero 2
    have hfull := Nat.mul_le_mul hn htwo
    rw [two_mul_half_mantissaEnd, ← hmn] at hfull
    omega
  · exact he

theorem Canonical.eq_of_toRat (hx : x.Canonical) (hy : y.Canonical) (h : x.toRat = y.toRat)
    (hxz : x ≠ .zero true) (hyz : y ≠ .zero true) : x = y := by
  cases x with
  | infinite | nan => exact hx.elim
  | finite s m e =>
  cases y with
  | infinite | nan => exact hy.elim
  | finite t n f =>
    obtain ⟨hm, he, -, hmfull⟩ := hx
    obtain ⟨hn, hf, -, hnfull⟩ := hy
    have habs : (m : ℚ) * 2 ^ e = n * 2 ^ f := by
      rw [← abs_toRat s, ← abs_toRat t, h]
    obtain rfl : e = f :=
      le_antisymm (exponent_le hn hmfull hf habs.symm) (exponent_le hm hnfull he habs)
    obtain rfl : m = n := by
      exact_mod_cast mul_right_cancel₀ (two_zpow_pos e).ne' habs
    have hsign := mul_right_cancel₀ (two_zpow_pos e).ne' h
    -- Only a zero has two signs.
    have hzero (hst : s ≠ t) : m = 0 := by
      cases s <;> cases t <;> simp at hst hsign <;> omega
    have hleast (hm0 : m = 0) : e = minExponent := by
      refine hmfull.resolve_left fun hfull => ?_
      have hpos : 0 < mantissaEnd / 2 := by decide
      omega
    by_cases hst : s = t
    · rw [hst]
    · obtain rfl := hzero hst
      obtain rfl := hleast rfl
      cases s
      · cases t
        · rfl
        · exact absurd rfl hyz
      · exact absurd rfl hxz

/-- A canonical number on the grid of its own or a higher binade at an odd place has an odd
mantissa. -/
theorem Canonical.odd_mantissa (hy : y.Canonical) {k : ℤ} (h : y.toRat = k * 2 ^ e)
    (hk : mantissaEnd / 2 ≤ k.natAbs ∨ e = minExponent) (hodd : k % 2 = 1) :
    y.mantissa % 2 = 1 := by
  cases y with
  | infinite | nan => exact hy.elim
  | finite s m f =>
    obtain ⟨hm, hf, -, -⟩ := hy
    have habs : (m : ℚ) * 2 ^ f = k.natAbs * 2 ^ e := by
      rw [← abs_toRat s, h, abs_mul, abs_of_pos (two_zpow_pos e), Nat.cast_natAbs, Int.cast_abs]
    obtain ⟨j, rfl⟩ := Int.le.dest (exponent_le hm hk hf habs)
    rw [two_zpow_add, ← mul_assoc] at habs
    have hmk : m * 2 ^ j = k.natAbs := by
      exact_mod_cast mul_right_cancel₀ (two_zpow_pos e).ne' habs
    have hodd' : m * 2 ^ j % 2 = 1 := by omega
    exact (Nat.odd_mul.mp (Nat.odd_iff.mpr hodd')).1 |> Nat.odd_iff.mp

theorem nearest_of_error {q : ℤ} (h : |(q : ℚ) - a| ≤ 1 / 2) (k : ℤ) :
    |(q : ℚ) - a| ≤ |(k : ℚ) - a| ∧
      (|(q : ℚ) - a| = |(k : ℚ) - a| → k ≠ q → |(q : ℚ) - a| = 1 / 2) := by
  by_cases hk : k = q
  · rw [hk]
    exact ⟨le_rfl, fun _ hne => absurd rfl hne⟩
  · have hone : (1 : ℚ) ≤ |(k : ℚ) - q| := by
      exact_mod_cast Int.one_le_abs (sub_ne_zero.mpr hk)
    have htriangle : |(k : ℚ) - q| ≤ |(k : ℚ) - a| + |(q : ℚ) - a| := by
      rw [abs_sub_comm (q : ℚ) a]
      exact abs_sub_le _ _ _
    exact ⟨by linarith, fun heq _ => by linarith⟩

/-- The numbers near `r` are the multiples of `2 ^ e`. -/
structure OnBinade (r : ℚ) (e : ℤ) : Prop where
  least : minExponent ≤ e
  below : r < 2 ^ 53 * 2 ^ e
  above : e = minExponent ∨ 2 ^ 52 * 2 ^ e ≤ r

/-- A number of the format is on the grid of a binade or below the binade. -/
theorem Canonical.grid {y : Binary64} (hy : y.Canonical) (e : ℤ) :
    (∃ k : ℤ, y.toRat = k * 2 ^ e) ∨ (minExponent < e ∧ y.toRat < 2 ^ 52 * 2 ^ e) := by
  cases y with
  | finite s m f =>
    obtain ⟨hm, hf, -, -⟩ := hy
    rcases le_or_gt e f with hle | hlt
    · obtain ⟨j, rfl⟩ := Int.le.dest hle
      refine .inl ⟨(if s then -m else m : ℤ) * 2 ^ j, ?_⟩
      rw [toRat, two_zpow_add]
      push_cast
      ring
    · refine .inr ⟨by omega, ?_⟩
      have hupper : ((if s then -m else m : ℤ) : ℚ) < 2 ^ 53 := by
        have hm' : (m : ℤ) < 2 ^ 53 := by exact_mod_cast hm
        exact_mod_cast (by split <;> omega : (if s then -m else m : ℤ) < 2 ^ 53)
      have hstep : (2 : ℚ) ^ f ≤ 2 ^ (e - 1) := zpow_le_zpow_right₀ one_le_two (by omega)
      calc toRat (.finite s m f) < 2 ^ 53 * 2 ^ f :=
            mul_lt_mul_of_pos_right hupper (two_zpow_pos f)
        _ ≤ 2 ^ 53 * 2 ^ (e - 1) := by gcongr
        _ = 2 ^ 52 * 2 ^ e := by
            rw [zpow_sub_one₀ two_ne_zero]
            ring
  | infinite | nan => exact hy.elim

theorem abs_mul_sub (q : ℤ) (r : ℚ) (e : ℤ) :
    |(q : ℚ) * 2 ^ e - r| = |(q : ℚ) - r / 2 ^ e| * 2 ^ e := by
  have hpos := two_zpow_pos e
  rw [← abs_of_pos hpos, ← abs_mul, abs_of_pos hpos, sub_mul, div_mul_cancel₀ _ hpos.ne']

theorem lt_of_below {q : ℤ} (hq : |(q : ℚ) - r / 2 ^ e| ≤ 1 / 2) (hfirst : 2 ^ 52 * 2 ^ e ≤ r)
    (hbelow : a < 2 ^ 52 * 2 ^ e) : |(q : ℚ) * 2 ^ e - r| < |a - r| := by
  have hcast : ((2 ^ 52 : ℤ) : ℚ) = 2 ^ 52 := by norm_num
  calc |(q : ℚ) * 2 ^ e - r| ≤ |((2 ^ 52 : ℤ) : ℚ) * 2 ^ e - r| := by
        rw [abs_mul_sub, abs_mul_sub]
        exact mul_le_mul_of_nonneg_right (nearest_of_error hq _).1 (two_zpow_pos e).le
    _ = r - 2 ^ 52 * 2 ^ e := by
        rw [hcast, abs_sub_comm, abs_of_nonneg (sub_nonneg.mpr hfirst)]
    _ < r - a := by linarith
    _ = |a - r| := by rw [abs_sub_comm, abs_of_pos (by linarith)]

/-- The nearest multiple on the grid of its binade is nearest in the whole format. -/
theorem OnBinade.nearest (h : OnBinade r e) {q : ℤ} (hq : |(q : ℚ) - r / 2 ^ e| ≤ 1 / 2)
    (hy : y.Canonical) : |(q : ℚ) * 2 ^ e - r| ≤ |y.toRat - r| := by
  rcases hy.grid e with ⟨k, hk⟩ | ⟨hleast, hbelow⟩
  · rw [hk, abs_mul_sub, abs_mul_sub]
    exact mul_le_mul_of_nonneg_right (nearest_of_error hq k).1 (two_zpow_pos e).le
  · exact (lt_of_below hq (h.above.resolve_left hleast.ne') hbelow).le

theorem OnBinade.tie (h : OnBinade r e) {q : ℤ} (hq : |(q : ℚ) - r / 2 ^ e| ≤ 1 / 2)
    (hy : y.Canonical) (heq : |(q : ℚ) * 2 ^ e - r| = |y.toRat - r|)
    (hne : y.toRat ≠ q * 2 ^ e) :
    |(q : ℚ) - r / 2 ^ e| = 1 / 2 ∧ (q % 2 = 0 → y.mantissa % 2 = 1) := by
  have hpos := two_zpow_pos e
  rcases hy.grid e with ⟨k, hk⟩ | ⟨hleast, hbelow⟩
  · -- On the same grid the two are neighbours, so one of them is odd.
    rw [hk, abs_mul_sub, abs_mul_sub] at heq
    have heq := mul_right_cancel₀ hpos.ne' heq
    have hkq : k ≠ q := fun hkq => hne (by rw [hk, hkq])
    have hhalf := (nearest_of_error hq k).2 heq hkq
    refine ⟨hhalf, fun heven => hy.odd_mantissa hk ?_ ?_⟩
    · refine h.above.symm.imp_left fun hfirst => ?_
      have hfirst : 2 ^ 52 ≤ r / 2 ^ e := (le_div_iff₀ hpos).mpr hfirst
      have hlow : -(1 / 2) ≤ (k : ℚ) - r / 2 ^ e := (abs_le.mp (heq ▸ hq)).1
      have hlt : ((mantissaEnd / 2 : ℕ) : ℚ) < k + 1 := by
        rw [cast_half_mantissaEnd]
        linarith
      have hlt' : ((mantissaEnd / 2 : ℕ) : ℤ) < k + 1 := by
        rw [← Int.cast_lt (R := ℚ), Int.cast_natCast, Int.cast_add, Int.cast_one]
        exact hlt
      omega
    · have hclose : |(q : ℚ) - k| ≤ 1 := by
        have htriangle := abs_sub_le (q : ℚ) (r / 2 ^ e) k
        rw [abs_sub_comm (r / 2 ^ e) k, ← heq, hhalf] at htriangle
        linarith
      have hclose' : |q - k| ≤ 1 := by exact_mod_cast hclose
      rw [abs_le] at hclose'
      omega
  · -- In a lower binade the other number is farther away.
    exact absurd heq (lt_of_below hq (h.above.resolve_left hleast.ne') hbelow).ne

/-- Rounded to the grid of its binade, a tie to the even multiple, a number is at the one nearest
value of the format. -/
theorem OnBinade.isTheNearest (h : OnBinade r e) {q : ℤ} (hq : |(q : ℚ) - r / 2 ^ e| ≤ 1 / 2)
    (htie : |(q : ℚ) - r / 2 ^ e| = 1 / 2 → q % 2 = 0) (hx : x.Canonical)
    (hvalue : x.toRat = q * 2 ^ e) (heven : q % 2 = 0 → x.mantissa % 2 = 0) :
    IsTheNearest r x := by
  refine ⟨⟨hx, fun y hy => ?_, fun y hy heq hne => ?_⟩, fun y hy => ?_⟩
  · rw [hvalue]
    exact h.nearest hq hy
  · rw [hvalue] at heq hne
    exact heven (htie (h.tie hq hy heq hne).1)
  · by_contra hne
    have heq := le_antisymm (hy.nearest x hx) (hvalue ▸ h.nearest hq hy.canonical)
    have htwo := h.tie hq hy.canonical (hvalue ▸ heq.symm) (hvalue ▸ hne)
    have hodd := htwo.2 (htie htwo.1)
    have := hy.even x hx heq (Ne.symm hne)
    omega

theorem toRat_neg (y : Binary64) : y.neg.toRat = -y.toRat := by
  cases y with
  | finite s m e => cases s <;> simp [neg, toRat]
  | infinite | nan => simp [neg, toRat]

theorem mantissa_neg (y : Binary64) : y.neg.mantissa = y.mantissa := by
  cases y <;> rfl

theorem Canonical.neg (hy : y.Canonical) : y.neg.Canonical := by
  cases y with
  | finite => exact hy
  | infinite | nan => exact hy.elim

theorem abs_toRat_neg_sub (y : Binary64) (r : ℚ) : |y.neg.toRat - -r| = |y.toRat - r| := by
  rw [toRat_neg, neg_sub_neg, abs_sub_comm]

theorem IsNearest.neg (h : IsNearest r x) : IsNearest (-r) x.neg := by
  have hneg (y : Binary64) : |y.toRat - -r| = |y.neg.toRat - r| := by
    rw [← abs_toRat_neg_sub, neg_neg]
  refine ⟨h.canonical.neg, fun y hy => ?_, fun y hy heq hne => ?_⟩
  · rw [abs_toRat_neg_sub, hneg]
    exact h.nearest _ hy.neg
  · rw [mantissa_neg]
    rw [abs_toRat_neg_sub, hneg] at heq
    refine h.even _ hy.neg heq fun hyx => hne ?_
    rw [toRat_neg, ← hyx, toRat_neg, neg_neg]

theorem IsTheNearest.neg (h : IsTheNearest r x) : IsTheNearest (-r) x.neg := by
  refine ⟨h.isNearest.neg, fun y hy => ?_⟩
  have hneg := hy.neg
  rw [neg_neg] at hneg
  have hvalue := h.toRat_eq y.neg hneg
  rw [toRat_neg] at hvalue ⊢
  rw [← hvalue, neg_neg]

theorem toRat_zero (s : Bool) : (zero s).toRat = 0 := by
  simp [zero, toRat]

theorem isTheNearest_zero : IsTheNearest 0 (zero false) := by
  have hcanonical : (zero false).Canonical := ⟨by decide, le_rfl, by decide, .inr rfl⟩
  refine ⟨⟨hcanonical, fun y _ => ?_, fun _ _ _ _ => rfl⟩, fun y hy => ?_⟩
  · rw [toRat_zero, sub_zero, abs_zero]
    exact abs_nonneg _
  · have hle := hy.nearest _ hcanonical
    rw [toRat_zero, sub_zero, sub_zero, abs_zero] at hle
    rw [toRat_zero]
    exact abs_eq_zero.mp (le_antisymm hle (abs_nonneg _))

theorem ne_zero_of_mantissa (h : x.mantissa ≠ 0) (s : Bool) : x ≠ .zero s := by
  rintro rfl
  exact h rfl

theorem IsTheNearest.eq_iff (h : IsTheNearest r x) (hzero : x ≠ .zero true) (y : Binary64) :
    x = y ↔ IsNearest r y ∧ y ≠ .zero true := by
  constructor
  · rintro rfl
    exact ⟨h.isNearest, hzero⟩
  · rintro ⟨hy, hyzero⟩
    exact h.isNearest.canonical.eq_of_toRat hy.canonical (h.toRat_eq y hy).symm hzero hyzero

end Reckoner.Binary64
