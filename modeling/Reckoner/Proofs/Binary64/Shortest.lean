import Reckoner.Binary64.Shortest
import Reckoner.Proofs.Binary64.Nearest

set_option autoImplicit false

namespace Reckoner.Binary64

variable {m k turns : ℕ} {e g h : ℤ} {r : ℚ} {up : ℕ → Bool} {c : Cell}

namespace Cell

/-- What lies between the bounds of the cell, or on them where they belong to it. -/
structure Contains (c : Cell) (r : ℚ) : Prop where
  low_le : (c.low / c.den : ℚ) ≤ r
  le_high : r ≤ c.high / c.den
  closed : r = c.low / c.den ∨ r = c.high / c.den → c.closed = true

theorem parts_pos (c : Cell) (g : ℤ) : 0 < (c.grid g).2 := by
  unfold grid
  split
  · exact Nat.one_pos
  · exact Nat.pow_pos (by norm_num)

theorem step_pos (hden : 0 < c.den) (g : ℤ) : 0 < (c.grid g).1 := by
  unfold grid
  split
  · exact Nat.mul_pos hden (Nat.pow_pos (by norm_num))
  · exact hden

theorem grid_ratio (c : Cell) (g : ℤ) : ((c.grid g).1 / (c.grid g).2 : ℚ) = c.den * 10 ^ g := by
  unfold grid
  split
  · next hg =>
    obtain ⟨n, rfl⟩ := Int.eq_ofNat_of_zero_le hg
    simp
  · next hg =>
    obtain ⟨n, hn⟩ := Int.eq_ofNat_of_zero_le (by omega : 0 ≤ -g)
    obtain rfl : g = -n := by omega
    simp [div_eq_mul_inv]

theorem holds_zero (hlow : 0 < c.low) (g : ℤ) : c.holds g 0 = false := by
  have hpos : 0 < c.low * (c.grid g).2 := Nat.mul_pos hlow (c.parts_pos g)
  simp only [holds, Nat.zero_mul, Nat.le_zero, Nat.not_lt_zero, hpos.ne', decide_false,
    Bool.false_and, ite_self]

theorem holds_bounds (hholds : c.holds g k = true) :
    c.low * (c.grid g).2 ≤ k * (c.grid g).1 ∧ k * (c.grid g).1 ≤ c.high * (c.grid g).2 ∧
      (k * (c.grid g).1 = c.low * (c.grid g).2 ∨ k * (c.grid g).1 = c.high * (c.grid g).2 →
        c.closed = true) := by
  unfold holds at hholds
  simp only at hholds
  split at hholds
  · next hclosed =>
    simp only [Bool.and_eq_true, decide_eq_true_eq] at hholds
    exact ⟨hholds.1, hholds.2, fun _ => hclosed⟩
  · simp only [Bool.and_eq_true, decide_eq_true_eq] at hholds
    exact ⟨hholds.1.le, hholds.2.le, fun h => by omega⟩

theorem contains_of_holds (hden : 0 < c.den) (hholds : c.holds g k = true) :
    c.Contains (k * 10 ^ g) := by
  have hden' : (0 : ℚ) < c.den := by exact_mod_cast hden
  have hparts : (0 : ℚ) < (c.grid g).2 := by exact_mod_cast c.parts_pos g
  obtain ⟨hlow, hhigh, hclosed⟩ := holds_bounds hholds
  have hpoint : (k * 10 ^ g : ℚ) = (k * (c.grid g).1 : ℕ) / ((c.grid g).2 * c.den) := by
    have hratio := c.grid_ratio g
    rw [div_eq_iff hparts.ne'] at hratio
    push_cast
    rw [hratio]
    field_simp
  have hbound (b : ℕ) : (b / c.den : ℚ) = (b * (c.grid g).2 : ℕ) / ((c.grid g).2 * c.den) := by
    push_cast
    field_simp
  refine ⟨?_, ?_, fun hor => hclosed ?_⟩
  · rw [hpoint, hbound]
    gcongr
  · rw [hpoint, hbound]
    gcongr
  · have hscale : ((c.grid g).2 * c.den : ℚ) ≠ 0 := (mul_pos hparts hden').ne'
    rw [hpoint, hbound, hbound, div_left_inj' hscale, div_left_inj' hscale] at hor
    exact_mod_cast hor

theorem holds_of_nearest? (hk : c.nearest? up g = some k) : c.holds g k = true := by
  unfold nearest? at hk
  simp only at hk
  split at hk
  · next hlower hupper =>
    split at hk <;> cases hk
    · exact hupper
    · exact hlower
  · next hlower _ =>
    cases hk
    exact hlower
  · next hupper =>
    cases hk
    exact hupper
  · cases hk

/-- A grid without a gap wider than the upper half of the cell hits it. -/
theorem nearest?_ne_none (hden : 0 < c.den) (hlow : c.low < c.value)
    (hstep : c.value * (c.grid g).2 + (c.grid g).1 ≤ c.high * (c.grid g).2) :
    c.nearest? up g ≠ none := by
  have hstep_pos := step_pos hden g
  have hbelow := Nat.mul_lt_mul_of_pos_right hlow (c.parts_pos g)
  unfold nearest?
  simp only
  have hhit : c.holds g (c.value * (c.grid g).2 / (c.grid g).1) = true ∨
      c.holds g (c.value * (c.grid g).2 / (c.grid g).1 + 1) = true := by
    simp only [holds]
    generalize (c.grid g).1 = step at hstep hstep_pos
    generalize c.low * (c.grid g).2 = low at hbelow
    generalize c.high * (c.grid g).2 = high at hstep
    generalize c.value * (c.grid g).2 = value at hstep hbelow
    have hsplit := Nat.div_add_mod' value step
    have hmod := Nat.mod_lt value hstep_pos
    rw [Nat.add_mul, Nat.one_mul]
    -- Either the value is on the grid, or the next place above it is in the cell.
    rcases Nat.eq_zero_or_pos (value % step) with hzero | hpos
    · left
      split <;> simp only [Bool.and_eq_true, decide_eq_true_eq] <;> omega
    · right
      split <;> simp only [Bool.and_eq_true, decide_eq_true_eq] <;> omega
  split
  · split <;> exact Option.some_ne_none _
  · exact Option.some_ne_none _
  · exact Option.some_ne_none _
  · next hlower hupper =>
    rw [hlower, hupper] at hhit
    simp at hhit

theorem holds_search (hlast : c.nearest? up (g - turns) ≠ none) :
    c.holds (c.search up (turns + 1) g).exponent (c.search up (turns + 1) g).coefficient =
      true := by
  -- The last grid stays the same while the search goes down to it.
  induction turns generalizing g with
  | zero =>
    rw [Nat.cast_zero, sub_zero] at hlast
    obtain ⟨k, hk⟩ := Option.ne_none_iff_exists'.mp hlast
    simp only [search, hk]
    exact holds_of_nearest? hk
  | succ turns ih =>
    rw [search]
    cases hk : c.nearest? up g with
    | some k => exact holds_of_nearest? hk
    | none =>
      refine ih ?_
      rwa [sub_sub, add_comm 1, ← Nat.cast_succ]

end Cell

theorem ten_zpow_le (hup : 0 ≤ g → 10 * g ≤ 3 * h) (hdown : g < 0 → 33 * g ≤ 10 * h) :
    (10 : ℚ) ^ g ≤ 2 ^ h := by
  have hten := zpow_pos (show (0 : ℚ) < 10 by norm_num) g
  have htwo := two_zpow_pos h
  rcases le_or_gt 0 g with hg | hg
  · rw [← pow_le_pow_iff_left₀ hten.le htwo.le three_ne_zero, ← zpow_natCast, ← zpow_natCast,
      ← zpow_mul, ← zpow_mul]
    calc (10 : ℚ) ^ (g * (3 : ℕ)) = (10 ^ 3) ^ g := by
          rw [mul_comm, zpow_mul, zpow_natCast]
      _ ≤ (2 ^ 10) ^ g := zpow_le_zpow_left₀ hg (by norm_num) (by norm_num)
      _ = 2 ^ ((10 : ℕ) * g) := by rw [zpow_mul, zpow_natCast]
      _ ≤ 2 ^ (h * (3 : ℕ)) := zpow_le_zpow_right₀ one_le_two (by push_cast; omega)
  · have hten' : (10 : ℕ) ≠ 0 := by norm_num
    rw [← pow_le_pow_iff_left₀ hten.le htwo.le hten', ← zpow_natCast, ← zpow_natCast,
      ← zpow_mul, ← zpow_mul]
    calc (10 : ℚ) ^ (g * (10 : ℕ)) = ((10 ^ 10) ^ (-g))⁻¹ := by
          rw [mul_comm, zpow_mul, zpow_natCast, zpow_neg, inv_inv]
      _ ≤ ((2 ^ 33) ^ (-g))⁻¹ :=
        inv_anti₀ (by positivity) (zpow_le_zpow_left₀ (by omega) (by norm_num) (by norm_num))
      _ = 2 ^ ((33 : ℕ) * g) := by rw [zpow_neg, inv_inv, zpow_mul, zpow_natCast]
      _ ≤ 2 ^ (h * (10 : ℕ)) := zpow_le_zpow_right₀ one_le_two (by push_cast; omega)

theorem exists_cell_unit (m : ℕ) (e : ℤ) : ∃ unit d : ℕ,
    (cell m e).den = 2 ^ d ∧ (unit : ℤ) - d = e - 2 ∧
      (cell m e).value = 4 * m * 2 ^ unit ∧ (cell m e).high = (4 * m + 2) * 2 ^ unit ∧
      (cell m e).low =
        (4 * m - if m = mantissaEnd / 2 ∧ minExponent < e then 1 else 2) * 2 ^ unit := by
  by_cases he : 0 ≤ e - 2
  · obtain ⟨unit, hunit⟩ := Int.eq_ofNat_of_zero_le he
    exact ⟨unit, 0, by simp [cell, hunit], by omega, by simp [cell, hunit], by simp [cell, hunit],
      by simp [cell, hunit]⟩
  · obtain ⟨d, hd⟩ := Int.eq_ofNat_of_zero_le (by omega : 0 ≤ -(e - 2))
    have htwo : ¬2 ≤ e := by omega
    refine ⟨0, d, ?_, by omega, ?_, ?_, ?_⟩ <;> simp [cell, htwo, hd]

theorem log2_mul_two_pow (hm : m ≠ 0) (k : ℕ) : (m * 2 ^ k).log2 = m.log2 + k := by
  have hlow := Nat.log2_self_le hm
  have hhigh := Nat.lt_log2_self (n := m)
  rw [Nat.log2_eq_iff (by positivity), add_right_comm, pow_add 2 m.log2, pow_add 2 (m.log2 + 1)]
  exact ⟨Nat.mul_le_mul_right _ hlow, Nat.mul_lt_mul_of_pos_right hhigh (Nat.two_pow_pos k)⟩

theorem topGrid_cell (hm : m ≠ 0) (e : ℤ) :
    (cell m e).topGrid = ((m.log2 : ℤ) + e + 2) * 30103 / 100000 + 1 := by
  obtain ⟨unit, d, hden, hunit, hvalue, -⟩ := exists_cell_unit m e
  have hfour : 4 * m * 2 ^ unit = m * 2 ^ (unit + 2) := by
    rw [pow_add]
    ring
  rw [Cell.topGrid, hvalue, hden, hfour, log2_mul_two_pow hm, Nat.log2_two_pow]
  congr 3
  push_cast
  omega

/-- The last grid of the search has no gap wider than the upper half of the cell. -/
theorem last_grid_le (hm : m ≠ 0) (hmend : m < mantissaEnd) (hmin : minExponent ≤ e)
    (hmax : e ≤ maxExponent) :
    (10 : ℚ) ^ ((cell m e).topGrid - (23 : ℕ)) ≤ 2 ^ (e - 1) := by
  have hlog : m.log2 < 53 := (Nat.log2_lt hm).mpr hmend
  have hleast : minExponent = -1074 := rfl
  have hmost : maxExponent = 971 := rfl
  rw [topGrid_cell hm]
  -- The grids go down 22 places from about the size of the number, which is less than 2^53 units;
  -- the rest makes up for the estimate of log 2 and for the two comparisons with powers of ten.
  exact ten_zpow_le (fun hg => by push_cast at hg ⊢; omega) (fun hg => by push_cast at hg ⊢; omega)

/-- The shortest digits of a number of the format lie in its cell. -/
theorem holds_shortest (up : ℕ → Bool) (hm : m ≠ 0) (hmend : m < mantissaEnd)
    (hmin : minExponent ≤ e) (hmax : e ≤ maxExponent) :
    (cell m e).holds (shortest up m e).exponent (shortest up m e).coefficient = true := by
  obtain ⟨unit, d, hden, hunit, hvalue, hhigh, hlow⟩ := exists_cell_unit m e
  have hlast := last_grid_le hm hmend hmin hmax
  have hdenpos : 0 < (cell m e).den := hden ▸ Nat.two_pow_pos d
  rw [shortest, if_neg hm]
  refine Cell.holds_search (Cell.nearest?_ne_none hdenpos ?_ ?_)
  · rw [hlow, hvalue]
    refine Nat.mul_lt_mul_of_pos_right ?_ (Nat.two_pow_pos unit)
    split <;> omega
  · generalize (cell m e).topGrid - (23 : ℕ) = g at hlast
    have hratio := (cell m e).grid_ratio g
    have hparts : (0 : ℚ) < ((cell m e).grid g).2 := by exact_mod_cast (cell m e).parts_pos g
    rw [div_eq_iff hparts.ne'] at hratio
    have hhalf : ((cell m e).den : ℚ) * 2 ^ (e - 1) = 2 * 2 ^ unit := by
      rw [hden, show e - 1 = (unit + 1 : ℕ) - (d : ℤ) by push_cast; omega, zpow_sub₀ two_ne_zero,
        zpow_natCast, zpow_natCast, pow_succ]
      push_cast
      field_simp
    have hstep : (((cell m e).grid g).1 : ℚ) ≤ 2 * 2 ^ unit * ((cell m e).grid g).2 := by
      rw [hratio, ← hhalf]
      gcongr
    have hstep' : ((cell m e).grid g).1 ≤ 2 * 2 ^ unit * ((cell m e).grid g).2 := by
      exact_mod_cast hstep
    rw [hvalue, hhigh, add_mul, add_mul]
    omega

theorem cell_low_pos (hm : m ≠ 0) (e : ℤ) : 0 < (cell m e).low := by
  obtain ⟨unit, d, -, -, -, -, hlow⟩ := exists_cell_unit m e
  rw [hlow]
  refine Nat.mul_pos ?_ (Nat.two_pow_pos unit)
  split <;> omega

theorem coefficient_pos (up : ℕ → Bool) (hm : m ≠ 0) (hmend : m < mantissaEnd)
    (hmin : minExponent ≤ e) (hmax : e ≤ maxExponent) : 0 < (shortest up m e).coefficient := by
  have hholds := holds_shortest up hm hmend hmin hmax
  refine Nat.pos_of_ne_zero fun hzero => ?_
  rw [hzero, Cell.holds_zero (cell_low_pos hm e)] at hholds
  cases hholds

theorem cell_bounds (hm : m ≠ 0) (e : ℤ) : 0 < (cell m e).den ∧
    ((cell m e).low / (cell m e).den : ℚ) =
      (m - if m = mantissaEnd / 2 ∧ minExponent < e then 1 / 4 else 1 / 2) * 2 ^ e ∧
    ((cell m e).high / (cell m e).den : ℚ) = (m + 1 / 2) * 2 ^ e := by
  obtain ⟨unit, d, hden, hunit, -, hhigh, hlow⟩ := exists_cell_unit m e
  have hpos : (0 : ℚ) < 2 ^ d := by positivity
  have hquarter : (4 * 2 ^ unit : ℚ) = 2 ^ e * 2 ^ d := by
    rw [← zpow_natCast 2 d, ← zpow_add₀ two_ne_zero, show e + d = (unit + 2 : ℕ) by omega,
      zpow_natCast, pow_add]
    ring
  rw [hden, hlow, hhigh]
  refine ⟨Nat.two_pow_pos d, ?_, ?_⟩
  · split <;>
    · rw [Nat.cast_mul, Nat.cast_sub (by omega)]
      push_cast
      rw [div_eq_iff hpos.ne', mul_assoc, ← hquarter]
      ring
  · push_cast
    rw [div_eq_iff hpos.ne', mul_assoc, ← hquarter]
    ring

theorem half_mantissaEnd_even : mantissaEnd / 2 % 2 = 0 := by decide

theorem toRat_positive (m : ℕ) (e : ℤ) : toRat (.finite false m e) = m * 2 ^ e := by
  simp [toRat]

theorem isTheNearest_of_half (hx : Canonical (.finite false m e))
    (habove : e = minExponent ∨ 2 ^ 52 * 2 ^ e ≤ r) (hlow : (m - 1 / 2) * 2 ^ e ≤ r)
    (hhigh : r ≤ (m + 1 / 2) * 2 ^ e)
    (htie : r = (m - 1 / 2) * 2 ^ e ∨ r = (m + 1 / 2) * 2 ^ e → m % 2 = 0) :
    IsTheNearest r (.finite false m e) := by
  have hpos := two_zpow_pos e
  have hunits : r = r / 2 ^ e * 2 ^ e := (div_mul_cancel₀ r hpos.ne').symm
  have hlow' : m - 1 / 2 ≤ r / 2 ^ e := (le_div_iff₀ hpos).mpr hlow
  have hhigh' : r / 2 ^ e ≤ m + 1 / 2 := (div_le_iff₀ hpos).mpr hhigh
  have hmend : (m : ℚ) + 1 / 2 < 2 ^ 53 := by
    have hle : (m : ℚ) + 1 ≤ mantissaEnd := by exact_mod_cast hx.1
    rw [← cast_mantissaEnd]
    linarith
  have hbinade : OnBinade r e :=
    ⟨hx.2.1, hhigh.trans_lt (mul_lt_mul_of_pos_right hmend hpos), habove⟩
  refine hbinade.isTheNearest (q := m) ?_ (fun herror => ?_) hx (toRat_positive m e) ?_
  · rw [Int.cast_natCast, abs_le]
    exact ⟨by linarith, by linarith⟩
  · rw [Int.cast_natCast, abs_eq (by norm_num)] at herror
    have hends : r = (m - 1 / 2) * 2 ^ e ∨ r = (m + 1 / 2) * 2 ^ e := by
      refine herror.imp (fun h => ?_) fun h => ?_
      · rw [show (m - 1 / 2 : ℚ) = r / 2 ^ e by linarith, ← hunits]
      · rw [show (m + 1 / 2 : ℚ) = r / 2 ^ e by linarith, ← hunits]
    exact_mod_cast htie hends
  · exact fun heven => by exact_mod_cast heven

/-- Below a power of two, where the numbers of the lower binade are half as far apart, what is
within a quarter of a unit of it rounds to it. -/
theorem isTheNearest_of_quarter (hx : Canonical (.finite false (mantissaEnd / 2) e))
    (hleast : minExponent < e) (hlow : (2 ^ 52 - 1 / 4) * 2 ^ e ≤ r)
    (hbelow : r < 2 ^ 52 * 2 ^ e) : IsTheNearest r (.finite false (mantissaEnd / 2) e) := by
  have hpos := two_zpow_pos (e - 1)
  have hhalf : (2 : ℚ) ^ e = 2 * 2 ^ (e - 1) := by
    rw [← zpow_one_add₀ two_ne_zero, add_sub_cancel]
  have hvalue := toRat_positive (mantissaEnd / 2) e
  rw [hhalf] at hlow hbelow
  rw [cast_half_mantissaEnd, hhalf] at hvalue
  have hbinade : OnBinade r (e - 1) := ⟨by omega, by linarith, .inr (by linarith)⟩
  have hlow' : 2 ^ 53 - 1 / 2 ≤ r / 2 ^ (e - 1) := (le_div_iff₀ hpos).mpr (by linarith)
  have hhigh' : r / 2 ^ (e - 1) < 2 ^ 53 := (div_lt_iff₀ hpos).mpr (by linarith)
  refine hbinade.isTheNearest (q := 2 ^ 53) ?_ (fun _ => by norm_num) hx ?_ (fun _ => ?_)
  · push_cast
    rw [abs_le]
    exact ⟨by linarith, by linarith⟩
  · rw [hvalue]
    push_cast
    ring
  · rw [mantissa]
    exact half_mantissaEnd_even

theorem Cell.Contains.isTheNearest (hr : (cell m e).Contains r) (hm : m ≠ 0)
    (hx : Canonical (.finite false m e)) : IsTheNearest r (.finite false m e) := by
  obtain ⟨hlow, hhigh, hclosed⟩ := hr
  obtain ⟨-, hlow_eq, hhigh_eq⟩ := cell_bounds hm e
  have hpos := two_zpow_pos e
  have hend : (cell m e).closed = true ↔ m % 2 = 0 := decide_eq_true_iff
  rw [hlow_eq, hhigh_eq, hend] at hclosed
  rw [hlow_eq] at hlow
  rw [hhigh_eq] at hhigh
  by_cases hnarrow : m = mantissaEnd / 2 ∧ minExponent < e
  · rw [if_pos hnarrow] at hlow
    obtain ⟨rfl, hleast⟩ := hnarrow
    rcases lt_or_ge r (2 ^ 52 * 2 ^ e) with hbelow | habove
    · rw [cast_half_mantissaEnd] at hlow
      exact isTheNearest_of_quarter hx hleast hlow hbelow
    · refine isTheNearest_of_half hx (.inr habove) (le_trans ?_ hlow) hhigh
        fun _ => half_mantissaEnd_even
      gcongr
      norm_num
  · rw [if_neg hnarrow] at hlow hclosed
    refine isTheNearest_of_half hx ?_ hlow hhigh hclosed
    rcases hx.2.2.2 with hfull | hleast
    · by_cases hleast : e = minExponent
      · exact .inl hleast
      · -- The mantissa is not the least one of its binade, so that half a unit does not leave it.
        have hlt : mantissaEnd / 2 < m := by
          have hmin := hx.2.1
          omega
        have hlt' : (2 ^ 52 + 1 : ℚ) ≤ m := by
          rw [← cast_half_mantissaEnd]
          exact_mod_cast hlt
        refine .inr (le_trans ?_ hlow)
        gcongr
        linarith
    · exact .inl hleast

/-- The shortest digits of a number of the format round to it. -/
theorem shortest_isTheNearest (up : ℕ → Bool) (hm : m ≠ 0) (hx : Canonical (.finite false m e)) :
    IsTheNearest ((shortest up m e).coefficient * 10 ^ (shortest up m e).exponent)
      (.finite false m e) := by
  have hden := (cell_bounds hm e).1
  have hholds := holds_shortest up hm hx.1 hx.2.1 hx.2.2.1
  exact (Cell.contains_of_holds hden hholds).isTheNearest hm hx

end Reckoner.Binary64
