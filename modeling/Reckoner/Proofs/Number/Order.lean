import Reckoner.Proofs.Power.Repeated

set_option autoImplicit false

namespace Reckoner

namespace Decimal

theorem product_comm (a b : ℤ) : product a b = product b a := by
  rw [product, product, mul_comm]

theorem product_neg_left (a b : ℤ) : product (-a) b = -product a b := by
  rw [product, product, neg_mul, Int.neg_tdiv]

theorem quotient_neg_left (a b : ℤ) : quotient (-a) b = -quotient a b := by
  rw [quotient, quotient, neg_mul, Int.neg_tdiv]

theorem product_le_product {a b c : ℤ} (h : a ≤ b) (hc : 0 ≤ c) : product a c ≤ product b c :=
  Int.tdiv_le_tdiv one_pos (mul_le_mul_of_nonneg_right h hc)

theorem quotient_le_quotient {a b c : ℤ} (h : a ≤ b) (hc : 0 < c) : quotient a c ≤ quotient b c :=
  Int.tdiv_le_tdiv hc (mul_le_mul_of_nonneg_right h one_pos.le)

end Decimal

namespace Number

open Decimal

variable {a b c : Number} {x y : ℤ}

/-- -∞ < decimals < +∞, and NaN is not even below itself. -/
inductive Le : Number → Number → Prop where
  | negInf {b : Number} (hb : b ≠ .nan) : Le .negInf b
  | finite {x y : ℤ} (h : x ≤ y) : Le (.finite x) (.finite y)
  | posInf {a : Number} (ha : a ≠ .nan) : Le a .posInf

instance : LE Number := ⟨Le⟩

theorem finite_le_finite_iff : finite x ≤ finite y ↔ x ≤ y :=
  ⟨fun h => by cases h; assumption, .finite⟩

theorem finite_le_posInf (x : ℤ) : finite x ≤ .posInf := .posInf nofun

theorem ne_nan_of_le (h : a ≤ b) : a ≠ .nan ∧ b ≠ .nan := by
  cases h with
  | negInf hb => exact ⟨nofun, hb⟩
  | finite => exact ⟨nofun, nofun⟩
  | posInf ha => exact ⟨ha, nofun⟩

protected theorem le_refl (ha : a ≠ .nan) : a ≤ a := by
  cases a with
  | finite x => exact .finite (le_refl x)
  | posInf => exact .posInf ha
  | negInf => exact .negInf ha
  | nan => exact absurd rfl ha

protected theorem le_trans (hab : a ≤ b) (hbc : b ≤ c) : a ≤ c := by
  cases hab with
  | negInf => exact .negInf (ne_nan_of_le hbc).2
  | finite hxy =>
    cases hbc with
    | finite hyz => exact .finite (hxy.trans hyz)
    | posInf => exact finite_le_posInf _
  | posInf ha =>
    cases hbc with
    | posInf => exact .posInf ha

protected theorem le_antisymm (hab : a ≤ b) (hba : b ≤ a) : a = b := by
  cases hab with
  | negInf =>
    cases hba
    rfl
  | finite hxy => rw [le_antisymm hxy (finite_le_finite_iff.mp hba)]
  | posInf =>
    cases hba
    rfl

theorem neg_le_neg (h : a ≤ b) : b.neg ≤ a.neg := by
  cases h with
  | negInf hb =>
    refine .posInf ?_
    cases b with
    | nan => exact absurd rfl hb
    | finite | posInf | negInf => exact nofun
  | finite h => exact .finite (Int.neg_le_neg h)
  | posInf ha =>
    refine .negInf ?_
    cases a with
    | nan => exact absurd rfl ha
    | finite | posInf | negInf => exact nofun

theorem le_iff_compare : a ≤ b ↔ a.compare b = some .lt ∨ a.compare b = some .eq := by
  cases a with
  | finite x =>
    cases b with
    | finite y =>
      change _ ↔ some (Ord.compare x y) = _ ∨ some (Ord.compare x y) = _
      rw [finite_le_finite_iff, Option.some_inj, Option.some_inj, compare_lt_iff_lt,
        compare_eq_iff_eq, le_iff_lt_or_eq]
    | posInf => exact ⟨fun _ => .inl rfl, fun _ => finite_le_posInf _⟩
    | negInf | nan => exact ⟨nofun, nofun⟩
  | posInf =>
    cases b with
    | posInf => exact ⟨fun _ => .inr rfl, fun _ => .posInf nofun⟩
    | finite | negInf | nan => exact ⟨nofun, nofun⟩
  | negInf =>
    cases b with
    | finite | posInf => exact ⟨fun _ => .inl rfl, fun _ => .negInf nofun⟩
    | negInf => exact ⟨fun _ => .inr rfl, fun _ => .negInf nofun⟩
    | nan => exact ⟨nofun, nofun⟩
  | nan => exact ⟨nofun, nofun⟩

theorem compare_swap (a b : Number) : b.compare a = (a.compare b).map Ordering.swap := by
  cases a with
  | finite x =>
    cases b with
    | finite y => exact congrArg some (Std.OrientedCmp.eq_swap)
    | posInf | negInf | nan => rfl
  | posInf | negInf | nan => cases b <;> rfl

theorem ge_iff_compare : b ≤ a ↔ a.compare b = some .gt ∨ a.compare b = some .eq := by
  rw [le_iff_compare, compare_swap a b]
  cases a.compare b with
  | none => exact ⟨nofun, nofun⟩
  | some o => cases o <;> decide

theorem compare_eq_none_iff : a.compare b = none ↔ a = .nan ∨ b = .nan := by
  cases a <;> cases b <;> simp [compare]

theorem ne_nan_of_compare {o : Ordering} (h : a.compare b = some o) : a ≠ .nan ∧ b ≠ .nan := by
  rw [← not_or, ← compare_eq_none_iff, h]
  exact nofun

theorem infinity_ne_nan (negative : Bool) : infinity negative ≠ .nan := by
  cases negative <;> exact nofun

theorem saturate_ne_nan (x : ℤ) : saturate x ≠ .nan := by
  rw [saturate]
  split
  · exact infinity_ne_nan _
  · exact Number.noConfusion

theorem saturate_eq_negInf (h : ¬InRange x) (hx : x < 0) : saturate x = .negInf := by
  rw [saturate_of_not_inRange h, decide_eq_true hx]
  rfl

/-- The range ends as far below zero as above, so that saturation cuts off at both ends alike. -/
theorem saturate_le_saturate (h : x ≤ y) : saturate x ≤ saturate y := by
  by_cases hx : InRange x
  · by_cases hy : InRange y
    · rw [saturate_of_inRange hx, saturate_of_inRange hy]
      exact .finite h
    · have hpos : 0 ≤ y := by
        by_contra hneg
        exact hy (inRange_of_le (by omega) hx)
      rw [saturate_eq_posInf hy hpos]
      exact .posInf (saturate_ne_nan x)
  · rcases lt_or_ge x 0 with hneg | hpos
    · rw [saturate_eq_negInf hx hneg]
      exact .negInf (saturate_ne_nan y)
    · have hy : ¬InRange y := fun hy => hx (inRange_of_le (by omega) hy)
      rw [saturate_eq_posInf hy (hpos.trans h)]
      exact .posInf (saturate_ne_nan x)

protected theorem neg_neg (a : Number) : a.neg.neg = a := by
  cases a with
  | finite x => exact congrArg finite (neg_neg x)
  | posInf | negInf | nan => rfl

theorem signedInfinity_neg (s : ℤ) : signedInfinity (-s) = (signedInfinity s).neg := by
  rw [signedInfinity, signedInfinity]
  by_cases hs : s = 0
  · rw [if_pos hs, if_pos (neg_eq_zero.mpr hs)]
    rfl
  · rw [if_neg hs, if_neg (neg_ne_zero.mpr hs), infinity_neg hs]

protected theorem neg_add (a b : Number) : (a.add b).neg = a.neg.add b.neg := by
  cases a with
  | finite x =>
    cases b with
    | finite y =>
      change (saturate (x + y)).neg = saturate (-x + -y)
      rw [← saturate_neg, neg_add]
    | posInf | negInf | nan => rfl
  | posInf | negInf | nan => cases b <;> rfl

protected theorem add_comm (a b : Number) : a.add b = b.add a := by
  cases a with
  | finite x =>
    cases b with
    | finite y => exact congrArg saturate (add_comm x y)
    | posInf | negInf | nan => rfl
  | posInf | negInf | nan => cases b <;> rfl

protected theorem mul_comm (a b : Number) : a.mul b = b.mul a := by
  cases a with
  | finite x =>
    cases b with
    | finite y => exact congrArg saturate (product_comm x y)
    | posInf | negInf => exact congrArg signedInfinity (mul_comm _ _)
    | nan => rfl
  | posInf | negInf =>
    cases b with
    | finite y => exact congrArg signedInfinity (mul_comm _ _)
    | posInf | negInf | nan => rfl
  | nan => cases b <;> rfl

theorem sub_eq_neg_sub (a b : Number) : a.sub b = (b.sub a).neg := by
  rw [sub, sub, Number.neg_add, Number.neg_neg, Number.add_comm]

theorem signedInfinity_neg_mul (s t : ℤ) :
    signedInfinity (-s * t) = (signedInfinity (s * t)).neg := by
  rw [neg_mul, signedInfinity_neg]

protected theorem neg_mul (a b : Number) : a.neg.mul b = (a.mul b).neg := by
  cases a with
  | finite x =>
    cases b with
    | finite y =>
      change saturate (product (-x) y) = (saturate (product x y)).neg
      rw [product_neg_left, saturate_neg]
    | posInf | negInf =>
      change signedInfinity ((-x).sign * _) = (signedInfinity (x.sign * _)).neg
      rw [Int.sign_neg, signedInfinity_neg_mul]
    | nan => rfl
  | posInf =>
    cases b with
    | finite y => exact signedInfinity_neg_mul 1 y.sign
    | posInf | negInf | nan => rfl
  | negInf =>
    cases b with
    | finite y => exact signedInfinity_neg_mul (-1) y.sign
    | posInf | negInf | nan => rfl
  | nan => cases b <;> rfl

protected theorem neg_div (a b : Number) : a.neg.div b = (a.div b).neg := by
  cases a with
  | finite x =>
    cases b with
    | finite y =>
      change (if y = 0 then signedInfinity (-x).sign else saturate (quotient (-x) y)) =
        (if y = 0 then signedInfinity x.sign else saturate (quotient x y)).neg
      split
      · rw [Int.sign_neg, signedInfinity_neg]
      · rw [quotient_neg_left, saturate_neg]
    | posInf | negInf | nan => rfl
  | posInf | negInf =>
    cases b with
    -- The divisor keeps its sign, and the infinity changes it.
    | finite y =>
      change infinity (_ != decide (y < 0)) = (infinity (_ != decide (y < 0))).neg
      cases decide (y < 0) <;> rfl
    | posInf | negInf | nan => rfl
  | nan => cases b <;> rfl

/-- An operation that keeps the order of decimals and both infinities, but for results that are
NaN. -/
structure KeepsOrder (f : Number → Number) : Prop where
  negInf : f .negInf = .negInf ∨ f .negInf = .nan
  finite : ∀ x y, x ≤ y → f (.finite x) ≠ .nan → f (.finite y) ≠ .nan →
    f (.finite x) ≤ f (.finite y)
  posInf : f .posInf = .posInf ∨ f .posInf = .nan

theorem KeepsOrder.le {f : Number → Number} (h : KeepsOrder f) (hab : a ≤ b) (ha : f a ≠ .nan)
    (hb : f b ≠ .nan) : f a ≤ f b := by
  cases hab with
  | negInf =>
    rw [h.negInf.resolve_right ha]
    exact .negInf hb
  | finite hxy => exact h.finite _ _ hxy ha hb
  | posInf =>
    rw [h.posInf.resolve_right hb]
    exact .posInf ha

theorem keepsOrder_add (c : Number) : KeepsOrder fun a => a.add c where
  negInf := by cases c <;> simp [add]
  finite x y hxy hx hy := by
    cases c with
    | finite z => exact saturate_le_saturate (add_le_add_left hxy z)
    | posInf | negInf => exact Number.le_refl hx
    | nan => exact absurd rfl hx
  posInf := by cases c <;> simp [add]

theorem infinity_le_infinity (h : x ≤ y) : infinity (x < 0) ≤ infinity (y < 0) := by
  by_cases hy : y < 0
  · rw [decide_eq_true hy, decide_eq_true (h.trans_lt hy)]
    exact Number.le_refl nofun
  · rw [decide_eq_false hy]
    exact .posInf (infinity_ne_nan _)

theorem finite_mul_posInf (hx : (finite x).mul .posInf ≠ .nan) :
    (finite x).mul .posInf = infinity (x < 0) := by
  have hvalue : (finite x).mul .posInf = signedInfinity x.sign :=
    congrArg signedInfinity (mul_one x.sign)
  have hne : x ≠ 0 := by
    rintro rfl
    exact hx rfl
  rw [hvalue, signedInfinity_sign hne]

theorem keepsOrder_mul (hc : zero ≤ c) : KeepsOrder fun a => a.mul c := by
  cases hc with
  | @finite _ z hz =>
    refine ⟨?_, fun x y hxy _ _ => saturate_le_saturate (product_le_product hxy hz), ?_⟩
    all_goals
      rcases hz.eq_or_lt with rfl | hpos
      · exact .inr rfl
      · refine .inl ?_
        change signedInfinity (_ * z.sign) = _
        rw [Int.sign_eq_one_of_pos hpos]
        rfl
  | posInf =>
    refine ⟨.inl rfl, fun x y hxy hx hy => ?_, .inl rfl⟩
    rw [finite_mul_posInf hx, finite_mul_posInf hy]
    exact infinity_le_infinity hxy

theorem keepsOrder_div (hc : zero.compare c = some .lt) : KeepsOrder fun a => a.div c := by
  cases c with
  | finite z =>
    have hz : 0 < z := compare_lt_iff_lt.mp (Option.some.inj hc)
    refine ⟨.inl ?_, fun x y hxy _ _ => ?_, .inl ?_⟩
    · change infinity (true != decide (z < 0)) = _
      rw [decide_eq_false hz.not_gt]
      rfl
    · simp only [div, if_neg hz.ne']
      exact saturate_le_saturate (quotient_le_quotient hxy hz)
    · change infinity (false != decide (z < 0)) = _
      rw [decide_eq_false hz.not_gt]
      rfl
  | posInf => exact ⟨.inr rfl, fun _ _ _ _ _ => .finite le_rfl, .inr rfl⟩
  | negInf | nan => cases hc

/-- Sums and products are commutative, and differences, products and quotients take the sign of
their first operand along. Adding a number, multiplying by one that is not negative and dividing by a
positive one keep the order, infinities included, where neither result is NaN. -/
theorem arithmetic_laws (a b c : Number) :
    a.add b = b.add a ∧ a.mul b = b.mul a ∧ a.sub b = (b.sub a).neg ∧
      a.neg.mul b = (a.mul b).neg ∧ a.neg.div b = (a.div b).neg ∧
      (a.compare b = some .lt ∨ a.compare b = some .eq →
        (a.add c ≠ .nan → b.add c ≠ .nan → a.add c ≤ b.add c) ∧
        (zero ≤ c → a.mul c ≠ .nan → b.mul c ≠ .nan → a.mul c ≤ b.mul c) ∧
        (zero.compare c = some .lt → a.div c ≠ .nan → b.div c ≠ .nan → a.div c ≤ b.div c)) := by
  refine ⟨Number.add_comm a b, Number.mul_comm a b, sub_eq_neg_sub a b, Number.neg_mul a b,
    Number.neg_div a b, fun hcompare => ?_⟩
  have hab := le_iff_compare.mpr hcompare
  exact ⟨(keepsOrder_add c).le hab, fun hc => (keepsOrder_mul hc).le hab,
    fun hc => (keepsOrder_div hc).le hab⟩

def huge : Number := .finite (twoPow 33431)

theorem arithmetic_laws_huge :
    one.compare huge = some .lt ∧ zero.compare huge = some .lt ∧
      huge.add huge = .posInf ∧ one.add huge ≤ huge.add huge ∧
      one.mul huge ≤ huge.mul huge ∧ one.div huge ≤ huge.div huge := by
  have hone : one.compare huge = some .lt := by decide +kernel
  have hzero : zero.compare huge = some .lt := by decide +kernel
  have hsum : huge.add huge = .posInf := by decide +kernel
  obtain ⟨hadd, hmul, hdiv⟩ := (arithmetic_laws one huge huge).2.2.2.2.2 (.inl hone)
  refine ⟨hone, hzero, hsum, hadd (saturate_ne_nan _) (saturate_ne_nan _),
    hmul (le_iff_compare.mpr (.inl hzero)) (saturate_ne_nan _) (saturate_ne_nan _), hdiv hzero ?_ ?_⟩
  · decide +kernel
  · decide +kernel

end Number

end Reckoner
