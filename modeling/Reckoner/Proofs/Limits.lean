import Reckoner.Proofs.Accuracy.Hyperbolic
import Reckoner.Proofs.Range.Arctangent

set_option autoImplicit false

namespace Reckoner

namespace Decimal

variable {x : ℤ}

def huge : ℤ := 10 ^ (75 + 64)

theorem lt_raise_of_huge (hx : huge ≤ x) {k : ℤ} (hk : k < raise huge) : k < raise x :=
  hk.trans_le (mul_le_mul_of_nonneg_right hx guardFactor_pos.le)

theorem fineExp_raise_of_huge (hx : huge ≤ x) : fineExp (raise x) = none := by
  rw [fineExp, if_pos (lt_raise_of_huge hx (by decide))]

theorem fineExp_neg_raise_of_huge (hx : huge ≤ x) : fineExp (-raise x) = some 0 := by
  have hlimit : expLimit * fineOne < raise x := lt_raise_of_huge hx (by decide)
  have hpos : 0 < expLimit * fineOne := by decide
  rw [fineExp, if_neg (by omega), if_pos (by omega)]

theorem exp_of_huge (hx : huge ≤ x) : exp x = .posInf := by
  rw [exp, fineExp_raise_of_huge hx]

theorem exp_neg_of_huge (hx : huge ≤ x) : exp (-x) = .zero := by
  rw [exp, raise_neg, fineExp_neg_raise_of_huge hx]
  rfl

theorem sinh_of_huge (hx : huge ≤ x) : sinh x = .posInf := by
  rw [sinh, fineExp_raise_of_huge hx]

theorem cosh_of_huge (hx : huge ≤ x) : cosh x = .posInf := by
  rw [cosh, fineExp_raise_of_huge hx]

theorem tanh_of_huge (hx : huge ≤ |x|) : tanh x = x.sign * one := by
  have hlimit : 100 * one < huge := by decide
  exact tanh_of_large (hlimit.trans_le hx)

/-- The reciprocal is less than one unit, so that nothing is taken from the right angle. -/
theorem atan_of_huge (hx : huge ≤ x) : atan x = pi.tdiv 2 := by
  have hpos : 0 < raise x := lt_raise_of_huge hx (by decide)
  have hone : fineOne < raise x := lt_raise_of_huge hx (by decide)
  have hsquare : fineOne * fineOne < raise x := lt_raise_of_huge hx (by decide)
  have hreciprocal : (fineOne * fineOne).tdiv (raise x) = 0 :=
    Int.tdiv_eq_zero_of_lt (mul_pos fineOne_pos fineOne_pos).le hsquare
  have hreduced : arctanReduced 0 = 0 := by
    rw [arctanReduced, halfAngle_zero, halfAngle_zero]
    rfl
  rw [atan, fineArctan, if_neg hpos.not_gt, Int.natAbs_of_nonneg hpos.le, arctanMagnitude,
    if_pos hone, hreciprocal, hreduced, sub_zero, lower_fineHalfPi]

end Decimal

namespace Unary

open Decimal (huge)

variable {u : Unary} {act : Number → Number}

/-- From 10^75 on the function of a decimal is that of the infinity on the same side. -/
def MeetsLimits (u : Unary) : Prop := ∀ x, huge ≤ |x| → u.onFinite x = u.onInfinity (x < 0)

theorem meetsLimits_of_sides (hpos : ∀ x, huge ≤ x → u.onFinite x = u.onInfinity false)
    (hneg : ∀ x, huge ≤ x → u.onFinite (-x) = u.onInfinity true) : u.MeetsLimits := by
  intro x hx
  rcases lt_or_ge x 0 with h | h
  · rw [abs_of_neg h] at hx
    rw [decide_eq_true h, ← hneg _ hx, neg_neg]
  · rw [abs_of_nonneg h] at hx
    rw [decide_eq_false h.not_gt, hpos x hx]

theorem Mirrors.meetsLimits (h : u.Mirrors u act)
    (hpos : ∀ x, huge ≤ x → u.onFinite x = u.onInfinity false) : u.MeetsLimits :=
  meetsLimits_of_sides hpos fun x hx => by
    rw [h.finite, hpos x hx, ← h.infinity]
    rfl

theorem meetsLimits_atan : atan.MeetsLimits :=
  mirrors_atan.meetsLimits fun _ hx => ok_finite (Decimal.atan_of_huge hx)

theorem meetsLimits_exp : exp.MeetsLimits :=
  meetsLimits_of_sides (fun _ hx => congrArg Except.ok (Decimal.exp_of_huge hx))
    fun _ hx => congrArg Except.ok (Decimal.exp_neg_of_huge hx)

theorem meetsLimits_sinh : sinh.MeetsLimits :=
  mirrors_sinh.meetsLimits fun _ hx => congrArg Except.ok (Decimal.sinh_of_huge hx)

theorem meetsLimits_cosh : cosh.MeetsLimits :=
  mirrors_cosh.meetsLimits fun _ hx => congrArg Except.ok (Decimal.cosh_of_huge hx)

theorem sign_mul_one_of_huge {x : ℤ} (hx : huge ≤ |x|) :
    x.sign * Decimal.one = if x < 0 then -Decimal.one else Decimal.one := by
  split
  · next h => rw [Int.sign_eq_neg_one_of_neg h, neg_one_mul]
  · next h =>
    have hpos : 0 < huge := by decide
    rw [abs_of_nonneg (not_lt.mp h)] at hx
    rw [Int.sign_eq_one_of_pos (hpos.trans_le hx), one_mul]

theorem meetsLimits_tanh : tanh.MeetsLimits := by
  intro x hx
  rw [onFinite, onInfinity, Decimal.tanh_of_huge hx, sign_mul_one_of_huge hx]
  simp only [decide_eq_true_eq]

theorem meetsLimits_sign : sign.MeetsLimits := by
  intro x hx
  rw [onFinite, onInfinity, Decimal.signum, sign_mul_one_of_huge hx]
  simp only [decide_eq_true_eq]

end Unary

namespace Catalogue

theorem apply_of_meetsLimits {u : Unary} (h : u.MeetsLimits) {x : ℤ} (hx : Decimal.huge ≤ |x|) :
    apply u.name [.finite x] = apply u.name [Number.infinity (x < 0)] := by
  rw [apply_finite, apply_infinity, h x hx]

/-- From 10^75 on these functions have the value of the infinity on the same side, to the last digit,
and no arctangent is beyond that of the infinity. -/
theorem limits_met :
    (∀ x : ℤ, 10 ^ (75 + 64) ≤ |x| →
      ∀ name ∈ ["atan", "exp", "sinh", "cosh", "tanh", "sign"],
        apply name [.finite x] = apply name [Number.infinity (x < 0)]) ∧
    ∃ limit : ℤ, apply "atan" [.posInf] = .ok (.finite limit) ∧
      ∀ x : ℤ, ∃ angle : ℤ, apply "atan" [.finite x] = .ok (.finite angle) ∧ |angle| ≤ limit := by
  refine ⟨fun x hx name hname => ?_, Decimal.pi.tdiv 2, apply_infinity .atan false,
    fun x => ⟨Decimal.atan x, apply_finite .atan x, Decimal.abs_atan_le x⟩⟩
  simp only [List.mem_cons, List.not_mem_nil, or_false] at hname
  rcases hname with rfl | rfl | rfl | rfl | rfl | rfl
  · exact apply_of_meetsLimits Unary.meetsLimits_atan hx
  · exact apply_of_meetsLimits Unary.meetsLimits_exp hx
  · exact apply_of_meetsLimits Unary.meetsLimits_sinh hx
  · exact apply_of_meetsLimits Unary.meetsLimits_cosh hx
  · exact apply_of_meetsLimits Unary.meetsLimits_tanh hx
  · exact apply_of_meetsLimits Unary.meetsLimits_sign hx

theorem limits_met_minusHuge : (10 : ℤ) ^ (75 + 64) ≤ |-10 ^ (75 + 64)| ∧
    "atan" ∈ ["atan", "exp", "sinh", "cosh", "tanh", "sign"] ∧
    apply "atan" [.finite (-10 ^ (75 + 64))] = apply "atan" [.negInf] := by
  have hhuge : (10 : ℤ) ^ (75 + 64) ≤ |-10 ^ (75 + 64)| := by decide
  have hname : "atan" ∈ ["atan", "exp", "sinh", "cosh", "tanh", "sign"] := by decide
  exact ⟨hhuge, hname, limits_met.1 (-10 ^ (75 + 64)) hhuge "atan" hname⟩

end Catalogue

end Reckoner
