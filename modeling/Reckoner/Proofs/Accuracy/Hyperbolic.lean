import Reckoner.Proofs.Parity

/-!
The hyperbolic tangent is taken from one exponential, a large one on the right and a vanishing one
on the left. Both are right far within the guard digits, so that truncation gives the opposite of
the same digits, but where a decimal of the grid lies between the two.
-/
set_option autoImplicit false

namespace Reckoner

namespace Decimal

variable {x p q e n : ℤ} {a d : ℝ}

theorem Near.abs_sub_le (h : Near p a d) : |p - a * 10 ^ 74| ≤ d := by
  have hone : (fineOne : ℝ) = 10 ^ 74 := by exact_mod_cast cast_fineOne
  have hscaled : (p : ℝ) - a * 10 ^ 74 = (fineRat p - a) * 10 ^ 74 := by
    rw [cast_fineRat, hone]
    field_simp
  rw [hscaled, abs_mul, abs_of_pos (by positivity : (0 : ℝ) < 10 ^ 74)]
  calc _ ≤ d * fineUnit * 10 ^ 74 := mul_le_mul_of_nonneg_right h (by positivity)
    _ = d := by
        rw [cast_fineUnit]
        field_simp

theorem ofInt_lt_natAbs_iff : ofInt 100 < x.natAbs ↔ 100 * one < |x| := by
  rw [Int.abs_eq_natAbs]
  rfl

theorem tanh_of_large (h : 100 * one < |x|) : tanh x = x.sign * one := by
  rw [tanh, if_pos (ofInt_lt_natAbs_iff.mpr h)]

end Decimal

namespace Catalogue

open Decimal (one toRat)

end Catalogue

end Reckoner
