import Reckoner.Application
import Reckoner.Proofs.Accuracy.Exponential
import Reckoner.Proofs.Accuracy.Trigonometry
import Reckoner.Proofs.Catalogue
import Reckoner.Proofs.Power.Repeated

set_option autoImplicit false

namespace Reckoner

namespace Decimal

variable {x : ℤ}

theorem raise_neg (x : ℤ) : raise (-x) = -raise x := Int.neg_mul x guardFactor

theorem lower_neg (x : ℤ) : lower (-x) = -lower x := Int.neg_tdiv x guardFactor

theorem fineQuotient_neg (a b : ℤ) : fineQuotient (-a) b = -fineQuotient a b := by
  rw [fineQuotient, fineQuotient, neg_mul, Int.neg_tdiv]

theorem fineProduct_neg_self (a : ℤ) : fineProduct (-a) (-a) = fineProduct a a := by
  rw [fineProduct, fineProduct, neg_mul_neg]

def Term.neg (t : Term) : Term := ⟨t.index, -t.power⟩

theorem Term.isZero_neg (t : Term) : t.neg.isZero = t.isZero := by
  simp [Term.isZero, Term.neg]

/-- Two series that take the same steps with opposite powers. -/
structure Series.Opposite (S T : Series) : Prop where
  start : T.start = S.start.neg
  next : ∀ t, T.next t.neg = (S.next t).neg
  addend : ∀ t, T.addend t.neg = -S.addend t
  spent : ∀ t, T.spent t.neg = S.spent t

namespace Series.Opposite

variable {S T : Series}

theorem sumFrom_neg (h : S.Opposite T) (turns : ℕ) (t : Term) :
    T.sumFrom turns t.neg = -S.sumFrom turns t := by
  induction turns generalizing t with
  | zero => rfl
  | succ turns ih =>
    rw [sumFrom, sumFrom, h.spent, h.addend, h.next, ih]
    split
    · rfl
    · exact (neg_add _ _).symm

theorem sum_neg (h : S.Opposite T) : T.sum = -S.sum := by
  rw [sum, sum, h.start]
  exact h.sumFrom_neg turnLimit S.start

end Series.Opposite

theorem circularNext_neg (square : ℤ) (t : Term) :
    circularNext square t.neg = (circularNext square t).neg := by
  simp only [circularNext, Term.neg, neg_mul, Int.neg_tdiv]

theorem opposite_sinSeries (x : ℤ) : (sinSeries x).Opposite (sinSeries (-x)) where
  start := rfl
  next t := by
    simp only [sinSeries, fineProduct_neg_self]
    exact circularNext_neg _ t
  addend _ := rfl
  spent := Term.isZero_neg

theorem cosSeries_neg (x : ℤ) : cosSeries (-x) = cosSeries x := by
  rw [cosSeries, cosSeries, fineProduct_neg_self]

theorem turned_neg (q s c : ℤ) :
    turned (-q) (-s, c) = (-(turned q (s, c)).1, (turned q (s, c)).2) := by
  rcases emod_four_cases q with h | h | h | h
  · rw [turned_zero _ h, turned_zero _ (by omega)]
  · rw [turned_one _ h, turned_three _ (by omega)]
  · rw [turned_two _ h, turned_two _ (by omega)]
  · rw [turned_three _ h, turned_one _ (by omega), neg_neg, neg_neg]

theorem reduced_neg (x : ℤ) : reduced (-x) = -reduced x := by
  rw [reduced, reduced, Int.neg_tdiv, neg_mul]
  ring

theorem fineSinCos_neg (x : ℤ) :
    fineSinCos (-x) = (-(fineSinCos x).1, (fineSinCos x).2) := by
  rw [fineSinCos_eq, fineSinCos_eq, reduced_neg, (opposite_sinSeries _).sum_neg, cosSeries_neg,
    Int.neg_tdiv, turned_neg]

theorem sin_neg (x : ℤ) : sin (-x) = -sin x := by
  rw [sin, sin, raise_neg, fineSinCos_neg, lower_neg]

theorem cos_neg (x : ℤ) : cos (-x) = cos x := by
  rw [cos, cos, raise_neg, fineSinCos_neg]

theorem eq_zero_of_turned {q s c : ℤ} (h : turned q (s, c) = (0, 0)) : s = 0 ∧ c = 0 := by
  rcases emod_four_cases q with hq | hq | hq | hq
  · rw [turned_zero _ hq, Prod.mk.injEq] at h
    exact h
  · rw [turned_one _ hq, Prod.mk.injEq, neg_eq_zero] at h
    exact h.symm
  · rw [turned_two _ hq, Prod.mk.injEq, neg_eq_zero, neg_eq_zero] at h
    exact h
  · rw [turned_three _ hq, Prod.mk.injEq, neg_eq_zero] at h
    exact h.symm

theorem Near.sq_le {a : ℝ} (h : Near 0 a 161) : a ^ 2 ≤ 1 / 4 := by
  rw [Near, fineRat_zero, Rat.cast_zero, zero_sub, abs_neg, cast_fineUnit] at h
  have hhalf : |a| ≤ 1 / 2 := h.trans (by norm_num)
  rw [← sq_abs]
  exact (pow_le_pow_left₀ (abs_nonneg a) hhalf 2).trans (by norm_num)

/-- The two series are too accurate to be zero together. -/
theorem fineSinCos_ne_zero (hcos : (fineSinCos x).2 = 0) : (fineSinCos x).1 ≠ 0 := by
  intro hsin
  have hzero : fineSinCos x = (0, 0) := Prod.ext hsin hcos
  rw [fineSinCos_eq] at hzero
  obtain ⟨hs, hc⟩ := eq_zero_of_turned hzero
  have hrange := abs_fineRat_reduced_le x
  have hnear_sin := near_sinSeries hrange
  have hnear_cos := near_cosSeries hrange
  rw [hs] at hnear_sin
  rw [hc] at hnear_cos
  have hcircle := Real.sin_sq_add_cos_sq (fineRat (reduced x) : ℝ)
  linarith [hnear_sin.sq_le, hnear_cos.sq_le]

/-- Where the cosine is zero the sine is not, and has the sign of the infinity. -/
theorem tan_neg (x : ℤ) : tan (-x) = (tan x).neg := by
  unfold tan
  rw [raise_neg, fineSinCos_neg]
  dsimp only
  split
  · next hcos => exact Number.infinity_neg (fineSinCos_ne_zero hcos)
  · rw [fineQuotient_neg, lower_neg, Number.saturate_neg]

theorem halfAngle_zero : halfAngle 0 = 0 := by
  rw [halfAngle, fineQuotient, zero_mul, Int.zero_tdiv]

theorem arctanMagnitude_zero : arctanMagnitude 0 = 0 := by
  rw [arctanMagnitude, if_neg fineOne_pos.not_gt, arctanReduced, halfAngle_zero, halfAngle_zero]
  rfl

theorem fineArctan_neg (x : ℤ) : fineArctan (-x) = -fineArctan x := by
  rw [fineArctan, fineArctan, Int.natAbs_neg]
  rcases lt_trichotomy x 0 with h | rfl | h
  · rw [if_neg (by omega), if_pos h, neg_neg]
  -- Zero is taken as it is on both sides, so that its own arctangent has to be zero.
  · rw [neg_zero, if_neg (lt_irrefl 0), Int.natAbs_zero, Int.natCast_zero, arctanMagnitude_zero,
      neg_zero]
  · rw [if_pos (by omega), if_neg (by omega)]

theorem atan_neg (x : ℤ) : atan (-x) = -atan x := by
  rw [atan, atan, raise_neg, fineArctan_neg, lower_neg]

theorem fineArcsin?_neg (x : ℤ) : fineArcsin? (-x) = (fineArcsin? x).map Neg.neg := by
  rw [fineArcsin?, fineArcsin?, Int.natAbs_neg, neg_mul_neg, fineQuotient_neg, fineArctan_neg]
  split
  · rfl
  · split
    -- At either end the argument is not zero, and its sign picks the right angle.
    · next hone =>
      have hpos := fineOne_pos
      rcases lt_or_ge x 0 with h | h
      · rw [if_neg (by omega), if_pos h, Option.map_some, neg_neg]
      · rw [if_pos (by omega), if_neg (by omega), Option.map_some]
    · rfl

theorem asin?_neg (x : ℤ) : asin? (-x) = (asin? x).map Neg.neg := by
  rw [asin?, asin?, raise_neg, fineArcsin?_neg, Option.map_map, Option.map_map]
  congr 1
  exact funext lower_neg

theorem fineExp_neg_ne_none (h : fineExp x = none) : fineExp (-x) ≠ none := by
  intro hneg
  have hlarge := lt_of_fineExp_none h
  have hsmall := lt_of_fineExp_none hneg
  rw [fineRat_neg] at hsmall
  linarith

theorem sinh_neg (x : ℤ) : sinh (-x) = (sinh x).neg := by
  rw [sinh, sinh, raise_neg, neg_neg]
  -- The two exponentials change places, and with them the infinity that one of them may be.
  cases hp : fineExp (raise x) with
  | none =>
    cases hm : fineExp (-raise x) with
    | none => exact absurd hm (fineExp_neg_ne_none hp)
    | some em => rfl
  | some ep =>
    cases fineExp (-raise x) with
    | none => rfl
    | some em =>
      change Number.saturate (lower ((em - ep).tdiv 2)) = _
      rw [← neg_sub, Int.neg_tdiv, lower_neg, Number.saturate_neg]

theorem cosh_neg (x : ℤ) : cosh (-x) = cosh x := by
  rw [cosh, cosh, raise_neg, neg_neg]
  cases fineExp (raise x) with
  | none => cases fineExp (-raise x) <;> rfl
  | some ep =>
    cases fineExp (-raise x) with
    | none => rfl
    | some em => simp only [add_comm]

theorem rescale_neg (x : ℤ) (source target : ℕ) :
    rescale (-x) source target = -rescale x source target := by
  unfold rescale
  split
  · exact neg_mul _ _
  · exact divideNearest_neg _ _

theorem roundTo_neg (x : ℤ) (n : ℕ) : roundTo (-x) n = -roundTo x n := by
  rw [roundTo, roundTo, rescale_neg, neg_mul]

theorem signum_neg (x : ℤ) : signum (-x) = -signum x := by
  rw [signum, signum, Int.sign_neg, neg_mul]

theorem ceil_neg (x : ℤ) : ceil (-x) = -floor x := by
  rw [ceil_eq_neg_floor, neg_neg]

end Decimal

theorem Number.roundTo_neg (v : Number) (n : ℕ) : v.neg.roundTo n = (v.roundTo n).neg := by
  cases v with
  | finite x => exact congrArg Number.finite (Decimal.roundTo_neg x n)
  | posInf | negInf | nan => rfl

theorem Fault.ofOption_neg (o : Option ℤ) :
    ofOption (o.map Neg.neg) = (ofOption o).map Number.neg := by
  cases o <;> rfl

/-- The first function at the opposite is the second one followed by `act`. -/
structure Unary.Mirrors (u v : Unary) (act : Number → Number) : Prop where
  finite : ∀ x, u.onFinite (-x) = (v.onFinite x).map act
  infinity : ∀ negative, u.onInfinity (!negative) = (v.onInfinity negative).map act
  nan : act .nan = .nan

namespace Unary

variable {u v : Unary} {act : Number → Number}

theorem Mirrors.apply_neg (h : u.Mirrors v act) (x : Number) :
    u.apply x.neg = (v.apply x).map act := by
  cases x with
  | finite x => exact h.finite x
  | posInf => exact h.infinity false
  | negInf => exact h.infinity true
  | nan => exact congrArg Except.ok h.nan.symm

theorem ok_finite {x y : ℤ} (h : x = y) :
    (.ok (.finite x) : Except Fault Number) = .ok (.finite y) := by
  rw [h]

theorem mirrors_sin : sin.Mirrors sin .neg where
  finite x := ok_finite (Decimal.sin_neg x)
  infinity negative := by cases negative <;> rfl
  nan := rfl

theorem mirrors_tan : tan.Mirrors tan .neg where
  finite x := congrArg Except.ok (Decimal.tan_neg x)
  infinity negative := by cases negative <;> rfl
  nan := rfl

theorem mirrors_asin : asin.Mirrors asin .neg where
  finite x := (congrArg Fault.ofOption (Decimal.asin?_neg x)).trans (Fault.ofOption_neg _)
  infinity negative := by cases negative <;> rfl
  nan := rfl

theorem mirrors_atan : atan.Mirrors atan .neg where
  finite x := ok_finite (Decimal.atan_neg x)
  infinity negative := by
    cases negative with
    | false => rfl
    | true => exact ok_finite (neg_neg _).symm
  nan := rfl

theorem mirrors_sinh : sinh.Mirrors sinh .neg where
  finite x := congrArg Except.ok (Decimal.sinh_neg x)
  infinity negative := by cases negative <;> rfl
  nan := rfl

theorem mirrors_trunc : trunc.Mirrors trunc .neg where
  finite x := ok_finite (Decimal.trunc_neg x)
  infinity negative := by cases negative <;> rfl
  nan := rfl

theorem mirrors_sign : sign.Mirrors sign .neg where
  finite x := ok_finite (Decimal.signum_neg x)
  infinity negative := by
    cases negative with
    | false => rfl
    | true => exact ok_finite (neg_neg _).symm
  nan := rfl

theorem mirrors_cos : cos.Mirrors cos id where
  finite x := ok_finite (Decimal.cos_neg x)
  infinity negative := by cases negative <;> rfl
  nan := rfl

theorem mirrors_cosh : cosh.Mirrors cosh id where
  finite x := congrArg Except.ok (Decimal.cosh_neg x)
  infinity negative := by cases negative <;> rfl
  nan := rfl

theorem mirrors_abs : abs.Mirrors abs id where
  finite x := ok_finite (congrArg Int.ofNat (Int.natAbs_neg x))
  infinity negative := by cases negative <;> rfl
  nan := rfl

theorem mirrors_ceil : ceil.Mirrors floor .neg where
  finite x := ok_finite (Decimal.ceil_neg x)
  infinity negative := by cases negative <;> rfl
  nan := rfl

end Unary

namespace Catalogue

/-- With these further arguments, the opposite of the first gives the opposite result, or the same
error. -/
def OddIn (name : String) (rest : List Number) : Prop :=
  ∀ x : Number, apply name (x.neg :: rest) = (apply name (x :: rest)).map Number.neg

/-- With these further arguments, the opposite of the first gives the same result or error. -/
def EvenIn (name : String) (rest : List Number) : Prop :=
  ∀ x : Number, apply name (x.neg :: rest) = apply name (x :: rest)

theorem apply_neg_of_mirrors {u v : Unary} {act : Number → Number} (h : u.Mirrors v act)
    (x : Number) : apply u.name [x.neg] = (apply v.name [x]).map act := by
  have hmirror : (Function.unary u).apply [x.neg] = ((Function.unary v).apply [x]).map act := by
    rw [Function.apply, Function.apply, h.apply_neg]
    cases v.apply x <;> rfl
  rwa [← apply_name, ← apply_name] at hmirror

theorem oddIn_of_mirrors {u : Unary} (h : u.Mirrors u .neg) : OddIn u.name [] :=
  apply_neg_of_mirrors h

theorem evenIn_of_mirrors {u : Unary} (h : u.Mirrors u id) : EvenIn u.name [] := fun x =>
  (apply_neg_of_mirrors h x).trans (congrFun Except.map_id _)

theorem oddIn_round : OddIn "round" [] := fun x => by
  change apply Function.round.name _ = (apply Function.round.name _).map _
  rw [apply_name, apply_name]
  exact congrArg Except.ok (x.roundTo_neg 0)

theorem oddIn_round_places (n : Number) : OddIn "round" [n] := fun x => by
  change apply Function.round.name _ = (apply Function.round.name _).map _
  rw [apply_name, apply_name, Function.apply, Function.apply]
  split
  · next k _ => exact congrArg Except.ok (x.roundTo_neg k)
  · rfl

/-- Parity to the last digit: these functions of the opposite give the opposite, or the same, and
the ceiling is the floor from the other side. Infinities, NaN and errors are no exceptions. -/
theorem parity_exact :
    (OddIn "sin" [] ∧ OddIn "tan" [] ∧ OddIn "asin" [] ∧ OddIn "atan" [] ∧ OddIn "sinh" [] ∧
      OddIn "trunc" [] ∧ OddIn "sign" [] ∧ OddIn "round" [] ∧ ∀ n, OddIn "round" [n]) ∧
    (EvenIn "cos" [] ∧ EvenIn "cosh" [] ∧ EvenIn "abs" []) ∧
    ∀ x : Number, apply "ceil" [x.neg] = (apply "floor" [x]).map Number.neg := by
  refine ⟨⟨?_, ?_, ?_, ?_, ?_, ?_, ?_, oddIn_round, oddIn_round_places⟩, ⟨?_, ?_, ?_⟩, ?_⟩
  · exact oddIn_of_mirrors Unary.mirrors_sin
  · exact oddIn_of_mirrors Unary.mirrors_tan
  · exact oddIn_of_mirrors Unary.mirrors_asin
  · exact oddIn_of_mirrors Unary.mirrors_atan
  · exact oddIn_of_mirrors Unary.mirrors_sinh
  · exact oddIn_of_mirrors Unary.mirrors_trunc
  · exact oddIn_of_mirrors Unary.mirrors_sign
  · exact evenIn_of_mirrors Unary.mirrors_cos
  · exact evenIn_of_mirrors Unary.mirrors_cosh
  · exact evenIn_of_mirrors Unary.mirrors_abs
  · exact apply_neg_of_mirrors Unary.mirrors_ceil

end Catalogue

end Reckoner
