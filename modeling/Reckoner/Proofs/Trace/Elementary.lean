import Reckoner.Proofs.Accuracy.Power
import Reckoner.Proofs.Rounding
import Reckoner.Proofs.Trace.Series

set_option autoImplicit false

namespace Reckoner.Traced

open Decimal

variable {x a : ℤ}

def lower (x : ℤ) : Traced ℤ := divide x guardFactor

theorem sound_lower (x : ℤ) : Sound (lower x) (Decimal.lower x) :=
  sound_divide x guardFactor_pos.ne'

def product (a b : ℤ) : Traced ℤ := divide (a * b) one

theorem sound_product (a b : ℤ) : Sound (product a b) (Decimal.product a b) :=
  sound_divide _ one_pos.ne'

def quotient (a b : ℤ) : Traced ℤ := divide (a * one) b

theorem sound_quotient (a : ℤ) {b : ℤ} (hb : b ≠ 0) :
    Sound (quotient a b) (Decimal.quotient a b) := sound_divide _ hb

def fineQuotient (a b : ℤ) : Traced ℤ := divide (a * fineOne) b

theorem sound_fineQuotient (a : ℤ) {b : ℤ} (hb : b ≠ 0) :
    Sound (fineQuotient a b) (Decimal.fineQuotient a b) := sound_divide _ hb

def saturateLowered (x : ℤ) : Traced Number := do return Number.saturate (← lower x)

theorem sound_saturateLowered (x : ℤ) :
    Sound (saturateLowered x) (Number.saturate (Decimal.lower x)) := (sound_lower x).bind (.pure _)

def mul : Number → Number → Traced Number
  | .finite x, .finite y => do return Number.saturate (← product x y)
  | .nan, _ | _, .nan => return .nan
  | a, b => return Number.signedInfinity (a.sign * b.sign)

theorem sound_mul (a b : Number) : Sound (mul a b) (a.mul b) := by
  cases a <;> cases b
  case finite.finite x y => exact (sound_product x y).bind (.pure _)
  all_goals exact .pure _

def div : Number → Number → Traced Number
  | .nan, _ | _, .nan => return .nan
  | .finite x, .finite y => do
    if y = 0 then return Number.signedInfinity x.sign
    else return Number.saturate (← quotient x y)
  | .finite _, _ => return .zero
  | a, .finite y => return Number.infinity (decide (a.sign < 0) != decide (y < 0))
  | _, _ => return .nan

theorem sound_div (a b : Number) : Sound (div a b) (a.div b) := by
  cases a <;> cases b
  case finite.finite x y =>
    exact .ite (fun _ => .pure _) fun hy => (sound_quotient x hy).bind (.pure _)
  all_goals exact .pure _

def fineLn2 : Traced ℤ := do return (← artanhSum (← divide fineOne 3)) * 2

theorem sound_fineLn2 : Sound fineLn2 Decimal.fineLn2 :=
  (sound_divide fineOne three_ne_zero).bind
    ((sound_artanhSum abs_fineRat_third_le).bind (.pure _))

def fineExp (x : ℤ) : Traced (Option ℤ) := do
  if expLimit * fineOne < x then return none
  else if x < -(expLimit * fineOne) then return some 0
  else
    let ln2 ← fineLn2
    let k ← divide x ln2
    let sum ← expSum (x - k * ln2)
    return some (if 0 ≤ k then sum * twoPow k.toNat else sum.shiftRight (-k).toNat)

theorem sound_fineExp (x : ℤ) : Sound (fineExp x) (Decimal.fineExp x) := by
  refine .ite (fun _ => .pure _) fun _ => .ite (fun _ => .pure _) fun _ => ?_
  refine sound_fineLn2.bind ((sound_divide x fineLn2_bounds.1.ne').bind ?_)
  exact (sound_expSum (abs_fineRat_rest_le x)).bind (.pure _)

def exp (x : ℤ) : Traced Number := do
  match ← fineExp (raise x) with
  | some e => saturateLowered e
  | none => return .posInf

theorem sound_exp (x : ℤ) : Sound (exp x) (Decimal.exp x) := by
  refine (sound_fineExp _).bind ?_
  unfold Decimal.exp
  cases Decimal.fineExp (raise x) with
  | some e => exact sound_saturateLowered e
  | none => exact .pure _

def sinh (x : ℤ) : Traced Number := do
  match ← fineExp (raise x), ← fineExp (-raise x) with
  | some ep, some em => saturateLowered (← divide (ep - em) 2)
  | none, _ => return .posInf
  | some _, none => return .negInf

theorem sound_sinh (x : ℤ) : Sound (sinh x) (Decimal.sinh x) := by
  refine (sound_fineExp _).bind ((sound_fineExp _).bind ?_)
  unfold Decimal.sinh
  cases Decimal.fineExp (raise x) <;> cases Decimal.fineExp (-raise x)
  case some.some ep em => exact (sound_divide _ two_ne_zero).bind (sound_saturateLowered _)
  all_goals exact .pure _

def cosh (x : ℤ) : Traced Number := do
  match ← fineExp (raise x), ← fineExp (-raise x) with
  | some ep, some em => saturateLowered (← divide (ep + em) 2)
  | _, _ => return .posInf

theorem sound_cosh (x : ℤ) : Sound (cosh x) (Decimal.cosh x) := by
  refine (sound_fineExp _).bind ((sound_fineExp _).bind ?_)
  unfold Decimal.cosh
  cases Decimal.fineExp (raise x) <;> cases Decimal.fineExp (-raise x)
  case some.some ep em => exact (sound_divide _ two_ne_zero).bind (sound_saturateLowered _)
  all_goals exact .pure _

def tanh (x : ℤ) : Traced ℤ := do
  if ofInt 100 < x.natAbs then return x.sign * one
  else
    match ← fineExp (raise x * 2) with
    | some e => lower (← fineQuotient (e - fineOne) (e + fineOne))
    | none => return x.sign * one

theorem sound_tanh (x : ℤ) : Sound (tanh x) (Decimal.tanh x) := by
  refine .ite (fun _ => .pure _) fun _ => (sound_fineExp _).bind ?_
  cases he : Decimal.fineExp (raise x * 2) with
  | some e =>
    have hpos : 0 < e + fineOne := add_pos_of_nonneg_of_pos (fineExp_accurate he).1 fineOne_pos
    exact (sound_fineQuotient _ hpos.ne').bind (sound_lower _)
  | none => exact .pure _

def fineLn (x : ℤ) : Traced ℤ := do
  let m := binaryMantissa x
  let z ← fineQuotient (m - fineOne) (m + fineOne)
  let sum ← artanhSum z
  return sum * 2 + (← fineLn2) * binaryExponent x

theorem sound_fineLn (hx : 0 < x) : Sound (fineLn x) (Decimal.fineLn x) := by
  refine (sound_fineQuotient _ (mantissa_add_fineOne_pos hx).ne').bind ?_
  exact (sound_artanhSum (abs_fineRat_variable_le hx)).bind (sound_fineLn2.bind (.pure _))

def checkedLn (x : ℤ) : Traced (Except Fault (Option ℤ)) := do
  if x < 0 then return .error .notReal
  else if x = 0 then return .ok none
  else return .ok (some (← fineLn (raise x)))

theorem sound_checkedLn (x : ℤ) : Sound (checkedLn x) (Decimal.checkedLn x) := by
  refine .ite (fun _ => .pure _) fun hneg => .ite (fun _ => .pure _) fun hzero => ?_
  have hpos : 0 < raise x := mul_pos (by omega) guardFactor_pos
  exact (sound_fineLn hpos).bind (.pure _)

def ln (x : ℤ) : Traced (Except Fault Number) :=
  (checkedLn x).andThen fun l => do
    match l with
    | some l => return .ok (.finite (← lower l))
    | none => return .ok .negInf

theorem sound_ln (x : ℤ) : Sound (ln x) (Decimal.ln x) :=
  (sound_checkedLn x).andThen fun l _ => by
    cases l with
    | some l => exact (sound_lower l).bind (.pure _)
    | none => exact .pure _

def logBase (x base : ℤ) : Traced (Except Fault Number) :=
  (checkedLn x).andThen fun lx => (checkedLn base).andThen fun lb => do
    match lx, lb with
    | some a, some b =>
      if b = 0 then return .ok (← div (.finite a) (.finite b))
      else return .ok (← saturateLowered (← fineQuotient a b))
    | a, b => return .ok (← div (extendedLn a) (extendedLn b))

theorem sound_logBase (x base : ℤ) : Sound (logBase x base) (Decimal.logBase x base) := by
  refine (sound_checkedLn x).andThen fun lx _ => (sound_checkedLn base).andThen fun lb _ => ?_
  rcases lx with _ | a <;> rcases lb with _ | b
  case some.some =>
    refine .ite (fun _ => (sound_div _ _).bind (.pure _)) fun hb => ?_
    exact (sound_fineQuotient a hb).bind ((sound_saturateLowered _).bind (.pure _))
  all_goals exact (sound_div _ _).bind (.pure _)

def finePi : Traced ℤ := do
  let a ← arctanInverseSum 5 machinUnit
  let b ← arctanInverseSum 239 machinUnit
  divide (16 * a - 4 * b) (tenPow machinGuard)

theorem sound_arctanFifth :
    Sound (arctanInverseSum 5 machinUnit) (arctanInverseSeries 5 machinUnit).sum :=
  sound_arctanInverseSum (by norm_num) (endsWithin_arctanInverseSeries (by norm_num)
    machinUnit_nonneg (by norm_num) machinUnit_lt_five)

theorem sound_arctanLarge :
    Sound (arctanInverseSum 239 machinUnit) (arctanInverseSeries 239 machinUnit).sum :=
  sound_arctanInverseSum (by norm_num) (endsWithin_arctanInverseSeries (by norm_num)
    machinUnit_nonneg (by norm_num) machinUnit_lt_large)

theorem sound_finePi : Sound finePi Decimal.finePi :=
  sound_arctanFifth.bind (sound_arctanLarge.bind (sound_divide _ (tenPow_pos machinGuard).ne'))

def fineHalfPi : Traced ℤ := do divide (← finePi) 2

theorem sound_fineHalfPi : Sound fineHalfPi Decimal.fineHalfPi :=
  sound_finePi.bind (sound_divide _ two_ne_zero)

def pi : Traced ℤ := do lower (← finePi)

theorem sound_pi : Sound pi Decimal.pi := sound_finePi.bind (sound_lower _)

def fineSinCos (x : ℤ) : Traced (ℤ × ℤ) := do
  let halfPi ← fineHalfPi
  let q ← divide x halfPi
  let t := x - q * halfPi
  let s ← circularSum sinSeries t
  let c ← circularSum cosSeries t
  let quadrant ← residue q 4
  return match quadrant.toNat with
    | 0 => (s, c)
    | 1 => (c, -s)
    | 2 => (-s, -c)
    | _ => (-c, s)

theorem sound_fineSinCos (x : ℤ) : Sound (fineSinCos x) (Decimal.fineSinCos x) := by
  have hreduced := abs_fineRat_reduced_le x
  refine sound_fineHalfPi.bind ((sound_divide x fineHalfPi_bounds.1.ne').bind ?_)
  refine (sound_circularSum (circular_sinSeries _) le_rfl hreduced).bind ?_
  refine (sound_circularSum (circular_cosSeries _) zero_le_one hreduced).bind ?_
  exact (sound_residue _ four_ne_zero).bind (.pure _)

def sin (x : ℤ) : Traced ℤ := do lower (← fineSinCos (raise x)).1

theorem sound_sin (x : ℤ) : Sound (sin x) (Decimal.sin x) :=
  (sound_fineSinCos _).bind (sound_lower _)

def cos (x : ℤ) : Traced ℤ := do lower (← fineSinCos (raise x)).2

theorem sound_cos (x : ℤ) : Sound (cos x) (Decimal.cos x) :=
  (sound_fineSinCos _).bind (sound_lower _)

def tan (x : ℤ) : Traced Number := do
  let (s, c) ← fineSinCos (raise x)
  if c = 0 then return Number.infinity (s < 0) else saturateLowered (← fineQuotient s c)

theorem sound_tan (x : ℤ) : Sound (tan x) (Decimal.tan x) := by
  refine (sound_fineSinCos _).bind (.ite (fun _ => .pure _) fun hc => ?_)
  exact (sound_fineQuotient _ hc).bind (sound_saturateLowered _)

/-- Halving is a shift. -/
def descend (n y : ℕ) : Traced ℕ := do
  let quotient ← naturalQuotient n y
  let next := (y + quotient) / 2
  if next < y then descend n next else return y
termination_by y

theorem sound_descend {n y : ℕ} (hn : 0 < n) (hy : 0 < y) :
    Sound (descend n y) (Decimal.descend n y) := by
  induction y using Nat.strong_induction_on with
  | _ y ih =>
    rw [descend, Decimal.descend]
    refine (sound_naturalQuotient n hy).bind (.ite (fun hlt => ?_) fun _ => .pure y)
    exact ih _ hlt (newtonStep_pos hn hy)

def isqrt (n : ℕ) : Traced ℕ := if n = 0 then pure 0 else descend n (rootStart n)

theorem sound_isqrt (n : ℕ) : Sound (isqrt n) (Decimal.isqrt n) :=
  .ite (fun _ => .pure 0) fun hn => sound_descend (Nat.pos_of_ne_zero hn) (rootStart_pos n)

def sqrt? (x : ℤ) : Traced (Option ℤ) := do
  if x < 0 then return none else return some (← isqrt (x * one).toNat)

theorem sound_sqrt? (x : ℤ) : Sound (sqrt? x) (Decimal.sqrt? x) :=
  .ite (fun _ => .pure _) fun _ => (sound_isqrt _).bind (.pure _)

def fineRoot (n : ℤ) : Traced ℤ := do return ← isqrt n.toNat

theorem sound_fineRoot (n : ℤ) : Sound (fineRoot n) (Decimal.fineRoot n) :=
  (sound_isqrt _).bind (.pure _)

def halfAngle (a : ℤ) : Traced ℤ := do
  let root ← fineRoot (fineOne * fineOne + a * a)
  fineQuotient a (fineOne + root)

theorem sound_halfAngle (a : ℤ) : Sound (halfAngle a) (Decimal.halfAngle a) := by
  have hpos : 0 < fineOne + Decimal.fineRoot (fineOne * fineOne + a * a) :=
    add_pos fineOne_pos (fineOne_pos.trans_le (fineOne_le_root a))
  exact (sound_fineRoot _).bind (sound_fineQuotient a hpos.ne')

def arctanReduced (a : ℤ) : Traced ℤ := do
  let quarter ← halfAngle (← halfAngle a)
  return (← arctanSum quarter) * 4

theorem sound_arctanReduced (ha : 0 ≤ a) (ha1 : a ≤ fineOne) :
    Sound (arctanReduced a) (Decimal.arctanReduced a) := by
  refine (sound_halfAngle a).bind ((sound_halfAngle _).bind ?_)
  exact (sound_arctanSum (abs_fineRat_quarter_le ha ha1)).bind (.pure _)

def arctanMagnitude (a : ℤ) : Traced ℤ := do
  if fineOne < a then
    let inverse ← divide (fineOne * fineOne) a
    return (← fineHalfPi) - (← arctanReduced inverse)
  else arctanReduced a

theorem sound_arctanMagnitude (ha : 0 ≤ a) :
    Sound (arctanMagnitude a) (Decimal.arctanMagnitude a) := by
  refine .ite (fun hlt => ?_) fun hle => sound_arctanReduced ha (not_lt.mp hle)
  obtain ⟨hinverse, hinverse1⟩ := reciprocal_bounds hlt
  exact (sound_divide _ (fineOne_pos.trans hlt).ne').bind
    (sound_fineHalfPi.bind ((sound_arctanReduced hinverse hinverse1).bind (.pure _)))

def fineArctan (x : ℤ) : Traced ℤ := do
  if x < 0 then return -(← arctanMagnitude x.natAbs) else arctanMagnitude x.natAbs

theorem sound_fineArctan (x : ℤ) : Sound (fineArctan x) (Decimal.fineArctan x) := by
  have hmagnitude := sound_arctanMagnitude (Int.natCast_nonneg x.natAbs)
  exact .ite (fun _ => hmagnitude.bind (.pure _)) fun _ => hmagnitude

def atan (x : ℤ) : Traced ℤ := do lower (← fineArctan (raise x))

theorem sound_atan (x : ℤ) : Sound (atan x) (Decimal.atan x) :=
  (sound_fineArctan _).bind (sound_lower _)

def fineArcsin? (x : ℤ) : Traced (Option ℤ) := do
  if fineOne < x.natAbs then return none
  else if (x.natAbs : ℤ) = fineOne then
    let halfPi ← fineHalfPi
    return some (if x < 0 then -halfPi else halfPi)
  else
    let root ← fineRoot (fineOne * fineOne - x * x)
    return some (← fineArctan (← fineQuotient x root))

theorem arcsineRoot_pos (hx : |x| < fineOne) :
    0 < Decimal.fineRoot (fineOne * fineOne - x * x) := by
  refine fineRoot_pos (sub_pos.mpr ?_)
  rw [← abs_mul_abs_self x]
  exact mul_self_lt_mul_self (abs_nonneg x) hx

theorem sound_fineArcsin? (x : ℤ) : Sound (fineArcsin? x) (Decimal.fineArcsin? x) := by
  refine .ite (fun _ => .pure _) fun hle =>
    .ite (fun _ => sound_fineHalfPi.bind (.pure _)) fun hne => ?_
  have hroot := arcsineRoot_pos (Int.natCast_natAbs x ▸ lt_of_le_of_ne (not_lt.mp hle) hne)
  exact (sound_fineRoot _).bind ((sound_fineQuotient x hroot.ne').bind
    ((sound_fineArctan _).bind (.pure _)))

def asin? (x : ℤ) : Traced (Option ℤ) := do
  match ← fineArcsin? (raise x) with
  | some a => return some (← lower a)
  | none => return none

theorem sound_asin? (x : ℤ) : Sound (asin? x) (Decimal.asin? x) := by
  refine (sound_fineArcsin? _).bind ?_
  unfold Decimal.asin?
  cases Decimal.fineArcsin? (raise x) with
  | some a => exact (sound_lower a).bind (.pure _)
  | none => exact .pure _

def acos? (x : ℤ) : Traced (Option ℤ) := do
  match ← fineArcsin? (raise x) with
  | some a => return some (← lower ((← fineHalfPi) - a))
  | none => return none

theorem sound_acos? (x : ℤ) : Sound (acos? x) (Decimal.acos? x) := by
  refine (sound_fineArcsin? _).bind ?_
  unfold Decimal.acos?
  cases Decimal.fineArcsin? (raise x) with
  | some a => exact sound_fineHalfPi.bind ((sound_lower _).bind (.pure _))
  | none => exact .pure _

end Reckoner.Traced
