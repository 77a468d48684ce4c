import Reckoner.Decimal.Exponential

set_option autoImplicit false

namespace Reckoner.Decimal

/-- `acc · b^m`, truncated at each product; none when a factor leaves the range. -/
def binaryPower (acc b : Int) (m : Nat) : Option Int :=
  let acc' := if m % 2 = 1 then fineProduct acc b else acc
  if m % 2 = 1 ∧ fineOverflow acc' then none
  else if h : m / 2 = 0 then some acc'
  else
    let square := fineProduct b b
    if fineOverflow square then none else binaryPower acc' square (m / 2)
termination_by m
decreasing_by omega

/-- log₂|xⁿ| beyond which the power is certain to leave the range. -/
def logLimit : Int := 33220

/-- Whether `|x|^n` is so large that it need not be computed. -/
def surelyInfinite (x n : Int) : Bool :=
  let e : Int := (bitLength x : Int) - (bitLength one : Int)
  if 0 < n then 1 < e ∧ logLimit < (e - 1) * n.natAbs
  else e < -1 ∧ logLimit < (-e - 1) * n.natAbs

/-- x^n for a whole n. A negative power raises the larger of |x| and 1/|x|, so that the result does
not vanish on the way. -/
def wholePower (x n : Int) : Number :=
  if n = 0 then .one
  else if x = 0 then (if 0 < n then .zero else .posInf)
  else
    let negative : Bool := x < 0 ∧ n.tmod 2 ≠ 0
    if surelyInfinite x n then Number.infinity negative
    else
      let a := raise x.natAbs
      let small : Bool := n < 0 ∧ a < fineOne
      let base := if small then (fineOne * fineOne).tdiv a else a
      let invert : Bool := n < 0 ∧ ¬small
      match binaryPower fineOne base n.natAbs with
      | some p =>
        let v := lower (if invert then (fineOne * fineOne).tdiv p else p)
        Number.saturate (if negative then -v else v)
      | none => if invert then .zero else Number.infinity negative

def realPower (x y : Int) : Number :=
  if x = 0 then (if 0 < y then .zero else if y = 0 then .one else .posInf)
  else
    match fineExp (fineProduct (raise y) (fineLn (raise x))) with
    | some e => Number.saturate (lower e)
    | none => .posInf

def pow (x y : Int) : Except Fault Number :=
  if isWhole y then
    match wholeWord? y with
    | some k => .ok (wholePower x k)
    | none =>
      if x < 0 then
        let m := realPower (-x) y
        .ok (if isOddWhole y then m.neg else m)
      else .ok (realPower x y)
  else if x < 0 then .error .notReal
  else .ok (realPower x y)

end Reckoner.Decimal

namespace Reckoner.Number

def infinitePower (x : Int) (positive : Bool) : Number :=
  match Ord.compare (x.natAbs : Int) Decimal.one with
  | .eq => .nan
  | .gt => if positive then .posInf else .zero
  | .lt => if positive then .zero else .posInf

/-- An infinity of the given sign to a finite power other than 0. -/
def powerOfInfinity (negative : Bool) (y : Int) : Number :=
  if y < 0 then .zero else infinity (negative && Decimal.isOddWhole y)

def pow : Number → Number → Except Fault Number
  | .finite x, .finite y => Decimal.pow x y
  | .posInf, .finite y => .ok (if y = 0 then .one else powerOfInfinity false y)
  | .negInf, .finite y => .ok (if y = 0 then .one else powerOfInfinity true y)
  | .nan, .finite y => .ok (if y = 0 then .one else .nan)
  | .nan, _ | _, .nan => .ok .nan
  | .finite x, .posInf => .ok (infinitePower x true)
  | .finite x, .negInf => .ok (infinitePower x false)
  | _, .posInf => .ok .posInf
  | _, .negInf => .ok .zero

end Reckoner.Number
