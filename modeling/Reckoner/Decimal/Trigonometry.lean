import Reckoner.Decimal.Scale
import Reckoner.Decimal.Series
import Reckoner.Number.Basic

set_option autoImplicit false

namespace Reckoner.Decimal

def newtonStep (n y : Nat) : Nat := (y + n / y) / 2

def descend (n y : Nat) : Nat :=
  if newtonStep n y < y then descend n (newtonStep n y) else y
termination_by y

/-- A power of two above the root of `n`. -/
def rootStart (n : Nat) : Nat := Nat.pow 2 ((n.log2 + 2) / 2)

/-- The largest r with r² ≤ n. -/
def isqrt (n : Nat) : Nat := if n = 0 then 0 else descend n (rootStart n)

/-- The square root truncated to the grid; negative numbers have none. -/
def sqrt? (x : Int) : Option Int :=
  if x < 0 then none else some (isqrt (x * one).toNat)

def machinGuard : Nat := 10

def machinUnit : Int := tenPow (finePlaces + machinGuard)

/-- Machin's formula π = 16·arctan(1/5) - 4·arctan(1/239), with ten more places than the fine grid
to absorb truncation. -/
def finePi : Int :=
  let a := (arctanInverseSeries 5 machinUnit).sum
  let b := (arctanInverseSeries 239 machinUnit).sum
  (16 * a - 4 * b).tdiv (tenPow machinGuard)

def fineHalfPi : Int := finePi.tdiv 2

def pi : Int := lower finePi

/-- `x = t + q · π/2` with |t| below π/2; the quadrant q modulo 4 says which series, with which
sign, is the sine and which the cosine. -/
def fineSinCos (x : Int) : Int × Int :=
  let q := x.tdiv fineHalfPi
  let t := x - q * fineHalfPi
  let s := (sinSeries t).sum
  let c := (cosSeries t).sum
  match (q % 4).toNat with
  | 0 => (s, c)
  | 1 => (c, -s)
  | 2 => (-s, -c)
  | _ => (-c, s)

def sin (x : Int) : Int := lower (fineSinCos (raise x)).1

def cos (x : Int) : Int := lower (fineSinCos (raise x)).2

/-- Infinite where the cosine truncates to zero. -/
def tan (x : Int) : Number :=
  let (s, c) := fineSinCos (raise x)
  if c = 0 then Number.infinity (s < 0) else Number.saturate (lower (fineQuotient s c))

def fineRoot (n : Int) : Int := isqrt n.toNat

/-- The tangent of half the angle whose tangent is `a`. -/
def halfAngle (a : Int) : Int :=
  fineQuotient a (fineOne + fineRoot (fineOne * fineOne + a * a))

/-- For 0 ≤ a ≤ 1: twice halved by `tan (θ/2) = tan θ / (1 + √(1 + tan² θ))`, then summed. -/
def arctanReduced (a : Int) : Int := (arctanSeries (halfAngle (halfAngle a))).sum * 4

def arctanMagnitude (a : Int) : Int :=
  if fineOne < a then fineHalfPi - arctanReduced ((fineOne * fineOne).tdiv a) else arctanReduced a

def fineArctan (x : Int) : Int :=
  if x < 0 then -arctanMagnitude x.natAbs else arctanMagnitude x.natAbs

def atan (x : Int) : Int := lower (fineArctan (raise x))

/-- The arcsine on the fine grid; beyond ±1 there is none. -/
def fineArcsin? (x : Int) : Option Int :=
  if fineOne < x.natAbs then none
  else if (x.natAbs : Int) = fineOne then some (if x < 0 then -fineHalfPi else fineHalfPi)
  else some (fineArctan (fineQuotient x (fineRoot (fineOne * fineOne - x * x))))

def asin? (x : Int) : Option Int := (fineArcsin? (raise x)).map lower

def acos? (x : Int) : Option Int := (fineArcsin? (raise x)).map fun a => lower (fineHalfPi - a)

end Reckoner.Decimal
