import Reckoner.Decimal.Series
import Reckoner.Error
import Reckoner.Number.Basic

set_option autoImplicit false

namespace Reckoner.Decimal

/-- ln 2 = 2 · artanh (1/3). -/
def fineLn2 : Int := (artanhSeries (fineOne.tdiv 3)).sum * 2

/-- Beyond this exponent the result is infinite, below its negative zero. -/
def expLimit : Int := 23100

/-- `exp x = 2^k · exp r` with `x = k · ln 2 + r` and |r| below ln 2; none is +∞. -/
def fineExp (x : Int) : Option Int :=
  if expLimit * fineOne < x then none
  else if x < -(expLimit * fineOne) then some 0
  else
    let k := x.tdiv fineLn2
    let sum := (expSeries (x - k * fineLn2)).sum
    some (if 0 ≤ k then sum * twoPow k.toNat else sum.shiftRight (-k).toNat)

def exp (x : Int) : Number :=
  match fineExp (raise x) with
  | some e => Number.saturate (lower e)
  | none => .posInf

/-- Both exponentials are lowered together; one of the two is always finite. -/
def sinh (x : Int) : Number :=
  match fineExp (raise x), fineExp (-raise x) with
  | some ep, some em => Number.saturate (lower ((ep - em).tdiv 2))
  | none, _ => .posInf
  | some _, none => .negInf

def cosh (x : Int) : Number :=
  match fineExp (raise x), fineExp (-raise x) with
  | some ep, some em => Number.saturate (lower ((ep + em).tdiv 2))
  | _, _ => .posInf

/-- Beyond 100 the result is 1 to the last place. -/
def tanh (x : Int) : Int :=
  if ofInt 100 < x.natAbs then x.sign * one
  else
    match fineExp (raise x * 2) with
    | some e => lower (fineQuotient (e - fineOne) (e + fineOne))
    | none => x.sign * one

/-- The power of two to take out of `x`: a difference of bit lengths. -/
def binaryExponent (x : Int) : Int := (bitLength x : Int) - (bitLength fineOne : Int)

def binaryMantissa (x : Int) : Int :=
  let k := binaryExponent x
  if 0 ≤ k then x.shiftRight k.toNat else x * twoPow (-k).toNat

/-- `x = m · 2^k` with m near 1, and `ln m = 2 · artanh ((m - 1) / (m + 1))`. -/
def fineLn (x : Int) : Int :=
  let m := binaryMantissa x
  let z := fineQuotient (m - fineOne) (m + fineOne)
  (artanhSeries z).sum * 2 + fineLn2 * binaryExponent x

/-- ln x on the fine grid, where none is ln 0 = -∞. -/
def checkedLn (x : Int) : Except Fault (Option Int) :=
  if x < 0 then .error .notReal
  else if x = 0 then .ok none
  else .ok (some (fineLn (raise x)))

def ln (x : Int) : Except Fault Number := do
  match ← checkedLn x with
  | some l => return .finite (lower l)
  | none => return .negInf

def extendedLn : Option Int → Number
  | some l => .finite l
  | none => .negInf

/-- ln x / ln b. Where ln b is 0 or a logarithm is infinite the quotient does not depend on the
grid, and the extended division decides. -/
def logBase (x base : Int) : Except Fault Number := do
  let lx ← checkedLn x
  let lb ← checkedLn base
  match lx, lb with
  | some a, some b =>
    if b = 0 then return (Number.finite a).div (.finite b)
    else return Number.saturate (lower (fineQuotient a b))
  | a, b => return (extendedLn a).div (extendedLn b)

end Reckoner.Decimal
