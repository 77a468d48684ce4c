import Reckoner.Decimal.Scale

set_option autoImplicit false

namespace Reckoner

inductive Number where
  | finite (units : Int)
  | posInf
  | negInf
  | nan
  deriving DecidableEq, Repr

namespace Number

def zero : Number := .finite 0

def one : Number := .finite Decimal.one

def infinity (negative : Bool) : Number := if negative then .negInf else .posInf

/-- A decimal within the range, otherwise the infinity of its sign. -/
def saturate (x : Int) : Number :=
  if Decimal.bitLength x > Decimal.bitLimit then infinity (x < 0) else .finite x

def isFinite : Number → Bool
  | .finite _ => true
  | _ => false

def sign : Number → Int
  | .finite x => x.sign
  | .posInf => 1
  | .negInf => -1
  | .nan => 0

def neg : Number → Number
  | .finite x => .finite (-x)
  | .posInf => .negInf
  | .negInf => .posInf
  | .nan => .nan

/-- Place in the order -∞ < finite < +∞. -/
def rank : Number → Int
  | .negInf => -1
  | .posInf => 1
  | _ => 0

/-- A total order but for NaN, which compares with nothing. -/
def compare : Number → Number → Option Ordering
  | .nan, _ | _, .nan => none
  | .finite x, .finite y => some (Ord.compare x y)
  | a, b => some (Ord.compare a.rank b.rank)

end Number

end Reckoner

namespace Reckoner.Number

def add : Number → Number → Number
  | .finite x, .finite y => saturate (x + y)
  | .nan, _ | _, .nan => .nan
  | .posInf, .negInf | .negInf, .posInf => .nan
  | .posInf, _ | _, .posInf => .posInf
  | _, _ => .negInf

def sub (a b : Number) : Number := a.add b.neg

/-- The infinity of the given sign; sign 0 is NaN. -/
def signedInfinity (sign : Int) : Number := if sign = 0 then .nan else infinity (sign < 0)

def mul : Number → Number → Number
  | .finite x, .finite y => saturate (Decimal.product x y)
  | .nan, _ | _, .nan => .nan
  | a, b => signedInfinity (a.sign * b.sign)

/-- A zero divisor counts as positive. -/
def div : Number → Number → Number
  | .nan, _ | _, .nan => .nan
  | .finite x, .finite y =>
    if y = 0 then signedInfinity x.sign else saturate (Decimal.quotient x y)
  | .finite _, _ => zero
  | a, .finite y => infinity (decide (a.sign < 0) != decide (y < 0))
  | _, _ => .nan

end Reckoner.Number
