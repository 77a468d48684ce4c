/-!
A decimal is an integer counted in units of 10^-64. Series are summed on a finer grid of 10^-74 and
lowered afterwards. Every division truncates toward zero, so that each operation commutes with
negation. A magnitude of more than `bitLimit` binary digits is out of range.
-/
set_option autoImplicit false

namespace Reckoner.Decimal

/-- One more than the largest exponent of a power of ten: exponents are words of 32 bits. -/
def exponentEnd : Nat := 4294967296

/-- A power of ten. An exponent of more than 32 bits loses the higher ones. -/
def tenPow (n : Nat) : Int := (Nat.pow 10 (n % exponentEnd) : Nat)

theorem tenPow_of_lt {n : Nat} (h : n < exponentEnd) : tenPow n = (Nat.pow 10 n : Nat) := by
  rw [tenPow, Nat.mod_eq_of_lt h]

def twoPow (n : Nat) : Int := (Nat.pow 2 n : Nat)

def places : Nat := 64

/-- Further places carried inside a series. -/
def guardPlaces : Nat := 10

def finePlaces : Nat := places + guardPlaces

def one : Int := tenPow places

def fineOne : Int := tenPow finePlaces

def guardFactor : Int := tenPow guardPlaces

def ofInt (n : Int) : Int := n * one

def raise (x : Int) : Int := x * guardFactor

def lower (x : Int) : Int := x.tdiv guardFactor

/-- Binary digits of the magnitude; 0 for 0. -/
def bitLength (x : Int) : Nat := if x = 0 then 0 else x.natAbs.log2 + 1

/-- A value of up to this many bits is kept: 2^33432 exceeds 10^10064. -/
def bitLimit : Nat := 33432

/-- Whether a value on the fine grid is certain to leave the range. -/
def fineOverflow (x : Int) : Bool := bitLength x > bitLimit + bitLength guardFactor

def product (a b : Int) : Int := (a * b).tdiv one

def quotient (a b : Int) : Int := (a * one).tdiv b

def fineProduct (a b : Int) : Int := (a * b).tdiv fineOne

def fineQuotient (a b : Int) : Int := (a * fineOne).tdiv b

def isWhole (x : Int) : Bool := x.tmod one = 0

def isOddWhole (x : Int) : Bool := isWhole x && (x.tdiv one).tmod 2 ≠ 0

def wholeWord? (x : Int) : Option Int :=
  let k := x.tdiv one
  if -9223372036854775808 ≤ k ∧ k ≤ 9223372036854775807 then some k else none

def digitValue (c : Char) : Nat := c.toNat - 48

def digitsValue (ds : List Char) : Nat := ds.foldl (fun n d => 10 * n + digitValue d) 0

/-- The value of `whole.fraction`, both made of ASCII digits alone. -/
def ofDigits (whole fraction : List Char) : Int :=
  let kept := fraction.take places
  digitsValue (whole ++ kept) * tenPow (places - kept.length)

/-- A magnitude: digits, and after the first of them underscores, which do not count. -/
def magnitude? (cs : List Char) : Option Nat :=
  match cs with
  | [] | '_' :: _ => none
  | cs =>
    if cs.all fun c => c.isDigit || c = '_' then some (digitsValue (cs.filter Char.isDigit))
    else none

def integer? : List Char → Option Int
  | '-' :: cs => (magnitude? cs).map fun n => -(n : Int)
  | '+' :: cs => (magnitude? cs).map fun n => (n : Int)
  | cs => (magnitude? cs).map fun n => (n : Int)

/-- The value of a whole and a fractional part given as text. The two are read as one integer with
the fraction filled up to the grid, so a sign stands in front of the whole part, and a character of
the fraction takes one place for each of its bytes. -/
def ofText? (whole fraction : String) : Option Int :=
  let kept := fraction.toList.take places
  let filler := List.replicate (places - (String.ofList kept).utf8ByteSize) '0'
  integer? ((if whole.isEmpty then ['0'] else whole.toList) ++ kept ++ filler)

/-- The integer m for which `x / 10^source` is nearest to `m / 10^target`. -/
def rescale (x : Int) (source target : Nat) : Int :=
  if source ≤ target then x * tenPow (target - source)
  else
    let d := tenPow (source - target)
    let q := x.tdiv d
    let r := x.tmod d
    if d ≤ 2 * r.natAbs then q + x.sign else q

def roundTo (x : Int) (n : Nat) : Int :=
  let kept := Nat.min n places
  rescale x places kept * tenPow (places - kept)

def trunc (x : Int) : Int := x.tdiv one * one

def floor (x : Int) : Int :=
  let t := trunc x
  if x < 0 ∧ t ≠ x then t - one else t

def ceil (x : Int) : Int :=
  let t := trunc x
  if 0 < x ∧ t ≠ x then t + one else t

def signum (x : Int) : Int := x.sign * one

end Reckoner.Decimal
