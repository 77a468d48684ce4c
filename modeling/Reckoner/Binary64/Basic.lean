/-!
A finite number is ± mantissa · 2^exponent in canonical form: the mantissa is below 2^53, and it has
all 53 bits unless the exponent is the least one, -1074.
-/
set_option autoImplicit false

namespace Reckoner

inductive Binary64 where
  | finite (negative : Bool) (mantissa : Nat) (exponent : Int)
  | infinite (negative : Bool)
  | nan
  deriving DecidableEq, Repr

namespace Binary64

def minExponent : Int := -1074

def maxExponent : Int := 971

def mantissaBits : Nat := 53

def mantissaEnd : Nat := Nat.pow 2 mantissaBits

def zero (negative : Bool) : Binary64 := .finite negative 0 minExponent

/-- The quotient rounded to the nearest natural number, a tie to the even one. -/
def divNearest (num den : Nat) : Nat :=
  let q := num / den
  let r := num % den
  if 2 * r < den ∨ (2 * r = den ∧ q % 2 = 0) then q else q + 1

def scaled (num den : Nat) (e : Int) : Nat × Nat :=
  if 0 ≤ e then (num, den * Nat.pow 2 e.toNat) else (num * Nat.pow 2 (-e).toNat, den)

/-- The exponent k with 2^k ≤ num / den < 2^(k + 1), for positive num and den. -/
def floorLog (num den : Nat) : Int :=
  let k : Int := (num.log2 : Int) - (den.log2 : Int)
  let (n, d) := scaled num den k
  if n < d then k - 1 else k

/-- A mantissa with its exponent, where rounding up may have produced 2^53. -/
def pack (negative : Bool) (mantissa : Nat) (exponent : Int) : Binary64 :=
  let (m, e) :=
    if mantissa = mantissaEnd then (mantissa / 2, exponent + 1) else (mantissa, exponent)
  if maxExponent < e then .infinite negative else .finite negative m e

/-- The number nearest to `num / den`, for positive `den`. -/
def ofRatio (negative : Bool) (num den : Nat) : Binary64 :=
  if num = 0 then zero negative
  else
    let e := max (floorLog num den - 52) minExponent
    let (n, d) := scaled num den e
    pack negative (divNearest n d) e

def ofNat (n : Nat) : Binary64 := ofRatio false n 1

def ofInt (n : Int) : Binary64 := ofRatio (n < 0) n.natAbs 1

def ofDecimal (m : Int) (places : Nat) : Binary64 :=
  ofRatio (m < 0) m.natAbs (Nat.pow 10 places)

def neg : Binary64 → Binary64
  | .finite s m e => .finite (!s) m e
  | .infinite s => .infinite (!s)
  | .nan => .nan

def isFinite : Binary64 → Bool
  | .finite _ _ _ => true
  | _ => false

end Binary64

end Reckoner
