import Reckoner.Binary64.Basic
import Reckoner.Decimal.Scale

/-!
As a binary64 number a numeral is read by a short rule that rounds more than once: the digits are
collected in a 64-bit significand as long as they fit, and the significand, rounded, is multiplied
or divided by a rounded power of ten. A result too large is refused.
-/
set_option autoImplicit false

namespace Reckoner.Json

structure Exponent where
  negative : Bool
  digits : List Char
  deriving DecidableEq, Repr

structure Numeral where
  negative : Bool
  whole : List Char
  fraction : Option (List Char)
  exponent : Option Exponent
  deriving DecidableEq, Repr

def wordEnd : Nat := 18446744073709551616

/-- Beyond this an exponent counts as infinite. -/
def exponentLimit : Nat := 2147483647

/-- Adds digits to a significand while it stays a word, and counts them. -/
def collect (significand : Nat) : List Char → Nat × Nat
  | [] => (significand, 0)
  | d :: ds =>
    let next := 10 * significand + Decimal.digitValue d
    if next < wordEnd then
      let (s, n) := collect next ds
      (s, n + 1)
    else (significand, 0)

def largestTen : Nat := 308

def product : Binary64 → Binary64 → Binary64
  | .finite s m e, .finite s' m' e' =>
    let (n, d) := Binary64.scaled (m * m') 1 (-(e + e'))
    Binary64.ofRatio (s != s') n d
  | _, _ => .nan

def quotient : Binary64 → Binary64 → Binary64
  | .finite s m e, .finite s' m' e' =>
    let (n, d) := Binary64.scaled m m' (e' - e)
    Binary64.ofRatio (s != s') n d
  | _, _ => .nan

def tenTo (n : Nat) : Binary64 := Binary64.ofNat (Nat.pow 10 n)

def isZero : Binary64 → Bool
  | .finite _ m _ => m = 0
  | _ => false

/-- Divides by `10^n`, by the largest power first as long as something is left. -/
def dividedByTen (x : Binary64) (n : Nat) : Binary64 :=
  if n ≤ largestTen then quotient x (tenTo n)
  else if isZero x then x
  else dividedByTen (quotient x (tenTo largestTen)) (n - largestTen)
termination_by n
decreasing_by simp only [largestTen] at *; omega

/-- `significand · 10^exponent`, or nothing when that is too large. -/
def scaleByTen (significand : Nat) (exponent : Int) : Option Binary64 :=
  let x := Binary64.ofNat significand
  if exponent < 0 then some (dividedByTen x exponent.natAbs)
  else if exponent ≤ largestTen then
    let y := product x (tenTo exponent.toNat)
    if y.isFinite then some y else none
  else if isZero x then some x
  else none

namespace Numeral

def isInteger (n : Numeral) : Bool := n.fraction.isNone && n.exponent.isNone

def magnitude (n : Numeral) : Nat := Decimal.digitsValue n.whole

/-- An integer from -2^63 to 2^64 - 1. A zero with a sign is none. -/
def toInt? (n : Numeral) : Option Int :=
  if !n.isInteger then none
  else if n.negative then
    if 0 < n.magnitude ∧ n.magnitude ≤ wordEnd / 2 then some (-(n.magnitude : Int)) else none
  else if n.magnitude < wordEnd then some n.magnitude
  else none

def writtenExponent? (n : Numeral) : Option Int :=
  match n.exponent with
  | none => some 0
  | some e =>
    let k := Decimal.digitsValue e.digits
    if exponentLimit < k then none else some (if e.negative then -(k : Int) else k)

def magnitudeBinary64? (n : Numeral) : Option Binary64 :=
  let (head, wholeCount) := collect 0 n.whole
  let (significand, fractionCount) := collect head (n.fraction.getD [])
  let shift : Int := ((n.whole.length - wholeCount : Nat) : Int) - (fractionCount : Int)
  match n.writtenExponent? with
  | some e => scaleByTen significand (shift + e)
  | none =>
    if significand ≠ 0 ∧ (n.exponent.any fun e => !e.negative) then none
    else some (Binary64.zero false)

def toBinary64? (n : Numeral) : Option Binary64 :=
  n.magnitudeBinary64?.map fun x => if n.negative then x.neg else x

end Numeral

end Reckoner.Json
