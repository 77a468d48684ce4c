import Reckoner.Binary64.Basic

set_option autoImplicit false

namespace Reckoner.Binary64

/-- The decimal `coefficient · 10^exponent`. -/
structure Digits where
  coefficient : Nat
  exponent : Int
  deriving DecidableEq, Repr

/-- The numbers that round to one value: its bounds and itself over a common denominator, and
whether the bounds belong to it. -/
structure Cell where
  low : Nat
  value : Nat
  high : Nat
  den : Nat
  closed : Bool
  deriving DecidableEq, Repr

/-- The cell of the positive number mantissa · 2^exponent. Below a power of two the neighbour is
half as far away. -/
def cell (mantissa : Nat) (exponent : Int) : Cell :=
  let narrow : Bool := mantissa = mantissaEnd / 2 ∧ minExponent < exponent
  let e := exponent - 2
  let unit := if 0 ≤ e then Nat.pow 2 e.toNat else 1
  { low := (4 * mantissa - (if narrow then 1 else 2)) * unit
    value := 4 * mantissa * unit
    high := (4 * mantissa + 2) * unit
    den := if 0 ≤ e then 1 else Nat.pow 2 (-e).toNat
    closed := mantissa % 2 = 0 }

namespace Cell

def grid (c : Cell) (g : Int) : Nat × Nat :=
  if 0 ≤ g then (c.den * Nat.pow 10 g.toNat, 1) else (c.den, Nat.pow 10 (-g).toNat)

def holds (c : Cell) (g : Int) (k : Nat) : Bool :=
  let (step, parts) := c.grid g
  let point := k * step
  if c.closed then c.low * parts ≤ point && point ≤ c.high * parts
  else c.low * parts < point && point < c.high * parts

/-- The multiple of `10^g` in the cell that is nearest to the value; `up` decides a tie, given the
lower one. -/
def nearest? (c : Cell) (up : Nat → Bool) (g : Int) : Option Nat :=
  let (step, parts) := c.grid g
  let v := c.value * parts
  let k := v / step
  let below := v - k * step
  let above := step - below
  match c.holds g k, c.holds g (k + 1) with
  | true, true => if above < below || (above = below && up k) then some (k + 1) else some k
  | true, false => some k
  | false, true => some (k + 1)
  | false, false => none

/-- The first hit on the grids from `10^g` downwards. -/
def search (c : Cell) (up : Nat → Bool) : Nat → Int → Digits
  | 0, g => ⟨c.value * (c.grid g).2 / (c.grid g).1, g⟩
  | turns + 1, g =>
    match c.nearest? up g with
    | some k => ⟨k, g⟩
    | none => c.search up turns (g - 1)

def topGrid (c : Cell) : Int :=
  ((c.value.log2 : Int) - (c.den.log2 : Int) + 2) * 30103 / 100000 + 1

/-- Grids tried: the coarse ones above the value and 17 significant digits. -/
def gridLimit : Nat := 24

def shortest (c : Cell) (up : Nat → Bool) : Digits := c.search up gridLimit c.topGrid

end Cell

def shortest (up : Nat → Bool) (mantissa : Nat) (exponent : Int) : Digits :=
  if mantissa = 0 then ⟨0, 0⟩ else (cell mantissa exponent).shortest up

/-- A written form of finite numbers. -/
structure Layout where
  /-- Which of two equally near shortest decimals, given the lower one: whether the upper. -/
  up : Nat → Bool
  /-- Which decimal exponents of the first digit are written out in place. -/
  positional : Int → Bool
  /-- Whether a whole number keeps a zero after the point. -/
  keepsPoint : Bool

/-- Plain text: a tie goes away from zero. -/
def Layout.plain : Layout := ⟨fun _ => true, fun _ => true, false⟩

/-- JSON text: a tie goes to the even digit. -/
def Layout.json : Layout := ⟨fun k => k % 2 = 1, fun e => -5 ≤ e && e ≤ 15, true⟩

def digitChars (n : Nat) : List Char := Nat.toDigits 10 n

def zeros (n : Nat) : List Char := List.replicate n '0'

/-- The digits with the point after the first `point` of them, filled up with zeros. -/
def positionalChars (keepsPoint : Bool) (digits : List Char) (point : Int) : List Char :=
  if point ≤ 0 then '0' :: '.' :: zeros (-point).toNat ++ digits
  else
    let n := point.toNat
    if digits.length ≤ n then
      digits ++ zeros (n - digits.length) ++ (if keepsPoint then ['.', '0'] else [])
    else digits.take n ++ '.' :: digits.drop n

def scientificChars (digits : List Char) (exponent : Int) : List Char :=
  let fraction := digits.drop 1
  digits.take 1 ++ (if fraction.isEmpty then [] else '.' :: fraction) ++
    'e' :: (if exponent < 0 then '-' else '+') :: digitChars exponent.natAbs

def Layout.magnitude (l : Layout) (mantissa : Nat) (exponent : Int) : List Char :=
  if mantissa = 0 then positionalChars l.keepsPoint ['0'] 1
  else
    let d := shortest l.up mantissa exponent
    let digits := digitChars d.coefficient
    let point := d.exponent + digits.length
    if l.positional (point - 1) then positionalChars l.keepsPoint digits point
    else scientificChars digits (point - 1)

def Layout.finiteText (l : Layout) (negative : Bool) (mantissa : Nat) (exponent : Int) : String :=
  String.ofList ((if negative then ['-'] else []) ++ l.magnitude mantissa exponent)

def text : Binary64 → String
  | .finite s m e => Layout.plain.finiteText s m e
  | .infinite s => if s then "-inf" else "inf"
  | .nan => "NaN"

/-- JSON text, which has no word for what is not finite. -/
def jsonText : Binary64 → String
  | .finite s m e => Layout.json.finiteText s m e
  | _ => "null"

end Reckoner.Binary64
