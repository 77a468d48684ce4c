import Reckoner.Decimal.Scale

/-!
A series is a first term and a way to the next; it is summed until the carried power, truncated to
the grid, is zero. `turnLimit` bounds the number of terms: within the ranges that the callers
establish, every series here is spent earlier.
-/
set_option autoImplicit false

namespace Reckoner.Decimal

/-- A term under way: the index that divides it and the power it is made of. -/
structure Term where
  index : Nat
  power : Int

structure Series where
  start : Term
  next : Term → Term
  addend : Term → Int
  spent : Term → Bool

namespace Series

def sumFrom (S : Series) : Nat → Term → Int
  | 0, _ => 0
  | turns + 1, t => if S.spent t then 0 else S.addend t + S.sumFrom turns (S.next t)

def turnLimit : Nat := 128

def sum (S : Series) : Int := S.sumFrom turnLimit S.start

end Series

def Term.isZero (t : Term) : Bool := t.power = 0

def Term.divided (t : Term) : Int := t.power.tdiv t.index

/-- The same with the sign + - + - … at the indices 1, 3, 5, 7, … -/
def Term.alternating (t : Term) : Int := if t.index % 4 = 1 then t.divided else -t.divided

def oddNext (square : Int) (t : Term) : Term := ⟨t.index + 2, fineProduct t.power square⟩

/-- z + z³/3 + z⁵/5 + … -/
def artanhSeries (z : Int) : Series where
  start := ⟨1, z⟩
  next := oddNext (fineProduct z z)
  addend := Term.divided
  spent := Term.isZero

/-- z - z³/3 + z⁵/5 - … -/
def arctanSeries (z : Int) : Series where
  start := ⟨1, z⟩
  next := oddNext (fineProduct z z)
  addend := Term.alternating
  spent := Term.isZero

/-- 1 + r + r²/2! + … -/
def expSeries (r : Int) : Series where
  start := ⟨1, fineOne⟩
  next t := ⟨t.index + 1, (t.power * r).tdiv (fineOne * t.index)⟩
  addend := Term.power
  spent := Term.isZero

/-- The step shared by sine and cosine: times -t² over two consecutive integers. -/
def circularNext (square : Int) (t : Term) : Term :=
  ⟨t.index + 2, (-(t.power * square)).tdiv (fineOne * ((t.index + 1) * (t.index + 2) : Nat))⟩

/-- x - x³/3! + x⁵/5! - … -/
def sinSeries (x : Int) : Series where
  start := ⟨1, x⟩
  next := circularNext (fineProduct x x)
  addend := Term.power
  spent := Term.isZero

/-- 1 - x²/2! + x⁴/4! - … -/
def cosSeries (x : Int) : Series where
  start := ⟨0, fineOne⟩
  next := circularNext (fineProduct x x)
  addend := Term.power
  spent := Term.isZero

/-- 1/q - 1/(3q³) + 1/(5q⁵) - … in units of `1 / unit`; the power carried is the growing qⁿ. -/
def arctanInverseSeries (q unit : Int) : Series where
  start := ⟨1, q⟩
  next t := ⟨t.index + 2, t.power * q * q⟩
  addend t :=
    let a := unit.tdiv (t.power * t.index)
    if t.index % 4 = 1 then a else -a
  spent t := unit.tdiv (t.power * t.index) = 0

end Reckoner.Decimal
