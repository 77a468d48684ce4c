import Mathlib
import Reckoner.Expr.Basic

set_option autoImplicit false

namespace Reckoner

/-- A power with a whole exponent that is not negative; 0 to the power 0 is 1. -/
def exactPower? (a b : ℚ) : Option ℚ :=
  if b.den = 1 ∧ 0 ≤ b then some (a ^ b.num.toNat) else none

/-- The nearest integer, from a half on the one farther from zero. -/
def nearestInt (a : ℚ) : ℤ := if 0 ≤ a then ⌊a + 1 / 2⌋ else -⌊-a + 1 / 2⌋

def Operator.onRationals? (op : Operator) (a b : ℚ) : Option ℚ :=
  match op with
  | .plus => some (a + b)
  | .minus => some (a - b)
  | .times => some (a * b)
  | .divide => if b = 0 then none else some (a / b)
  | .power => exactPower? a b

def Function.onRationals? (f : Function) (args : List ℚ) : Option ℚ :=
  match f, args with
  | .unary .abs, [a] => some |a|
  | .unary .sign, [a] => some (SignType.sign a)
  | .unary .floor, [a] => some ⌊a⌋
  | .unary .ceil, [a] => some ⌈a⌉
  | .unary .trunc, [a] => some (if 0 ≤ a then ⌊a⌋ else ⌈a⌉ : ℤ)
  | .round, [a] => some (nearestInt a)
  | .round, [a, n] =>
    if n.den = 1 ∧ 0 ≤ n ∧ n ≤ roundLimit then
      some (nearestInt (a * 10 ^ n.num.toNat) / 10 ^ n.num.toNat)
    else none
  | .pow, [a, b] => exactPower? a b
  | .min, a :: rest => some (rest.foldl Min.min a)
  | .max, a :: rest => some (rest.foldl Max.max a)
  | _, _ => none

namespace Decimal

def toRat (x : Int) : ℚ := x / one

def InRange (x : Int) : Prop := x.natAbs < 2 ^ bitLimit

end Decimal

namespace Expr

mutual

/-- The exact value of a tree of literals, of `+ - * / ^` and of functions that keep to rational
numbers. -/
def rational? : Expr → Option ℚ
  | .number x => some (Decimal.toRat x)
  | .constant _ => none
  | .negate e => e.rational?.map (- ·)
  | .binary op l r => do op.onRationals? (← l.rational?) (← r.rational?)
  | .call f args => do f.onRationals? (← rationalAll? args)

def rationalAll? : List Expr → Option (List ℚ)
  | [] => some []
  | e :: es => do
    let a ← e.rational?
    let as ← rationalAll? es
    return a :: as

end

mutual

def nodes : Expr → List Expr
  | .number x => [.number x]
  | .constant c => [.constant c]
  | .negate e => .negate e :: e.nodes
  | .binary op l r => .binary op l r :: (l.nodes ++ r.nodes)
  | .call f args => .call f args :: nodesAll args

def nodesAll : List Expr → List Expr
  | [] => []
  | e :: es => e.nodes ++ nodesAll es

end

/-- Whether the exact value is one of the grid, within the range. -/
def OnGrid (e : Expr) : Prop := ∃ x : ℤ, e.rational? = some (Decimal.toRat x) ∧ Decimal.InRange x

end Expr

namespace Decimal

variable {a b v : Int}

theorem cast_tenPow {R : Type*} [Ring R] {n : Nat} (hn : n < exponentEnd) :
    ((tenPow n : ℤ) : R) = 10 ^ n := by
  rw [tenPow_of_lt hn, Int.cast_natCast]
  exact Nat.cast_pow 10 n

theorem lt_exponentEnd {n : Nat} (hn : n ≤ places) : n < exponentEnd := hn.trans_lt (by decide)

theorem one_pos : 0 < one := by decide

theorem one_ne_zero : (one : ℚ) ≠ 0 := by
  exact_mod_cast one_pos.ne'

theorem toRat_mul_one (a : Int) : toRat a * one = a := div_mul_cancel₀ _ one_ne_zero

theorem toRat_inj : toRat a = toRat b ↔ a = b := by
  unfold toRat
  rw [div_left_inj' one_ne_zero, Int.cast_inj]

theorem toRat_neg (a : Int) : toRat (-a) = -toRat a := by
  simp [toRat, neg_div]

theorem toRat_add (a b : Int) : toRat (a + b) = toRat a + toRat b := by
  simp [toRat, add_div]

theorem toRat_mul_eq_iff : toRat a * toRat b = toRat v ↔ a * b = v * one := by
  unfold toRat
  rw [div_mul_div_comm, div_eq_div_iff (mul_ne_zero one_ne_zero one_ne_zero) one_ne_zero,
    ← mul_assoc, mul_left_inj' one_ne_zero]
  norm_cast

theorem toRat_div_eq_iff (hb : b ≠ 0) : toRat a / toRat b = toRat v ↔ a * one = v * b := by
  have hb' : (b : ℚ) ≠ 0 := Int.cast_ne_zero.mpr hb
  unfold toRat
  rw [div_div_div_cancel_right₀ one_ne_zero, div_eq_div_iff hb' one_ne_zero]
  norm_cast

theorem toRat_eq_zero_iff : toRat a = 0 ↔ a = 0 := by
  rw [toRat, div_eq_zero_iff, or_iff_left one_ne_zero, Int.cast_eq_zero]

theorem toRat_eq_intCast_iff {k : ℤ} : toRat a = k ↔ a = k * one := by
  rw [toRat, div_eq_iff one_ne_zero]
  norm_cast

theorem toRat_ofInt (k : ℤ) : toRat (k * one) = k := toRat_eq_intCast_iff.mpr rfl

theorem toRat_le_toRat : toRat a ≤ toRat b ↔ a ≤ b := by
  have hone : (0 : ℚ) < one := by exact_mod_cast one_pos
  rw [toRat, toRat, div_le_div_iff_of_pos_right hone, Int.cast_le]

theorem toRat_lt_toRat : toRat a < toRat b ↔ a < b := by
  rw [← not_le, toRat_le_toRat, not_le]

theorem toRat_nonneg_iff : 0 ≤ toRat a ↔ 0 ≤ a := by
  have h := @toRat_le_toRat 0 a
  rwa [toRat_eq_zero_iff.mpr rfl] at h

theorem bitLength_le_iff {n : Nat} : bitLength a ≤ n ↔ a.natAbs < 2 ^ n := by
  unfold bitLength
  split
  · next ha => simp [ha]
  · next ha => rw [Nat.succ_le_iff, Nat.log2_lt (Int.natAbs_ne_zero.mpr ha)]

theorem bitLength_mono (h : a.natAbs ≤ b.natAbs) : bitLength a ≤ bitLength b :=
  bitLength_le_iff.mpr (h.trans_lt (bitLength_le_iff.mp le_rfl))

theorem inRange_of_natAbs_lt {e : Nat} (h : a.natAbs < 2 ^ e) (he : e ≤ bitLimit) : InRange a :=
  h.trans_le (Nat.pow_le_pow_right Nat.two_pos he)

theorem saturate_of_inRange (h : InRange a) : Number.saturate a = .finite a := by
  have hbits : ¬bitLength a > bitLimit := Nat.not_lt.mpr (bitLength_le_iff.mpr h)
  rw [Number.saturate, if_neg hbits]

theorem inRange_neg_iff : InRange (-a) ↔ InRange a := by
  rw [InRange, Int.natAbs_neg, InRange]

end Decimal

end Reckoner
