import Reckoner.Decimal.Power
import Reckoner.Proofs.Trace.Elementary

set_option autoImplicit false

namespace Reckoner.Traced

open Decimal

variable {x n acc b : ℤ} {m : ℕ}

def accumulate (acc b : ℤ) (m : ℕ) : Traced ℤ :=
  if m % 2 = 1 then fineProduct acc b else pure acc

theorem sound_accumulate (acc b : ℤ) (m : ℕ) :
    Sound (accumulate acc b m) (Decimal.accumulate acc b m) :=
  .ite (fun _ => sound_fineProduct acc b) fun _ => .pure acc

def binaryPower (turn : ℕ) (acc b : ℤ) (m : ℕ) : Traced (Option ℤ) := do
  note (.squaring turn)
  let acc' ← accumulate acc b m
  if m % 2 = 1 ∧ fineOverflow acc' = true then return none
  else if m / 2 = 0 then return some acc'
  else
    let square ← fineProduct b b
    if fineOverflow square = true then return none
    else binaryPower (turn + 1) acc' square (m / 2)
termination_by m

/-- Every turn but the last takes one binary digit off the exponent. -/
theorem sound_binaryPower {turn : ℕ} (hturn : turn ≤ 64) (hm : m < 2 ^ (65 - turn)) :
    Sound (binaryPower turn acc b m) (Decimal.binaryPower acc b m) := by
  induction m using Nat.strong_induction_on generalizing turn acc b with
  | _ m ih =>
    rw [binaryPower, binaryPower_eq]
    refine (sound_note (e := .squaring turn) hturn).bind ((sound_accumulate acc b m).bind ?_)
    refine .ite (fun _ => .pure _) fun _ => .ite (fun _ => .pure _) fun hmore => ?_
    refine (sound_fineProduct b b).bind (.ite (fun _ => .pure _) fun _ => ?_)
    have hpower : 2 ^ (65 - turn) = 2 * 2 ^ (64 - turn) := by
      rw [← pow_succ']
      congr 1
      omega
    have hhalf : m / 2 < 2 ^ (64 - turn) := Nat.div_lt_of_lt_mul (hpower ▸ hm)
    have hnext : turn ≠ 64 := by
      rintro rfl
      exact hmore (Nat.lt_one_iff.mp hhalf)
    exact ih (m / 2) (by omega) (by omega) (by rwa [Nat.add_sub_add_right 64 1])

def invertedIf (c : Bool) (a : ℤ) : Traced ℤ :=
  if c then divide (fineOne * fineOne) a else pure a

theorem sound_invertedIf {c : Bool} {a : ℤ} (h : c = true → a ≠ 0) :
    Sound (invertedIf c a) (if c then (fineOne * fineOne).tdiv a else a) :=
  .ite (fun hc => sound_divide _ (h hc)) fun _ => .pure a

def finishPower (negative invert : Bool) : Option ℤ → Traced Number
  | some p => do
    let v ← lower (← invertedIf invert p)
    return Number.saturate (if negative then -v else v)
  | none => return if invert then .zero else Number.infinity negative

-- The condition stands behind the colon: as a hypothesis it would be caught up in the match.
theorem sound_finishPower (negative invert : Bool) (q : Option ℤ) :
    (invert = true → q ≠ some 0) →
    Sound (finishPower negative invert q) (match q with
      | some p =>
        let v := Decimal.lower (if invert then (fineOne * fineOne).tdiv p else p)
        Number.saturate (if negative then -v else v)
      | none => if invert then .zero else Number.infinity negative) := by
  intro h
  cases q with
  | some p =>
    have hp (hc : invert = true) : p ≠ 0 := fun hzero => h hc (congrArg some hzero)
    exact (sound_invertedIf hp).bind ((sound_lower _).bind (.pure _))
  | none => exact .pure _

/-- A power of a base from 1 on does not vanish. -/
theorem binaryPower_ne_zero (hb : fineOne ≤ b) (m : ℕ) :
    Decimal.binaryPower fineOne b m ≠ some 0 := by
  intro hzero
  rcases powerFromOne_whole hb m with ⟨p, hp, hone, -⟩ | ⟨hnone, -⟩
  · obtain rfl := Option.some.inj (hzero.symm.trans hp)
    exact hone.not_gt fineOne_pos
  · exact nomatch hzero.symm.trans hnone

def powerOfNonzero (negative : Bool) (x n : ℤ) : Traced Number := do
  let a := raise x.natAbs
  let small : Bool := n < 0 ∧ a < fineOne
  let base ← invertedIf small a
  let invert : Bool := n < 0 ∧ ¬small
  finishPower negative invert (← binaryPower 1 fineOne base n.natAbs)

def wholePower (x n : ℤ) : Traced Number := do
  if n = 0 then return .one
  else if x = 0 then return if 0 < n then .zero else .posInf
  else
    let parity ← remainder n 2
    let negative : Bool := x < 0 ∧ parity ≠ 0
    if surelyInfinite x n then return Number.infinity negative
    else powerOfNonzero negative x n

theorem sound_wholePower (hn : n.natAbs < 2 ^ 64) :
    Sound (wholePower x n) (Decimal.wholePower x n) := by
  refine .ite (fun _ => .pure _) fun _ => .ite (fun _ => .pure _) fun hx => ?_
  refine (sound_remainder n two_ne_zero).bind (.ite (fun _ => .pure _) fun _ => ?_)
  refine (sound_invertedIf fun _ => (raise_natAbs_pos hx).ne').bind
    ((sound_binaryPower (by norm_num) hn).bind (sound_finishPower _ _ _ fun hinvert => ?_))
  obtain ⟨hneg, hsmall⟩ := of_decide_eq_true hinvert
  rw [if_neg hsmall]
  exact binaryPower_ne_zero (not_lt.mp fun hlt => hsmall (decide_eq_true ⟨hneg, hlt⟩)) _

def realPower (x y : ℤ) : Traced Number := do
  if x = 0 then return if 0 < y then .zero else if y = 0 then .one else .posInf
  else
    let l ← fineLn (raise x)
    match ← fineExp (← fineProduct (raise y) l) with
    | some e => saturateLowered e
    | none => return .posInf

theorem sound_realPower (hx : 0 ≤ x) (y : ℤ) :
    Sound (realPower x y) (Decimal.realPower x y) := by
  refine .ite (fun _ => .pure _) fun hzero => ?_
  have hpos : 0 < raise x := mul_pos (lt_of_le_of_ne hx (Ne.symm hzero)) guardFactor_pos
  refine (sound_fineLn hpos).bind ((sound_fineProduct _ _).bind ((sound_fineExp _).bind ?_))
  cases Decimal.fineExp (Decimal.fineProduct (raise y) (Decimal.fineLn (raise x))) with
  | some e => exact sound_saturateLowered e
  | none => exact .pure _

def isWhole (x : ℤ) : Traced Bool := do return (← remainder x one) = 0

theorem sound_isWhole (x : ℤ) : Sound (isWhole x) (Decimal.isWhole x) :=
  (sound_remainder x Decimal.one_pos.ne').bind (.pure _)

def isOddWhole (x : ℤ) : Traced Bool := do
  if ← isWhole x then return (← remainder (← divide x one) 2) ≠ 0 else return false

theorem sound_isOddWhole (x : ℤ) : Sound (isOddWhole x) (Decimal.isOddWhole x) := by
  refine (sound_isWhole x).bind ?_
  unfold Decimal.isOddWhole
  cases Decimal.isWhole x with
  | true =>
    exact (sound_divide x Decimal.one_pos.ne').bind
      ((sound_remainder _ two_ne_zero).bind (.pure _))
  | false => exact .pure false

def wholeWord? (x : ℤ) : Traced (Option ℤ) := do
  let k ← divide x one
  return if -9223372036854775808 ≤ k ∧ k ≤ 9223372036854775807 then some k else none

theorem sound_wholeWord? (x : ℤ) : Sound (wholeWord? x) (Decimal.wholeWord? x) :=
  (sound_divide x Decimal.one_pos.ne').bind (.pure _)

theorem natAbs_lt_of_wholeWord? (h : Decimal.wholeWord? x = some n) : n.natAbs < 2 ^ 64 := by
  obtain ⟨hword, hn⟩ := Option.ite_none_right_eq_some.mp h
  obtain rfl := Option.some.inj hn
  omega

def pow (x y : ℤ) : Traced (Except Fault Number) := do
  if ← isWhole y then
    match ← wholeWord? y with
    | some k => return .ok (← wholePower x k)
    | none =>
      if x < 0 then
        let m ← realPower (-x) y
        return .ok (if ← isOddWhole y then m.neg else m)
      else return .ok (← realPower x y)
  else if x < 0 then return .error .notReal
  else return .ok (← realPower x y)

theorem sound_pow (x y : ℤ) : Sound (pow x y) (Decimal.pow x y) := by
  have hreal (hx : ¬x < 0) := sound_realPower (not_lt.mp hx) y
  refine (sound_isWhole y).bind (.ite (fun _ => (sound_wholeWord? y).bind ?_) fun _ => ?_)
  · cases hk : Decimal.wholeWord? y with
    | some k => exact (sound_wholePower (natAbs_lt_of_wholeWord? hk)).bind (.pure _)
    | none =>
      refine .ite (fun hneg => ?_) fun hx => (hreal hx).bind (.pure _)
      exact (sound_realPower (neg_nonneg.mpr hneg.le) y).bind ((sound_isOddWhole y).bind (.pure _))
  · exact .ite (fun _ => .pure _) fun hx => (hreal hx).bind (.pure _)

def powerOfInfinity (negative : Bool) (y : ℤ) : Traced Number := do
  if y < 0 then return .zero else return Number.infinity (negative && (← isOddWhole y))

theorem sound_powerOfInfinity (negative : Bool) (y : ℤ) :
    Sound (powerOfInfinity negative y) (Number.powerOfInfinity negative y) :=
  .ite (fun _ => .pure _) fun _ => (sound_isOddWhole y).bind (.pure _)

def infinityPow (negative : Bool) (y : ℤ) : Traced Number :=
  if y = 0 then pure .one else powerOfInfinity negative y

theorem sound_infinityPow (negative : Bool) (y : ℤ) : Sound (infinityPow negative y)
    (if y = 0 then .one else Number.powerOfInfinity negative y) :=
  .ite (fun _ => .pure _) fun _ => sound_powerOfInfinity negative y

def extendedPow : Number → Number → Traced (Except Fault Number)
  | .finite x, .finite y => pow x y
  | .posInf, .finite y => do return .ok (← infinityPow false y)
  | .negInf, .finite y => do return .ok (← infinityPow true y)
  | .nan, .finite y => return .ok (if y = 0 then .one else .nan)
  | .nan, _ | _, .nan => return .ok .nan
  | .finite x, .posInf => return .ok (Number.infinitePower x true)
  | .finite x, .negInf => return .ok (Number.infinitePower x false)
  | _, .posInf => return .ok .posInf
  | _, .negInf => return .ok .zero

theorem sound_extendedPow (a b : Number) : Sound (extendedPow a b) (a.pow b) := by
  cases a <;> cases b
  case finite.finite x y => exact sound_pow x y
  case posInf.finite y => exact (sound_infinityPow false y).bind (.pure _)
  case negInf.finite y => exact (sound_infinityPow true y).bind (.pure _)
  all_goals exact .pure _

end Reckoner.Traced
