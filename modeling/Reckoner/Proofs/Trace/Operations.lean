import Reckoner.Expr.Basic
import Reckoner.Proofs.Trace.Power

set_option autoImplicit false

namespace Reckoner.Traced

open Decimal

def rescale (x : ℤ) (source target : ℕ) : Traced ℤ := do
  if source ≤ target then return x * tenPow (target - source)
  else
    let d := tenPow (source - target)
    let q ← divide x d
    let r ← remainder x d
    return if d ≤ 2 * r.natAbs then q + x.sign else q

theorem sound_rescale (x : ℤ) (source target : ℕ) :
    Sound (rescale x source target) (Decimal.rescale x source target) := by
  have hpos := (tenPow_pos (source - target)).ne'
  exact .ite (fun _ => .pure _) fun _ =>
    (sound_divide x hpos).bind ((sound_remainder x hpos).bind (.pure _))

def roundTo (x : ℤ) (n : ℕ) : Traced ℤ := do
  let kept := Nat.min n places
  return (← rescale x places kept) * tenPow (places - kept)

theorem sound_roundTo (x : ℤ) (n : ℕ) : Sound (roundTo x n) (Decimal.roundTo x n) :=
  (sound_rescale x _ _).bind (.pure _)

def trunc (x : ℤ) : Traced ℤ := do return (← divide x one) * one

theorem sound_trunc (x : ℤ) : Sound (trunc x) (Decimal.trunc x) :=
  (sound_divide x Decimal.one_pos.ne').bind (.pure _)

def floor (x : ℤ) : Traced ℤ := do
  let t ← trunc x
  return if x < 0 ∧ t ≠ x then t - one else t

theorem sound_floor (x : ℤ) : Sound (floor x) (Decimal.floor x) := (sound_trunc x).bind (.pure _)

def ceil (x : ℤ) : Traced ℤ := do
  let t ← trunc x
  return if 0 < x ∧ t ≠ x then t + one else t

theorem sound_ceil (x : ℤ) : Sound (ceil x) (Decimal.ceil x) := (sound_trunc x).bind (.pure _)

def roundPlaces? : Number → Traced (Option ℕ)
  | .finite n => do
    if ← isWhole n then
      return (← wholeWord? n).bind fun k => if 0 ≤ k ∧ k ≤ roundLimit then some k.toNat else none
    else return none
  | _ => return none

theorem sound_roundPlaces? (n : Number) : Sound (roundPlaces? n) n.roundPlaces? := by
  cases n
  case finite n =>
    exact (sound_isWhole n).bind (.ite (fun _ => (sound_wholeWord? n).bind (.pure _))
      fun _ => .pure _)
  all_goals exact .pure _

def roundNumber (places : ℕ) : Number → Traced Number
  | .finite x => do return .finite (← roundTo x places)
  | a => return a

theorem sound_roundNumber (places : ℕ) (a : Number) :
    Sound (roundNumber places a) (a.roundTo places) := by
  cases a
  case finite x => exact (sound_roundTo x places).bind (.pure _)
  all_goals exact .pure _

def onFinite (x : ℤ) : Unary → Traced (Except Fault Number)
  | .sin => do return .ok (.finite (← sin x))
  | .cos => do return .ok (.finite (← cos x))
  | .tan => do return .ok (← tan x)
  | .asin => do return Fault.ofOption (← asin? x)
  | .acos => do return Fault.ofOption (← acos? x)
  | .atan => do return .ok (.finite (← atan x))
  | .sinh => do return .ok (← sinh x)
  | .cosh => do return .ok (← cosh x)
  | .tanh => do return .ok (.finite (← tanh x))
  | .log10 => logBase x (ofInt 10)
  | .log2 => logBase x (ofInt 2)
  | .ln => ln x
  | .sqrt => do return Fault.ofOption (← sqrt? x)
  | .abs => return .ok (.finite x.natAbs)
  | .ceil => do return .ok (.finite (← ceil x))
  | .floor => do return .ok (.finite (← floor x))
  | .trunc => do return .ok (.finite (← trunc x))
  | .sign => return .ok (.finite (signum x))
  | .exp => do return .ok (← exp x)

theorem sound_onFinite (x : ℤ) (u : Unary) : Sound (onFinite x u) (u.onFinite x) := by
  cases u with
  | sin => exact (sound_sin x).bind (.pure _)
  | cos => exact (sound_cos x).bind (.pure _)
  | tan => exact (sound_tan x).bind (.pure _)
  | asin => exact (sound_asin? x).bind (.pure _)
  | acos => exact (sound_acos? x).bind (.pure _)
  | atan => exact (sound_atan x).bind (.pure _)
  | sinh => exact (sound_sinh x).bind (.pure _)
  | cosh => exact (sound_cosh x).bind (.pure _)
  | tanh => exact (sound_tanh x).bind (.pure _)
  | log10 => exact sound_logBase x _
  | log2 => exact sound_logBase x _
  | ln => exact sound_ln x
  | sqrt => exact (sound_sqrt? x).bind (.pure _)
  | abs => exact .pure _
  | ceil => exact (sound_ceil x).bind (.pure _)
  | floor => exact (sound_floor x).bind (.pure _)
  | trunc => exact (sound_trunc x).bind (.pure _)
  | sign => exact .pure _
  | exp => exact (sound_exp x).bind (.pure _)

def onInfinity (negative : Bool) : Unary → Traced (Except Fault Number)
  | .sin | .cos | .tan => return .ok .nan
  | .asin | .acos => return .error .notReal
  | .atan => do
    let halfPi ← divide (← pi) 2
    return .ok (.finite (if negative then -halfPi else halfPi))
  | .cosh | .abs => return .ok .posInf
  | .tanh | .sign => return .ok (.finite (if negative then -one else one))
  | .log10 | .log2 | .ln | .sqrt => return if negative then .error .notReal else .ok .posInf
  | .exp => return .ok (if negative then .zero else .posInf)
  | .sinh | .ceil | .floor | .trunc => return .ok (Number.infinity negative)

theorem sound_onInfinity (negative : Bool) (u : Unary) :
    Sound (onInfinity negative u) (u.onInfinity negative) := by
  cases u
  case atan => exact sound_pi.bind ((sound_divide _ two_ne_zero).bind (.pure _))
  all_goals exact .pure _

def unary (u : Unary) : Number → Traced (Except Fault Number)
  | .finite x => onFinite x u
  | .posInf => onInfinity false u
  | .negInf => onInfinity true u
  | .nan => return .ok .nan

theorem sound_unary (u : Unary) (a : Number) : Sound (unary u a) (u.apply a) := by
  cases a with
  | finite x => exact sound_onFinite x u
  | posInf => exact sound_onInfinity false u
  | negInf => exact sound_onInfinity true u
  | nan => exact .pure _

def extendedLogBase : Number → Number → Traced (Except Fault Number)
  | .finite x, .finite b => logBase x b
  | x, b => (unary .ln x).andThen fun lx => (unary .ln b).andThen fun lb => do
    return .ok (← div lx lb)

theorem sound_extendedLogBase (x b : Number) : Sound (extendedLogBase x b) (x.logBase b) := by
  have hgeneral : Sound ((unary .ln x).andThen fun lx => (unary .ln b).andThen fun lb => do
      return .ok (← div lx lb)) (do return (← Unary.ln.apply x).div (← Unary.ln.apply b)) :=
    (sound_unary .ln x).andThen fun lx _ => (sound_unary .ln b).andThen fun lb _ =>
      (sound_div lx lb).bind (.pure _)
  cases x <;> cases b
  case finite.finite x b => exact sound_logBase x b
  all_goals exact hgeneral

def mapFault (t : Traced (Except Fault Number)) : Traced (Except EvalError Number) := do
  return (← t).mapError Fault.toError

theorem Sound.mapFault {t : Traced (Except Fault Number)} {r : Except Fault Number}
    (h : Sound t r) : Sound t.mapFault (r.mapError Fault.toError) := h.bind (.pure _)

def roundAsked (x n : Number) : Traced (Except EvalError Number) := do
  match ← roundPlaces? n with
  | some k => return .ok (← roundNumber k x)
  | none => return .error (Fault.toError .roundPlaces)

theorem sound_roundAsked (x n : Number) : Sound (roundAsked x n) (Function.round.apply [x, n]) := by
  have happly : Function.round.apply [x, n] = match n.roundPlaces? with
    | some k => .ok (x.roundTo k)
    | none => .error (Fault.toError .roundPlaces) := rfl
  rw [happly]
  refine (sound_roundPlaces? n).bind ?_
  cases n.roundPlaces? with
  | some k => exact (sound_roundNumber k x).bind (.pure _)
  | none => exact .pure _

def function (f : Function) (args : List Number) : Traced (Except EvalError Number) :=
  match f, args with
  | .unary u, [x] => (unary u x).mapFault
  | .log, [x] => (unary .ln x).mapFault
  | .log, [x, b] => (extendedLogBase x b).mapFault
  | .round, [x] => do return .ok (← roundNumber 0 x)
  | .round, [x, n] => roundAsked x n
  | .pow, [x, y] => (extendedPow x y).mapFault
  | .min, x :: rest => return .ok (Number.extremum .lt x rest)
  | .max, x :: rest => return .ok (Number.extremum .gt x rest)
  | f, args => return .error (.malformed (f.arityError args.length))

theorem sound_function (f : Function) (args : List Number) :
    Sound (function f args) (f.apply args) := by
  cases f with
  | unary u =>
    rcases args with _ | ⟨x, _ | ⟨y, rest⟩⟩
    case cons.nil => exact (sound_unary u x).mapFault
    all_goals exact .pure _
  | log =>
    rcases args with _ | ⟨x, _ | ⟨b, _ | ⟨c, rest⟩⟩⟩
    case cons.nil => exact (sound_unary .ln x).mapFault
    case cons.cons.nil => exact (sound_extendedLogBase x b).mapFault
    all_goals exact .pure _
  | round =>
    rcases args with _ | ⟨x, _ | ⟨n, _ | ⟨c, rest⟩⟩⟩
    case cons.nil => exact (sound_roundNumber 0 x).bind (.pure _)
    case cons.cons.nil => exact sound_roundAsked x n
    all_goals exact .pure _
  | pow =>
    rcases args with _ | ⟨x, _ | ⟨y, _ | ⟨c, rest⟩⟩⟩
    case cons.cons.nil => exact (sound_extendedPow x y).mapFault
    all_goals exact .pure _
  | min => cases args <;> exact .pure _
  | max => cases args <;> exact .pure _

def operator (op : Operator) (a b : Number) : Traced (Except EvalError Number) :=
  match op with
  | .plus => return .ok (a.add b)
  | .minus => return .ok (a.sub b)
  | .times => do return .ok (← mul a b)
  | .divide => do return .ok (← div a b)
  | .power => (extendedPow a b).mapFault

theorem sound_operator (op : Operator) (a b : Number) : Sound (operator op a b) (op.apply a b) := by
  cases op with
  | plus => exact .pure _
  | minus => exact .pure _
  | times => exact (sound_mul a b).bind (.pure _)
  | divide => exact (sound_div a b).bind (.pure _)
  | power => exact (sound_extendedPow a b).mapFault

end Reckoner.Traced
