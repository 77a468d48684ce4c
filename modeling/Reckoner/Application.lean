import Reckoner.Decimal.Trigonometry
import Reckoner.Decimal.Scale
import Reckoner.Decimal.Power

set_option autoImplicit false

namespace Reckoner

def Decimal.lnValue (x : Int) : Number := .finite (Decimal.lower (Decimal.fineLn (Decimal.raise x)))

def Decimal.sqrtValue (x : Int) : Number := .finite (Decimal.isqrt (x * Decimal.one).toNat)

def Constant.value : Constant → Number
  | .pi => .finite Decimal.pi
  | .e => Decimal.exp Decimal.one
  | .ln2 => Decimal.lnValue (Decimal.ofInt 2)
  | .ln10 => Decimal.lnValue (Decimal.ofInt 10)
  | .log2e => Number.one.div (Decimal.lnValue (Decimal.ofInt 2))
  | .log10e => Number.one.div (Decimal.lnValue (Decimal.ofInt 10))
  | .sqrtHalf => Decimal.sqrtValue (Decimal.one.tdiv 2)
  | .sqrt2 => Decimal.sqrtValue (Decimal.ofInt 2)

def Fault.ofOption : Option Int → Except Fault Number
  | some x => .ok (.finite x)
  | none => .error .notReal

namespace Unary

def onFinite (x : Int) : Unary → Except Fault Number
  | .sin => .ok (.finite (Decimal.sin x))
  | .cos => .ok (.finite (Decimal.cos x))
  | .tan => .ok (Decimal.tan x)
  | .asin => Fault.ofOption (Decimal.asin? x)
  | .acos => Fault.ofOption (Decimal.acos? x)
  | .atan => .ok (.finite (Decimal.atan x))
  | .sinh => .ok (Decimal.sinh x)
  | .cosh => .ok (Decimal.cosh x)
  | .tanh => .ok (.finite (Decimal.tanh x))
  | .log10 => Decimal.logBase x (Decimal.ofInt 10)
  | .log2 => Decimal.logBase x (Decimal.ofInt 2)
  | .ln => Decimal.ln x
  | .sqrt => Fault.ofOption (Decimal.sqrt? x)
  | .abs => .ok (.finite x.natAbs)
  | .ceil => .ok (.finite (Decimal.ceil x))
  | .floor => .ok (.finite (Decimal.floor x))
  | .trunc => .ok (.finite (Decimal.trunc x))
  | .sign => .ok (.finite (Decimal.signum x))
  | .exp => .ok (Decimal.exp x)

def onInfinity (negative : Bool) : Unary → Except Fault Number
  | .sin | .cos | .tan => .ok .nan
  | .asin | .acos => .error .notReal
  | .atan =>
    let halfPi := Decimal.pi.tdiv 2
    .ok (.finite (if negative then -halfPi else halfPi))
  | .cosh | .abs => .ok .posInf
  | .tanh | .sign => .ok (.finite (if negative then -Decimal.one else Decimal.one))
  | .log10 | .log2 | .ln | .sqrt => if negative then .error .notReal else .ok .posInf
  | .exp => .ok (if negative then .zero else .posInf)
  | .sinh | .ceil | .floor | .trunc => .ok (Number.infinity negative)

def apply (u : Unary) : Number → Except Fault Number
  | .finite x => u.onFinite x
  | .posInf => u.onInfinity false
  | .negInf => u.onInfinity true
  | .nan => .ok .nan

end Unary

namespace Number

/-- The logarithm to a base; an infinite argument enters as its own logarithm. -/
def logBase : Number → Number → Except Fault Number
  | .finite x, .finite b => Decimal.logBase x b
  | x, b => do return (← Unary.ln.apply x).div (← Unary.ln.apply b)

def roundPlaces? : Number → Option Nat
  | .finite n =>
    if Decimal.isWhole n then
      (Decimal.wholeWord? n).bind fun k => if 0 ≤ k ∧ k ≤ roundLimit then some k.toNat else none
    else none
  | _ => none

def roundTo (places : Nat) : Number → Number
  | .finite x => .finite (Decimal.roundTo x places)
  | a => a

/-- The first argument that none after it beats in the given sense; NaN where one does not
compare. -/
def extremum (wanted : Ordering) : Number → List Number → Number
  | best, [] => best
  | best, a :: rest =>
    match a.compare best with
    | none => .nan
    | some o => extremum wanted (if o = wanted then a else best) rest

end Number

namespace Function

def arityError (f : Function) (actual : Nat) : Malformation :=
  if actual < f.arity.least then .tooFewArguments f f.arity.least actual
  else .tooManyArguments f (f.arity.most.getD actual) actual

def apply (f : Function) (args : List Number) : Except EvalError Number :=
  match f, args with
  | .unary u, [x] => (u.apply x).mapError Fault.toError
  | .log, [x] => (Unary.ln.apply x).mapError Fault.toError
  | .log, [x, b] => (x.logBase b).mapError Fault.toError
  | .round, [x] => .ok (x.roundTo 0)
  | .round, [x, n] =>
    match n.roundPlaces? with
    | some k => .ok (x.roundTo k)
    | none => .error (Fault.toError .roundPlaces)
  | .pow, [x, y] => (x.pow y).mapError Fault.toError
  | .min, x :: rest => .ok (Number.extremum .lt x rest)
  | .max, x :: rest => .ok (Number.extremum .gt x rest)
  | f, args => .error (.malformed (f.arityError args.length))

end Function

namespace Catalogue

def constant (name : String) : Except Fault Number :=
  match Constant.named? name with
  | some c => .ok c.value
  | none => .error (.undefinedSymbol name)

def apply (name : String) (args : List Number) : Except EvalError Number :=
  match Function.named? name with
  | some f => f.apply args
  | none => .error (.malformed (.undefinedFunction name))

end Catalogue

end Reckoner
