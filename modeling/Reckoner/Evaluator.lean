import Reckoner.Expr.Parser
import Reckoner.Token.Basic

set_option autoImplicit false

namespace Reckoner

def defaultPrecision : Nat := 5

/-- More decimals than this change nothing. -/
def precisionLimit : Nat := Decimal.places

def defaultMaxLength : Nat := 4096

/-- The number nearest to the value rounded to `places` decimals. -/
def Number.toBinary64 (places : Nat) : Number → Binary64
  | .finite x => Binary64.ofDecimal (Decimal.rescale x Decimal.places places) places
  | .posInf => .infinite false
  | .negInf => .infinite true
  | .nan => .nan

/-- The error that a final result which is not finite stands for. -/
def Binary64.nonFiniteError? : Binary64 → Option EvalError
  | .finite _ _ _ => none
  | .infinite _ => some .divisionByZero
  | .nan => some .nan

structure Evaluator where
  maxLength : Nat := defaultMaxLength
  deriving DecidableEq, Repr

structure Walkthrough where
  normalForm : String
  tokens : String
  program : String
  deriving DecidableEq, Repr

namespace Evaluator

def normalize (ev : Evaluator) (expression : String) : Except EvalError String := do
  let text := Text.trim expression
  if text.isEmpty then .error .empty
  else if ev.maxLength < text.length then .error (.malformed (.tooLong text.length ev.maxLength))
  else
    let normal := Text.normalize text
    Text.checkWords normal
    return normal

def compile (normal : String) : Except EvalError (List Token × Program) := do
  let tokens ← Token.ofText normal
  let program ← Program.ofTokens tokens normal.length
  return (tokens, program)

/-- The final value as a finite number, or what it fails with. -/
def classify (precision : Nat) (v : Number) : Except EvalError Binary64 :=
  let x := v.toBinary64 (min precision precisionLimit)
  match x.nonFiniteError? with
  | some e => .error e
  | none => .ok x

/-- The result of an expression, rounded to `precision` decimals. -/
def evaluate (ev : Evaluator) (expression : String) (precision : Nat) :
    Except EvalError Binary64 := do
  let normal ← ev.normalize expression
  let (_, program) ← compile normal
  classify precision (← program.run)

def walkthrough (ev : Evaluator) (expression : String) : Except EvalError Walkthrough := do
  let normal ← ev.normalize expression
  let (tokens, program) ← compile normal
  return { normalForm := normal, tokens := Token.showAll tokens, program := program.text }

end Evaluator

def Walkthrough.text (w : Walkthrough) : String :=
  s!"Normalisée : {w.normalForm}\nJetons     : {w.tokens}\nRPN        : {w.program}"

end Reckoner
