import Reckoner.Application
import Reckoner.Binary64.Shortest

set_option autoImplicit false

namespace Reckoner

inductive Operator where
  | plus | minus | times | divide | power
  deriving DecidableEq, Repr

inductive Expr where
  | number (units : Int)
  | constant (c : Constant)
  | negate (e : Expr)
  | binary (op : Operator) (left right : Expr)
  | call (f : Function) (args : List Expr)
  deriving Repr

namespace Operator

def symbol : Operator → String
  | .plus => "+" | .minus => "-" | .times => "*" | .divide => "/" | .power => "^"

def apply (op : Operator) (a b : Number) : Except EvalError Number :=
  match op with
  | .plus => .ok (a.add b)
  | .minus => .ok (a.sub b)
  | .times => .ok (a.mul b)
  | .divide => .ok (a.div b)
  | .power => (a.pow b).mapError Fault.toError

end Operator

namespace Expr

mutual

def eval : Expr → Except EvalError Number
  | .number x => .ok (.finite x)
  | .constant c => .ok c.value
  | .negate e => do return (← e.eval).neg
  | .binary op l r => do op.apply (← l.eval) (← r.eval)
  | .call f args => do f.apply (← evalAll args)

def evalAll : List Expr → Except EvalError (List Number)
  | [] => .ok []
  | e :: es => do
    let v ← e.eval
    let vs ← evalAll es
    return v :: vs

end

end Expr

inductive Instr where
  | number (units : Int)
  | constant (c : Constant)
  | negate
  | binary (op : Operator)
  | call (f : Function) (count : Nat)
  deriving DecidableEq, Repr

abbrev Program := List Instr

namespace Expr

mutual

/-- The program of the tree followed by `rest`. -/
def emit (rest : Program) : Expr → Program
  | .number x => .number x :: rest
  | .constant c => .constant c :: rest
  | .negate e => e.emit (.negate :: rest)
  | .binary op l r => l.emit (r.emit (.binary op :: rest))
  | .call f args => emitAll (.call f args.length :: rest) args

def emitAll (rest : Program) : List Expr → Program
  | [] => rest
  | e :: es => e.emit (emitAll rest es)

end

def program (e : Expr) : Program := e.emit []

end Expr

namespace Program

/-- Runs one instruction on a stack whose top is in front. -/
def step (stack : List Number) (i : Instr) : Except EvalError (List Number) :=
  match i, stack with
  | .number x, s => .ok (.finite x :: s)
  | .constant c, s => .ok (c.value :: s)
  | .negate, a :: s => .ok (a.neg :: s)
  | .binary op, b :: a :: s => (op.apply a b).map (· :: s)
  | .call f n, s =>
    if s.length < n then .error (.malformed .unbalancedProgram)
    else (f.apply (s.take n).reverse).map (· :: s.drop n)
  | _, _ => .error (.malformed .unbalancedProgram)

def runFrom (stack : List Number) : Program → Except EvalError (List Number)
  | [] => .ok stack
  | i :: rest => do runFrom (← step stack i) rest

def run (p : Program) : Except EvalError Number := do
  match ← runFrom [] p with
  | [v] => return v
  | _ => .error (.malformed .unbalancedProgram)

end Program

namespace Instr

/-- An instruction as text; a number is shown in its shortest binary64 digits. -/
def text : Instr → String
  | .number x => (Binary64.ofDecimal x Decimal.places).text
  | .constant c => c.name
  | .negate => "neg"
  | .binary op => op.symbol
  | .call f n => s!"{f.name}#{n}"

end Instr

def Program.text (p : Program) : String := " ".intercalate (p.map Instr.text)

end Reckoner
