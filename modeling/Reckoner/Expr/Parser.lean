import Reckoner.Expr.Basic
import Reckoner.Token.Basic

set_option autoImplicit false

namespace Reckoner

def Operator.precedence : Operator → Nat
  | .plus | .minus => 1
  | .times | .divide => 2
  | .power => 4

def signPrecedence : Nat := 3

/-- Whether an operator of precedence `inner` takes its right operand before `op` comes in:
`+ - * /` group to the left and `^` to the right. -/
def bindsBefore (inner : Nat) (op : Operator) : Bool :=
  op.precedence < inner || (inner = op.precedence && op ≠ .power)

def malformed {α : Type} (cause : Malformation) : Except EvalError α := .error (.malformed cause)

namespace Token

def isNumber (t : Token) : Bool :=
  match t.kind with
  | .number _ => true
  | _ => false

def function? (t : Token) : Option Function :=
  match t.kind with
  | .word name => Function.named? name
  | _ => none

end Token

def opensParenthesis (ts : List Token) : Bool := ts.head?.any (·.kind = .openParen)

/-- What waits on the operator stack; a call waits there with the commas counted so far. -/
inductive Pending where
  | binary (op : Operator)
  | negate
  | group
  | call (f : Function) (commas : Nat)
  deriving DecidableEq, Repr

namespace Pending

def precedence : Pending → Nat
  | .binary op => op.precedence
  | .negate => signPrecedence
  | .group | .call _ _ => 0

def instr? : Pending → Option Instr
  | .binary op => some (.binary op)
  | .negate => some .negate
  | .group | .call _ _ => none

end Pending

/-- The output and the operator stack, the number of open brackets, and whether a value must
follow. -/
structure Yard where
  out : Array Instr := #[]
  ops : List Pending := []
  depth : Nat := 0
  valueExpected : Bool := true
  deriving DecidableEq, Repr

namespace Yard

/-- Moves to the output the operators that bind before `op`. -/
def popFor (op : Operator) (out : Array Instr) : List Pending → Array Instr × List Pending
  | [] => (out, [])
  | top :: rest =>
    match top.instr? with
    | none => (out, top :: rest)
    | some i =>
      if bindsBefore top.precedence op then popFor op (out.push i) rest else (out, top :: rest)

/-- Moves every operator in front of the innermost bracket to the output. -/
def popAll (out : Array Instr) : List Pending → Array Instr × List Pending
  | [] => (out, [])
  | top :: rest =>
    match top.instr? with
    | none => (out, top :: rest)
    | some i => popAll (out.push i) rest

def pushBinary (op : Operator) (y : Yard) : Yard :=
  let (out, ops) := popFor op y.out y.ops
  { y with out, ops := .binary op :: ops }

/-- An operand behind a complete one is a factor. -/
def beforeOperand (y : Yard) : Yard :=
  if y.valueExpected then y else { y.pushBinary .times with valueExpected := true }

def operand (i : Instr) (y : Yard) : Yard :=
  let y := y.beforeOperand
  { y with out := y.out.push i, valueExpected := false }

def openBracket (bracket : Pending) (position : Nat) (y : Yard) : Except EvalError Yard :=
  if depthLimit < y.depth + 1 then malformed (.tooDeep position)
  else .ok { y with ops := bracket :: y.ops, depth := y.depth + 1 }

/-- The yard behind a call that was opened last and has no argument. -/
def closeEmpty (f : Function) (y : Yard) : Yard :=
  { y with
    out := y.out.push (.call f 0), ops := y.ops.tail, depth := y.depth - 1, valueExpected := false }

def readOperator (op : Operator) (t : Token) (y : Yard) : Except EvalError Yard :=
  if y.valueExpected then malformed (.valueExpected t.position)
  else .ok { y.pushBinary op with valueExpected := true }

def readComma (t : Token) (y : Yard) : Except EvalError Yard :=
  if y.valueExpected then malformed (.valueExpected t.position)
  else
    match popAll y.out y.ops with
    | (out, .call f commas :: rest) =>
      .ok { y with out, ops := .call f (commas + 1) :: rest, valueExpected := true }
    | _ => malformed (.unexpectedOperator t.text t.position)

def readClose (t : Token) (y : Yard) : Except EvalError Yard :=
  if y.valueExpected then malformed (.valueExpected t.position)
  else
    match popAll y.out y.ops with
    | (out, .group :: rest) => .ok { y with out, ops := rest, depth := y.depth - 1 }
    | (out, .call f commas :: rest) =>
      .ok { y with out := out.push (.call f (commas + 1)), ops := rest, depth := y.depth - 1 }
    | _ => malformed (.unexpectedOperator t.text t.position)

def readName (name : String) (t : Token) (rest : List Token) (y : Yard) : Except EvalError Yard :=
  match Constant.named? name with
  | some c =>
    if opensParenthesis rest then malformed (.notCallable c t.position)
    else .ok (y.operand (.constant c))
  | none => .error (.unknownIdentifier name)

/-- Reads a token that names no function, behind the token `previous` and in front of `rest`. -/
def read (previous : Option Token) (t : Token) (rest : List Token) (y : Yard) :
    Except EvalError Yard :=
  match t.kind with
  | .number x =>
    if !y.valueExpected && previous.any Token.isNumber then
      malformed (.unexpectedPart t.text t.position)
    else .ok (y.operand (.number x))
  | .word name => y.readName name t rest
  | .plus => if y.valueExpected then .ok y else y.readOperator .plus t
  | .minus =>
    if y.valueExpected then .ok { y with ops := .negate :: y.ops } else y.readOperator .minus t
  | .star => y.readOperator .times t
  | .slash => y.readOperator .divide t
  | .caret => y.readOperator .power t
  | .comma => y.readComma t
  | .openParen => y.beforeOperand.openBracket .group t.position
  | .closeParen => y.readClose t

/-- Reads tokens from left to right. A call takes its parenthesis with it, and the closing one where
it has no argument. -/
def readAll (previous : Option Token) (y : Yard) : List Token → Except EvalError Yard
  | [] => .ok y
  | t :: rest =>
    match t.function? with
    | none => do readAll (some t) (← y.read previous t rest) rest
    | some f =>
      match rest with
      | [] => malformed (.callExpected f t.position)
      | paren :: inside =>
        if paren.kind = .openParen then do
          let opened ← y.beforeOperand.openBracket (.call f 0) t.position
          match inside with
          | [] => .ok opened
          | close :: behind =>
            if close.kind = .closeParen then readAll (some close) (opened.closeEmpty f) behind
            else readAll (some paren) opened (close :: behind)
        else malformed (.callExpected f t.position)

/-- The program when the input ends here, after `length` characters. -/
def finish (length : Nat) (y : Yard) : Except EvalError Program :=
  if y.valueExpected then malformed (.endOfInput length)
  else
    match popAll y.out y.ops with
    | (out, []) => .ok out.toList
    | _ => malformed (.closingExpected length)

end Yard

namespace Program

/-- The program of a token list whose source has `length` characters. -/
def ofTokens (ts : List Token) (length : Nat) : Except EvalError Program := do
  let yard ← Yard.readAll none {} ts
  yard.finish length

end Program

/-- The tree that the tokens stand for, read beside the program. A frame awaits the operand being
read and holds the operands that are already complete. -/
inductive Frame where
  | left (e : Expr) (op : Operator)
  | negate
  | group
  /-- A call with its complete arguments, the last one first. -/
  | call (f : Function) (done : List Expr)
  deriving Repr

/-- What an operand ended with, as far as the next token may ask. -/
inductive Ending where
  | literal
  | constant (c : Constant) (position : Nat)
  | other
  deriving DecidableEq, Repr

inductive Cursor where
  | operand (frames : List Frame)
  | named (f : Function) (position : Nat) (frames : List Frame)
  | opened (f : Function) (frames : List Frame)
  | complete (e : Expr) (ending : Ending) (frames : List Frame)
  deriving Repr

namespace Frame

def isBracket : Frame → Bool
  | .group | .call _ _ => true
  | .left _ _ | .negate => false

def depth (frames : List Frame) : Nat := frames.countP isBracket

/-- Completes the pending operators that bind before `op`. -/
def foldFor (op : Operator) (e : Expr) : List Frame → Expr × List Frame
  | .left l o :: rest =>
    if bindsBefore o.precedence op then foldFor op (.binary o l e) rest
    else (e, .left l o :: rest)
  | .negate :: rest =>
    if bindsBefore signPrecedence op then foldFor op (.negate e) rest else (e, .negate :: rest)
  | frames => (e, frames)

def foldAll (e : Expr) : List Frame → Expr × List Frame
  | .left l o :: rest => foldAll (.binary o l e) rest
  | .negate :: rest => foldAll (.negate e) rest
  | frames => (e, frames)

/-- The frames once `e op` has been read. -/
def push (op : Operator) (e : Expr) (frames : List Frame) : List Frame :=
  let (l, rest) := foldFor op e frames
  .left l op :: rest

end Frame

namespace Cursor

/-- The frames around a new operand: after a complete one it is a factor. -/
def framesForOperand : Cursor → List Frame
  | .operand frames => frames
  | .named f _ frames | .opened f frames => .call f [] :: frames
  | .complete e _ frames => Frame.push .times e frames

def operandExpected : Cursor → Bool
  | .complete _ _ _ => false
  | _ => true

def openBracket (position : Nat) (frames : List Frame) (next : Cursor) : Except EvalError Cursor :=
  if depthLimit ≤ Frame.depth frames then malformed (.tooDeep position) else .ok next

def readWord (name : String) (position : Nat) (frames : List Frame) : Except EvalError Cursor :=
  match Function.named? name with
  | some f => .ok (.named f position frames)
  | none =>
    match Constant.named? name with
    | some c => .ok (.complete (.constant c) (.constant c position) frames)
    | none => .error (.unknownIdentifier name)

def readOperator (op : Operator) (t : Token) : Cursor → Except EvalError Cursor
  | .complete e _ frames => .ok (.operand (Frame.push op e frames))
  | _ => malformed (.valueExpected t.position)

def readComma (t : Token) : Cursor → Except EvalError Cursor
  | .complete e _ frames =>
    match Frame.foldAll e frames with
    | (a, .call f done :: rest) => .ok (.operand (.call f (a :: done) :: rest))
    | _ => malformed (.unexpectedOperator t.text t.position)
  | _ => malformed (.valueExpected t.position)

def readClose (t : Token) : Cursor → Except EvalError Cursor
  | .opened f frames => .ok (.complete (.call f []) .other frames)
  | .complete e _ frames =>
    match Frame.foldAll e frames with
    | (a, .group :: rest) => .ok (.complete a .other rest)
    | (a, .call f done :: rest) => .ok (.complete (.call f (a :: done).reverse) .other rest)
    | _ => malformed (.unexpectedOperator t.text t.position)
  | _ => malformed (.valueExpected t.position)

def readOpen (t : Token) : Cursor → Except EvalError Cursor
  | .complete _ (.constant c position) _ => malformed (.notCallable c position)
  | .named f position frames => openBracket position frames (.opened f frames)
  | cursor =>
    let frames := cursor.framesForOperand
    openBracket t.position frames (.operand (.group :: frames))

def read (cursor : Cursor) (t : Token) : Except EvalError Cursor :=
  match t.kind with
  | .number x =>
    match cursor with
    | .complete _ .literal _ => malformed (.unexpectedPart t.text t.position)
    | _ => .ok (.complete (.number x) .literal cursor.framesForOperand)
  | .word name => readWord name t.position cursor.framesForOperand
  | .plus =>
    if cursor.operandExpected then .ok (.operand cursor.framesForOperand)
    else readOperator .plus t cursor
  | .minus =>
    if cursor.operandExpected then .ok (.operand (.negate :: cursor.framesForOperand))
    else readOperator .minus t cursor
  | .star => readOperator .times t cursor
  | .slash => readOperator .divide t cursor
  | .caret => readOperator .power t cursor
  | .comma => readComma t cursor
  | .openParen => readOpen t cursor
  | .closeParen => readClose t cursor

def step (cursor : Cursor) (t : Token) : Except EvalError Cursor :=
  match cursor with
  | .named f position _ =>
    if t.kind = .openParen then readOpen t cursor else malformed (.callExpected f position)
  | _ => cursor.read t

def finish (length : Nat) : Cursor → Except EvalError Expr
  | .named f position _ => malformed (.callExpected f position)
  | .complete e _ frames =>
    match Frame.foldAll e frames with
    | (tree, []) => .ok tree
    | _ => malformed (.closingExpected length)
  | _ => malformed (.endOfInput length)

end Cursor

namespace Expr

/-- The tree of a token list whose source has `length` characters. -/
def ofTokens (ts : List Token) (length : Nat) : Except EvalError Expr := do
  let cursor ← ts.foldlM Cursor.step (.operand [])
  cursor.finish length

end Expr

end Reckoner
