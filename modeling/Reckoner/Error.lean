import Reckoner.Catalogue

set_option autoImplicit false

namespace Reckoner

/-- An operation without a value: infinities and NaN are values, not faults. -/
inductive Fault where
  | notReal
  | undefinedSymbol (name : String)
  | roundPlaces
  deriving DecidableEq, Repr

/-- What is wrong with the text or with the shape of a call. Positions count characters from 0. -/
inductive Malformation where
  | tooLong (length limit : Nat)
  | unexpectedCharacter (c : Char) (position : Nat)
  | unexpectedPart (text : String) (position : Nat)
  | unexpectedOperator (text : String) (position : Nat)
  | valueExpected (position : Nat)
  | callExpected (f : Function) (position : Nat)
  | notCallable (c : Constant) (position : Nat)
  | tooDeep (position : Nat)
  | endOfInput (position : Nat)
  | closingExpected (position : Nat)
  | undefinedFunction (name : String)
  | tooFewArguments (f : Function) (expected actual : Nat)
  | tooManyArguments (f : Function) (expected actual : Nat)
  | fault (cause : Fault)
  /-- A program that takes from an empty stack or leaves more than one value. -/
  | unbalancedProgram
  deriving DecidableEq, Repr

inductive EvalError where
  | empty
  | unknownIdentifier (word : String)
  | divisionByZero
  | malformed (cause : Malformation)
  | notANumber
  | nan
  deriving DecidableEq, Repr

/-- Parentheses and calls that may be open at once. -/
def depthLimit : Nat := 128

def roundLimit : Nat := Decimal.places

def Fault.message : Fault → String
  | .notReal => "Result is not a number"
  | .undefinedSymbol name => s!"Undefined symbol {name}"
  | .roundPlaces =>
    s!"Number of decimals in function round must be an integer from 0 to {roundLimit} inclusive"

/-- Positions are shown from 1. -/
def atChar (position : Nat) : String := s!"(char {position + 1})"

def Malformation.message : Malformation → String
  | .tooLong length limit => s!"Expression too long ({length} characters, maximum {limit})"
  | .unexpectedCharacter c p => s!"Unexpected character \"{c}\" {atChar p}"
  | .unexpectedPart text p => s!"Unexpected part \"{text}\" {atChar p}"
  | .unexpectedOperator text p => s!"Unexpected operator {text} {atChar p}"
  | .valueExpected p => s!"Value expected {atChar p}"
  | .callExpected f p => s!"Function {f.name} requires arguments {atChar p}"
  | .notCallable c p => s!"{c.name} is not a function {atChar p}"
  | .tooDeep p => s!"Maximum nesting depth of {depthLimit} exceeded {atChar p}"
  | .endOfInput p => s!"Unexpected end of expression {atChar p}"
  | .closingExpected p => s!"Parenthesis ) expected {atChar p}"
  | .undefinedFunction name => s!"Undefined function {name}"
  | .tooFewArguments f expected actual =>
    s!"Too few arguments in function {f.name} (expected: {expected}, actual: {actual})"
  | .tooManyArguments f expected actual =>
    s!"Too many arguments in function {f.name} (expected: {expected}, actual: {actual})"
  | .fault cause => cause.message
  | .unbalancedProgram => "Invalid expression"

def EvalError.message : EvalError → String
  | .empty => "Expression cannot be empty"
  | .unknownIdentifier word => s!"Unknown identifier: {word}"
  | .divisionByZero => "Division by zero"
  | .malformed cause => s!"Syntax error: {cause.message}"
  | .notANumber => "Result is not a number"
  | .nan => "Result is NaN"

/-- A fault ends the evaluation: an unreal result by its own name, the rest as a malformed call. -/
def Fault.toError : Fault → EvalError
  | .notReal => .notANumber
  | f => .malformed (.fault f)

end Reckoner
