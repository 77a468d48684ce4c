import Reckoner.Decimal.Scale

set_option autoImplicit false

namespace Reckoner

inductive Unary where
  | sin | cos | tan | asin | acos | atan | sinh | cosh | tanh
  | log10 | log2 | ln | sqrt | abs | ceil | floor | trunc | sign | exp
  deriving DecidableEq, Repr

inductive Function where
  | unary (u : Unary)
  | log | round | pow | min | max
  deriving DecidableEq, Repr

inductive Constant where
  | pi | e | ln2 | ln10 | log2e | log10e | sqrtHalf | sqrt2
  deriving DecidableEq, Repr

def Unary.name : Unary → String
  | .sin => "sin" | .cos => "cos" | .tan => "tan"
  | .asin => "asin" | .acos => "acos" | .atan => "atan"
  | .sinh => "sinh" | .cosh => "cosh" | .tanh => "tanh"
  | .log10 => "log10" | .log2 => "log2" | .ln => "ln"
  | .sqrt => "sqrt" | .abs => "abs" | .ceil => "ceil" | .floor => "floor"
  | .trunc => "trunc" | .sign => "sign" | .exp => "exp"

def Function.name : Function → String
  | .unary u => u.name
  | .log => "log" | .round => "round" | .pow => "pow" | .min => "min" | .max => "max"

def Constant.name : Constant → String
  | .pi => "PI" | .e => "E" | .ln2 => "LN2" | .ln10 => "LN10"
  | .log2e => "LOG2E" | .log10e => "LOG10E" | .sqrtHalf => "SQRT1_2" | .sqrt2 => "SQRT2"

def Unary.all : List Unary :=
  [.sin, .cos, .tan, .asin, .acos, .atan, .sinh, .cosh, .tanh,
    .log10, .log2, .ln, .sqrt, .abs, .ceil, .floor, .trunc, .sign, .exp]

def Function.all : List Function :=
  Unary.all.map .unary ++ [.log, .round, .pow, .min, .max]

def Constant.all : List Constant := [.pi, .e, .ln2, .ln10, .log2e, .log10e, .sqrtHalf, .sqrt2]

/-- How many arguments a function takes: at least, and at most where there is a bound. -/
structure Arity where
  least : Nat
  most : Option Nat
  deriving DecidableEq, Repr

def Function.arity : Function → Arity
  | .unary _ => ⟨1, some 1⟩
  | .log | .round => ⟨1, some 2⟩
  | .pow => ⟨2, some 2⟩
  | .min | .max => ⟨1, none⟩

def lowercase (word : String) : String := String.ofList (word.toList.map Char.toLower)

def uppercase (word : String) : String := String.ofList (word.toList.map Char.toUpper)

def Function.named? (word : String) : Option Function := Function.all.find? (·.name = word)

def Constant.named? (word : String) : Option Constant := Constant.all.find? (·.name = word)

def Function.find? (word : String) : Option Function := Function.named? (lowercase word)

def Constant.find? (word : String) : Option Constant := Constant.named? (uppercase word)

namespace Catalogue

def contains (word : String) : Bool :=
  (Function.named? word).isSome || (Constant.named? word).isSome

/-- The written form of the name that the word means. -/
def canonical? (word : String) : Option String :=
  match Function.find? word with
  | some f => some f.name
  | none => (Constant.find? word).map Constant.name

def canonicalWord (word : String) : String := (canonical? word).getD word

end Catalogue

end Reckoner
