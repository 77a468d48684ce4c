import Reckoner.Binary64.Shortest
import Reckoner.Json.Numeral
import Reckoner.Uuid

set_option autoImplicit false

namespace Reckoner.Json

/-- An element of a string: a character, or a 16-bit unit written in hexadecimal. -/
inductive Piece where
  | char (c : Char)
  | unit (code : Nat)
  deriving DecidableEq, Repr

inductive Value where
  | null
  | bool (b : Bool)
  | number (n : Numeral)
  | string (s : List Piece)
  | array (items : List Value)
  | object (fields : List (List Piece × Value))
  deriving Repr

/-- The characters meant by pieces, with halves joined. -/
def decodeChars? : List Piece → Option (List Char)
  | [] => some []
  | .char c :: rest => (decodeChars? rest).map (c :: ·)
  | .unit u :: .unit v :: rest =>
    if 0xDC00 ≤ u ∧ u < 0xE000 then none
    else if 0xD800 ≤ u ∧ u < 0xDC00 then
      if 0xDC00 ≤ v ∧ v < 0xE000 then
        (decodeChars? rest).map (Char.ofNat (0x10000 + (u - 0xD800) * 0x400 + (v - 0xDC00)) :: ·)
      else none
    else (decodeChars? (.unit v :: rest)).map (Char.ofNat u :: ·)
  | .unit u :: rest =>
    if 0xD800 ≤ u ∧ u < 0xE000 then none else (decodeChars? rest).map (Char.ofNat u :: ·)

def decode? (s : List Piece) : Option String := (decodeChars? s).map String.ofList

namespace Reader

def isSpace (c : Char) : Bool := c = ' ' || c = '\n' || c = '\t' || c = '\r'

def skipSpace (cs : List Char) : List Char := cs.dropWhile isSpace

def escape? : Char → Option Char
  | '"' => some '"'
  | '\\' => some '\\'
  | '/' => some '/'
  | 'b' => some '\x08'
  | 'f' => some '\x0c'
  | 'n' => some '\n'
  | 'r' => some '\r'
  | 't' => some '\t'
  | _ => none

def hexUnit? (digits : List Char) : Option Nat :=
  (digits.mapM Uuid.hexValue?).map fun ds => ds.foldl (fun n d => 16 * n + d) 0

def string? : List Char → Option (List Piece × List Char)
  | [] => none
  | '"' :: rest => some ([], rest)
  | '\\' :: 'u' :: a :: b :: c :: d :: rest => do
    let code ← hexUnit? [a, b, c, d]
    let (ps, rest) ← string? rest
    return (.unit code :: ps, rest)
  | '\\' :: e :: rest => do
    let c ← escape? e
    let (ps, rest) ← string? rest
    return (.char c :: ps, rest)
  | c :: rest =>
    if c.toNat < 0x20 then none
    else do
      let (ps, rest) ← string? rest
      return (.char c :: ps, rest)

def digits? (cs : List Char) : Option (List Char × List Char) :=
  match cs.takeWhile Char.isDigit with
  | [] => none
  | ds => some (ds, cs.dropWhile Char.isDigit)

/-- A whole part: a lone zero, or digits that do not begin with one. -/
def whole? (cs : List Char) : Option (List Char × List Char) :=
  match digits? cs with
  | some ('0' :: _ :: _, _) => none
  | r => r

def fraction? : List Char → Option (Option (List Char) × List Char)
  | '.' :: rest => (digits? rest).map fun (ds, rest) => (some ds, rest)
  | cs => some (none, cs)

def signedExponent? : List Char → Option (Exponent × List Char)
  | '-' :: cs => (digits? cs).map fun (ds, rest) => (⟨true, ds⟩, rest)
  | '+' :: cs => (digits? cs).map fun (ds, rest) => (⟨false, ds⟩, rest)
  | cs => (digits? cs).map fun (ds, rest) => (⟨false, ds⟩, rest)

def exponent? : List Char → Option (Option Exponent × List Char)
  | 'e' :: rest | 'E' :: rest => (signedExponent? rest).map fun (e, rest) => (some e, rest)
  | cs => some (none, cs)

def unsigned? (negative : Bool) (cs : List Char) : Option (Numeral × List Char) := do
  let (whole, cs) ← whole? cs
  let (fraction, cs) ← fraction? cs
  let (exponent, cs) ← exponent? cs
  return (⟨negative, whole, fraction, exponent⟩, cs)

def numeral? : List Char → Option (Numeral × List Char)
  | '-' :: cs => unsigned? true cs
  | cs => unsigned? false cs

mutual

/-- The value at the front of the text. Each call spends one unit of fuel. -/
def value? : Nat → List Char → Option (Value × List Char)
  | 0, _ => none
  | fuel + 1, cs =>
    match skipSpace cs with
    | 'n' :: 'u' :: 'l' :: 'l' :: rest => some (.null, rest)
    | 't' :: 'r' :: 'u' :: 'e' :: rest => some (.bool true, rest)
    | 'f' :: 'a' :: 'l' :: 's' :: 'e' :: rest => some (.bool false, rest)
    | '"' :: rest => (string? rest).map fun (s, rest) => (.string s, rest)
    | '[' :: rest =>
      match skipSpace rest with
      | ']' :: rest => some (.array [], rest)
      | _ => (items? fuel rest).map fun (vs, rest) => (.array vs, rest)
    | '\x7b' :: rest =>
      match skipSpace rest with
      | '\x7d' :: rest => some (.object [], rest)
      | _ => (members? fuel rest).map fun (fs, rest) => (.object fs, rest)
    | cs => (numeral? cs).map fun (n, rest) => (.number n, rest)

def items? : Nat → List Char → Option (List Value × List Char)
  | 0, _ => none
  | fuel + 1, cs => do
    let (v, rest) ← value? fuel cs
    match skipSpace rest with
    | ']' :: rest => return ([v], rest)
    | ',' :: rest => do
      let (vs, rest) ← items? fuel rest
      return (v :: vs, rest)
    | _ => none

def members? : Nat → List Char → Option (List (List Piece × Value) × List Char)
  | 0, _ => none
  | fuel + 1, cs =>
    match skipSpace cs with
    | '"' :: rest => do
      let (key, rest) ← string? rest
      match skipSpace rest with
      | ':' :: rest => do
        let (v, rest) ← value? fuel rest
        match skipSpace rest with
        | '\x7d' :: rest => return ([(key, v)], rest)
        | ',' :: rest => do
          let (fs, rest) ← members? fuel rest
          return ((key, v) :: fs, rest)
        | _ => none
      | _ => none
    | _ => none

end

end Reader

namespace Value

/-- The value that a whole text writes. Nesting and length together need no more than two units of
fuel for a character. -/
def ofText? (s : String) : Option Value :=
  let cs := s.toList
  match Reader.value? (2 * cs.length + 2) cs with
  | some (v, rest) => if (Reader.skipSpace rest).isEmpty then some v else none
  | none => none

def toString? : Value → Option String
  | .string s => decode? s
  | _ => none

def toBool? : Value → Option Bool
  | .bool b => some b
  | _ => none

def toInt? : Value → Option Int
  | .number n => n.toInt?
  | _ => none

def toBinary64? : Value → Option Binary64
  | .number n => n.toBinary64?
  | _ => none

def nullable {α : Type} (read? : Value → Option α) : Value → Option (Option α)
  | .null => some none
  | v => (read? v).map some

end Value

def decodeFields? (fields : List (List Piece × Value)) : Option (List (String × Value)) :=
  fields.mapM fun f => (decode? f.1).map fun name => (name, f.2)

/-- The field of that name, if it is there; fails where it is repeated. -/
def field? (name : String) (fields : List (String × Value)) : Option (Option Value) :=
  match fields.filter fun f => f.1 = name with
  | [] => some none
  | [f] => some (some f.2)
  | _ => none

def required? {α : Type} (name : String) (read? : Value → Option α)
    (fields : List (String × Value)) : Option α := do
  let v ← (← field? name fields)
  read? v

/-- A character as it stands in a string. -/
def escaped (c : Char) : List Char :=
  if c = '"' then ['\\', '"']
  else if c = '\\' then ['\\', '\\']
  else if c.toNat < 0x20 then
    if c = '\x08' then ['\\', 'b']
    else if c = '\t' then ['\\', 't']
    else if c = '\n' then ['\\', 'n']
    else if c = '\x0c' then ['\\', 'f']
    else if c = '\r' then ['\\', 'r']
    else ['\\', 'u', '0', '0', Uuid.hexChar (c.toNat / 16), Uuid.hexChar (c.toNat % 16)]
  else [c]

def quote (s : String) : String := String.ofList ('"' :: s.toList.flatMap escaped ++ ['"'])

def boolText (b : Bool) : String := if b then "true" else "false"

def object (fields : List (String × String)) : String :=
  let members := fields.map fun f => quote f.1 ++ ":" ++ f.2
  "\x7b" ++ ",".intercalate members ++ "\x7d"

def array (items : List String) : String := "[" ++ ",".intercalate items ++ "]"

end Reckoner.Json
