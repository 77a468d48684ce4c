import Reckoner.Decimal.Scale
import Reckoner.Uuid

/-!
The part of TOML that settings need: comments, and lines `key = integer` outside any table. Whatever
else a document holds no setting can take, so it is refused as a whole; so is a repeated key.
-/
set_option autoImplicit false

namespace Reckoner.Toml

abbrev Table := List (String × Int)

/-- The lines of a document; a carriage return belongs to the line feed after it. -/
def lines : List Char → List (List Char)
  | [] => [[]]
  | '\r' :: '\n' :: rest => [] :: lines rest
  | '\n' :: rest => [] :: lines rest
  | c :: rest =>
    match lines rest with
    | l :: ls => (c :: l) :: ls
    | [] => [[c]]

def isSpace (c : Char) : Bool := c = ' ' || c = '\t'

def skipSpace (cs : List Char) : List Char := cs.dropWhile isSpace

def isPrintable (c : Char) : Bool := c = '\t' || (0x20 ≤ c.toNat && c.toNat ≠ 0x7F)

def isLineEnd (cs : List Char) : Bool :=
  match skipSpace cs with
  | [] => true
  | '#' :: comment => comment.all isPrintable
  | _ => false

def isBareKey (c : Char) : Bool := c.isAlphanum || c = '_' || c = '-'

def hexNumber? (ds : List Char) : Option Nat :=
  (ds.mapM Uuid.hexValue?).map fun ns => ns.foldl (fun n d => 16 * n + d) 0

/-- The character of a code point; halves of pairs and numbers beyond Unicode are none. -/
def codePoint? (n : Nat) : Option Char := if n.isValidChar then some (Char.ofNat n) else none

def escape? : Char → Option Char
  | '"' => some '"'
  | '\\' => some '\\'
  | 'b' => some '\x08'
  | 't' => some '\t'
  | 'n' => some '\n'
  | 'f' => some '\x0c'
  | 'r' => some '\r'
  | 'e' => some '\x1b'
  | _ => none

def quoted? : List Char → Option (List Char × List Char)
  | [] => none
  | '"' :: rest => some ([], rest)
  | '\\' :: 'x' :: a :: b :: rest => do
    let c ← codePoint? (← hexNumber? [a, b])
    let (cs, rest) ← quoted? rest
    return (c :: cs, rest)
  | '\\' :: 'u' :: a :: b :: c :: d :: rest => do
    let c ← codePoint? (← hexNumber? [a, b, c, d])
    let (cs, rest) ← quoted? rest
    return (c :: cs, rest)
  | '\\' :: 'U' :: a :: b :: c :: d :: e :: f :: g :: h :: rest => do
    let c ← codePoint? (← hexNumber? [a, b, c, d, e, f, g, h])
    let (cs, rest) ← quoted? rest
    return (c :: cs, rest)
  | '\\' :: e :: rest => do
    let c ← escape? e
    let (cs, rest) ← quoted? rest
    return (c :: cs, rest)
  | c :: rest =>
    if isPrintable c then (quoted? rest).map fun (cs, rest) => (c :: cs, rest) else none

def key? : List Char → Option (String × List Char)
  | '"' :: rest => (quoted? rest).map fun (cs, rest) => (String.ofList cs, rest)
  | '\'' :: rest =>
    match rest.dropWhile (· ≠ '\'') with
    | _ :: after =>
      let name := rest.takeWhile (· ≠ '\'')
      if name.all isPrintable then some (String.ofList name, after) else none
    | [] => none
  | cs =>
    match cs.takeWhile isBareKey with
    | [] => none
    | name => some (String.ofList name, cs.dropWhile isBareKey)

/-- Digits of a base, where single underscores may stand between two of them. -/
def digits? (isDigit : Char → Bool) : List Char → Option (List Char)
  | [] => none
  | [d] => if isDigit d then some [d] else none
  | d :: '_' :: rest => if isDigit d then (digits? isDigit rest).map (d :: ·) else none
  | d :: rest => if isDigit d then (digits? isDigit rest).map (d :: ·) else none

def inBase? (base : Nat) (cs : List Char) : Option Nat := do
  let ds ← digits? (fun c => (Uuid.hexValue? c).any (· < base)) cs
  return ds.foldl (fun n d => base * n + (Uuid.hexValue? d).getD 0) 0

/-- A decimal magnitude does not begin with a superfluous zero. -/
def decimal? (cs : List Char) : Option Nat :=
  match cs with
  | '0' :: _ :: _ => none
  | cs => inBase? 10 cs

def integer? : List Char → Option Int
  | '0' :: 'x' :: ds => (inBase? 16 ds).map fun n => (n : Int)
  | '0' :: 'o' :: ds => (inBase? 8 ds).map fun n => (n : Int)
  | '0' :: 'b' :: ds => (inBase? 2 ds).map fun n => (n : Int)
  | '-' :: ds => (decimal? ds).map fun n => -(n : Int)
  | '+' :: ds => (decimal? ds).map fun n => (n : Int)
  | ds => (decimal? ds).map fun n => (n : Int)

def assigned? (cs : List Char) : Option Int :=
  match skipSpace cs with
  | '=' :: rest =>
    let text := skipSpace rest
    let isPart (c : Char) : Bool := !isSpace c && c ≠ '#'
    if isLineEnd (text.dropWhile isPart) then integer? (text.takeWhile isPart) else none
  | _ => none

/-- The entry of a line, if it has one; fails on any other line. -/
def entry? (line : List Char) : Option (Option (String × Int)) :=
  if isLineEnd line then some none
  else do
    let (name, rest) ← key? (skipSpace line)
    let n ← assigned? rest
    return some (name, n)

def byteOrderMark : Char := '\ufeff'

def read? (s : String) : Option Table := do
  let text := match s.toList with
    | c :: rest => if c = byteOrderMark then rest else c :: rest
    | [] => []
  let table := (← (lines text).mapM entry?).filterMap id
  if (table.map Prod.fst).Nodup then return table else none

end Reckoner.Toml
