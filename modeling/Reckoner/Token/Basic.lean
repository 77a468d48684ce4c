import Reckoner.Decimal.Scale
import Reckoner.Text.Word

set_option autoImplicit false

namespace Reckoner

inductive Token.Kind where
  | number (units : Int)
  | word (name : String)
  | plus | minus | star | slash | caret
  | comma
  | openParen | closeParen
  deriving DecidableEq, Repr

/-- A token, the character position at which it begins, and its text there. -/
structure Token where
  kind : Token.Kind
  position : Nat
  text : String
  deriving DecidableEq, Repr

namespace Token

def symbol? : Char → Option Kind
  | '(' => some .openParen
  | ')' => some .closeParen
  | '+' => some .plus
  | '-' => some .minus
  | '*' => some .star
  | '/' => some .slash
  | '^' => some .caret
  | ',' => some .comma
  | _ => none

/-- A number literal in parts: 12, 1.5, .5 or 5. with its point where it has one. -/
structure Literal where
  whole : List Char
  fraction : Option (List Char)
  deriving DecidableEq, Repr

namespace Literal

def chars (l : Literal) : List Char :=
  match l.fraction with
  | some ds => l.whole ++ '.' :: ds
  | none => l.whole

def value (l : Literal) : Int := Decimal.ofDigits l.whole (l.fraction.getD [])

end Literal

/-- Whether a number begins here: a digit, or a point before a digit. -/
def startsNumber : List Char → Bool
  | '.' :: d :: _ => d.isDigit
  | c :: _ => c.isDigit
  | [] => false

/-- The longest literal at the front of the text, and what follows it. -/
def takeLiteral (cs : List Char) : Literal × List Char :=
  let whole := cs.takeWhile Char.isDigit
  match cs.dropWhile Char.isDigit with
  | '.' :: rest => (⟨whole, some (rest.takeWhile Char.isDigit)⟩, rest.dropWhile Char.isDigit)
  | rest => (⟨whole, none⟩, rest)

def showAll (ts : List Token) : String := " ".intercalate (ts.map Token.text)

end Token

end Reckoner

namespace Reckoner.Token

theorem length_takeLiteral (cs : List Char) :
    (takeLiteral cs).1.chars.length + (takeLiteral cs).2.length = cs.length := by
  have split (xs : List Char) :
      (xs.takeWhile Char.isDigit).length + (xs.dropWhile Char.isDigit).length = xs.length := by
    rw [← List.length_append, List.takeWhile_append_dropWhile]
  have h := split cs
  unfold takeLiteral
  split
  next rest e =>
    have := split rest
    simp only [e, List.length_cons] at h
    simp only [Literal.chars, List.length_append, List.length_cons]
    omega
  next e => simpa [Literal.chars] using h

theorem takeLiteral_digit (c : Char) (rest : List Char) (h : c.isDigit = true) :
    0 < (takeLiteral (c :: rest)).1.chars.length := by
  unfold takeLiteral
  split <;> simp [Literal.chars, List.takeWhile, h]

theorem takeLiteral_shorter {cs : List Char} (h : startsNumber cs = true) :
    (takeLiteral cs).2.length < cs.length := by
  have hlen := length_takeLiteral cs
  suffices 0 < (takeLiteral cs).1.chars.length by omega
  unfold startsNumber at h
  split at h
  next d rest => simp [takeLiteral, Literal.chars, List.dropWhile, List.takeWhile]
  next c rest _ => exact takeLiteral_digit c rest h
  next => exact absurd h Bool.false_ne_true

def scan (position : Nat) (cs : List Char) : Except EvalError (List Token) :=
  match cs with
  | [] => .ok []
  | c :: rest =>
    if Text.isBlank c then scan (position + 1) rest
    else
      match symbol? c with
      | some kind => (scan (position + 1) rest).map (⟨kind, position, c.toString⟩ :: ·)
      | none =>
        if Text.isWordStart c then
          let letters := c :: rest.takeWhile Text.isWordPart
          let name := String.ofList letters
          (scan (position + letters.length) (rest.dropWhile Text.isWordPart)).map
            (⟨.word name, position, name⟩ :: ·)
        else if _ : startsNumber (c :: rest) then
          let parts := takeLiteral (c :: rest)
          let chars := parts.1.chars
          (scan (position + chars.length) parts.2).map
            (⟨.number parts.1.value, position, String.ofList chars⟩ :: ·)
        else .error (.malformed (.unexpectedCharacter c position))
termination_by cs.length
decreasing_by
  · exact Nat.lt_succ_self _
  · exact Nat.lt_succ_self _
  · exact Nat.lt_succ_of_le (List.dropWhile_sublist _).length_le
  · exact takeLiteral_shorter ‹_›

def ofText (s : String) : Except EvalError (List Token) := scan 0 s.toList

end Reckoner.Token
