import Reckoner.Catalogue
import Reckoner.Error

/-!
A word is a maximal run of ASCII letters, digits and underscores that does not begin with a digit;
a digit or any other character before it is no part of it.
-/
set_option autoImplicit false

namespace Reckoner.Text

def blankRanges : List (Nat × Nat) :=
  [(0x09, 0x0D), (0x20, 0x20), (0x85, 0x85), (0xA0, 0xA0), (0x1680, 0x1680), (0x2000, 0x200A),
    (0x2028, 0x2029), (0x202F, 0x202F), (0x205F, 0x205F), (0x3000, 0x3000)]

def isBlank (c : Char) : Bool := blankRanges.any fun r => r.1 ≤ c.toNat && c.toNat ≤ r.2

def trimLeft (cs : List Char) : List Char := cs.dropWhile isBlank

def trimRight (cs : List Char) : List Char := (cs.reverse.dropWhile isBlank).reverse

def trimChars (cs : List Char) : List Char := trimRight (trimLeft cs)

def trim (s : String) : String := String.ofList (trimChars s.toList)

def isAllBlank (s : String) : Bool := s.toList.all isBlank

def withoutBlanks (s : String) : String := String.ofList (s.toList.filter fun c => !isBlank c)

def isWordStart (c : Char) : Bool := c.isAlpha || c = '_'

def isWordPart (c : Char) : Bool := c.isAlphanum || c = '_'

inductive Piece where
  | word (letters : List Char)
  | other (c : Char)
  deriving DecidableEq, Repr

namespace Piece

def chars : Piece → List Char
  | .word letters => letters
  | .other c => [c]

def word? : Piece → Option String
  | .word letters => some (String.ofList letters)
  | .other _ => none

def canonical : Piece → Piece
  | .word letters =>
    match Catalogue.canonical? (String.ofList letters) with
    | some name => .word name.toList
    | none => .word letters
  | .other c => .other c

def byteSize (p : Piece) : Nat := (String.ofList p.chars).utf8ByteSize

end Piece

def pieces : List Char → List Piece
  | [] => []
  | c :: cs =>
    if isWordStart c then
      .word (c :: cs.takeWhile isWordPart) :: pieces (cs.dropWhile isWordPart)
    else .other c :: pieces cs
termination_by cs => cs.length
decreasing_by
  · exact Nat.lt_succ_of_le (List.dropWhile_sublist _).length_le
  · exact Nat.lt_succ_self _

def joined (ps : List Piece) : List Char := ps.flatMap Piece.chars

/-- The words with the byte offsets at which they begin. -/
def locatedWords (offset : Nat) : List Piece → List (Nat × String)
  | [] => []
  | p :: ps =>
    match p.word? with
    | some w => (offset, w) :: locatedWords (offset + p.byteSize) ps
    | none => locatedWords (offset + p.byteSize) ps

def words (s : String) : List (Nat × String) := locatedWords 0 (pieces s.toList)

/-- Copies the text from the byte `copied` on behind `out`, with the words in canonical case. -/
def copyFrom (s out : String) (copied : Nat) : List (Nat × String) → String
  | [] => out ++ String.Pos.Raw.extract s ⟨copied⟩ ⟨s.utf8ByteSize⟩
  | (start, word) :: rest =>
    let out := out ++ String.Pos.Raw.extract s ⟨copied⟩ ⟨start⟩
    copyFrom s (out ++ Catalogue.canonicalWord word) (start + word.utf8ByteSize) rest

def normalize (s : String) : String := copyFrom s "" 0 (words s)

/-- Refuses the first word that is not an allowed name as written. -/
def checkWords (s : String) : Except EvalError Unit :=
  match ((pieces s.toList).filterMap Piece.word?).find? fun w => !Catalogue.contains w with
  | some w => .error (.unknownIdentifier w)
  | none => .ok ()

end Reckoner.Text
