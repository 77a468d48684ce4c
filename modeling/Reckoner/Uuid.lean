set_option autoImplicit false

namespace Reckoner

structure Uuid where
  bits : BitVec 128
  deriving DecidableEq, Repr

namespace Uuid

def hexDigits : List Char :=
  ['0', '1', '2', '3', '4', '5', '6', '7', '8', '9', 'a', 'b', 'c', 'd', 'e', 'f']

def hexChar (n : Nat) : Char := hexDigits.getD n '0'

def hexValue? (c : Char) : Option Nat := hexDigits.findIdx? fun d => d = c.toLower

def groups : List Nat := [8, 4, 4, 4, 12]

def hyphenate : List Nat → List Char → List Char
  | [], cs => cs
  | [_], cs => cs
  | n :: ns, cs => cs.take n ++ '-' :: hyphenate ns (cs.drop n)

/-- Takes the hyphens between the groups away; nothing else is accepted. -/
def unhyphenate? : List Nat → List Char → Option (List Char)
  | [], _ => none
  | [n], cs => if cs.length = n then some cs else none
  | n :: ns, cs =>
    match cs.drop n with
    | '-' :: rest => (unhyphenate? ns rest).map (cs.take n ++ ·)
    | _ => none

def chars (u : Uuid) : List Char :=
  hyphenate groups ((List.range 32).map fun i => hexChar (u.bits.toNat / Nat.pow 16 (31 - i) % 16))

def text (u : Uuid) : String := String.ofList u.chars

def ofHex? (cs : List Char) : Option Uuid :=
  if cs.length = 32 then
    (cs.mapM hexValue?).map fun ds => ⟨BitVec.ofNat 128 (ds.foldl (fun n d => 16 * n + d) 0)⟩
  else none

def ofHyphenated? (cs : List Char) : Option Uuid := (unhyphenate? groups cs).bind ofHex?

def urnHead : List Char := ['u', 'r', 'n', ':', 'u', 'u', 'i', 'd', ':']

def ofText? (s : String) : Option Uuid :=
  match s.toList with
  | '\x7b' :: cs => if cs.getLast? = some '\x7d' then ofHyphenated? cs.dropLast else none
  | cs =>
    if cs.take urnHead.length = urnHead then ofHyphenated? (cs.drop urnHead.length)
    else if cs.length = 32 then ofHex? cs
    else ofHyphenated? cs

end Uuid

end Reckoner
