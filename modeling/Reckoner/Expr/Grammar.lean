import Reckoner.Expr.Basic
import Reckoner.Token.Basic

/-!
Which token kinds write which tree, said without the reader:

    sum      = product { ("+" | "-") product }
    product  = signed { ("*" | "/") signed | power }
    signed   = ("+" | "-") signed | power
    power    = atom [ "^" signed ]
    atom     = number | constant | function "(" [ sum { "," sum } ] ")" | "(" sum ")"

A factor without a sign of multiplication may not make two number literals neighbours, and a
parenthesis after a constant is no factor. At most a given number of brackets is open at once.
-/
set_option autoImplicit false

namespace Reckoner.Grammar

inductive Category where
  | sum | product | signed | power | atom
  /-- One or more sums with commas between them. -/
  | arguments
  deriving DecidableEq, Repr

/-- Whether two tokens may meet where factors stand side by side. -/
def mayMeet : Option Token.Kind → Option Token.Kind → Bool
  | some (.number _), some (.number _) => false
  | some (.word w), some .openParen => (Constant.named? w).isNone
  | _, _ => true

/-- `Derives c d ts es`: the kinds `ts` are of category `c` with at most `d` brackets open at once,
and write the trees `es`: one tree, or for arguments one for each. -/
inductive Derives : Category → Nat → List Token.Kind → List Expr → Prop where
  | number (d : Nat) (x : Int) : Derives .atom d [.number x] [.number x]
  | constant {c : Constant} (d : Nat) {w : String} :
    Constant.named? w = some c → Derives .atom d [.word w] [.constant c]
  | group {d : Nat} {ts : List Token.Kind} {e : Expr} :
    Derives .sum d ts [e] → Derives .atom (d + 1) (.openParen :: ts ++ [.closeParen]) [e]
  | emptyCall {f : Function} (d : Nat) {w : String} :
    Function.named? w = some f →
    Derives .atom (d + 1) [.word w, .openParen, .closeParen] [.call f []]
  | call {f : Function} {d : Nat} {w : String} {ts : List Token.Kind} {es : List Expr} :
    Function.named? w = some f → Derives .arguments d ts es →
    Derives .atom (d + 1) (.word w :: .openParen :: ts ++ [.closeParen]) [.call f es]
  | oneArgument {d : Nat} {ts : List Token.Kind} {e : Expr} :
    Derives .sum d ts [e] → Derives .arguments d ts [e]
  | nextArgument {d : Nat} {ts us : List Token.Kind} {es : List Expr} {e : Expr} :
    Derives .arguments d ts es → Derives .sum d us [e] →
    Derives .arguments d (ts ++ .comma :: us) (es ++ [e])
  | ofAtom {d : Nat} {ts : List Token.Kind} {e : Expr} :
    Derives .atom d ts [e] → Derives .power d ts [e]
  | raised {d : Nat} {ts us : List Token.Kind} {b e : Expr} :
    Derives .atom d ts [b] → Derives .signed d us [e] →
    Derives .power d (ts ++ .caret :: us) [.binary .power b e]
  | ofPower {d : Nat} {ts : List Token.Kind} {e : Expr} :
    Derives .power d ts [e] → Derives .signed d ts [e]
  | positive {d : Nat} {ts : List Token.Kind} {e : Expr} :
    Derives .signed d ts [e] → Derives .signed d (.plus :: ts) [e]
  | negative {d : Nat} {ts : List Token.Kind} {e : Expr} :
    Derives .signed d ts [e] → Derives .signed d (.minus :: ts) [.negate e]
  | ofSigned {d : Nat} {ts : List Token.Kind} {e : Expr} :
    Derives .signed d ts [e] → Derives .product d ts [e]
  | times {d : Nat} {ts us : List Token.Kind} {l r : Expr} :
    Derives .product d ts [l] → Derives .signed d us [r] →
    Derives .product d (ts ++ .star :: us) [.binary .times l r]
  | divided {d : Nat} {ts us : List Token.Kind} {l r : Expr} :
    Derives .product d ts [l] → Derives .signed d us [r] →
    Derives .product d (ts ++ .slash :: us) [.binary .divide l r]
  | sideBySide {d : Nat} {ts us : List Token.Kind} {l r : Expr} :
    Derives .product d ts [l] → Derives .power d us [r] →
    mayMeet ts.getLast? us.head? = true → Derives .product d (ts ++ us) [.binary .times l r]
  | ofProduct {d : Nat} {ts : List Token.Kind} {e : Expr} :
    Derives .product d ts [e] → Derives .sum d ts [e]
  | plus {d : Nat} {ts us : List Token.Kind} {l r : Expr} :
    Derives .sum d ts [l] → Derives .product d us [r] →
    Derives .sum d (ts ++ .plus :: us) [.binary .plus l r]
  | minus {d : Nat} {ts us : List Token.Kind} {l r : Expr} :
    Derives .sum d ts [l] → Derives .product d us [r] →
    Derives .sum d (ts ++ .minus :: us) [.binary .minus l r]

/-- Whether the tokens write the tree within the depth that is allowed. -/
def Writes (ts : List Token) (e : Expr) : Prop :=
  Derives .sum depthLimit (ts.map Token.kind) [e]

end Reckoner.Grammar
