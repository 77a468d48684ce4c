import Mathlib.Data.List.Basic
import Mathlib.Data.List.Chain
import Mathlib.Data.List.Infix
import Reckoner.Expr.Grammar
import Reckoner.Expr.Parser
import Reckoner.Proofs.Catalogue

set_option autoImplicit false

namespace Reckoner

namespace Operator

def kind : Operator → Token.Kind
  | .plus => .plus | .minus => .minus | .times => .star | .divide => .slash | .power => .caret

def leftCategory : Operator → Grammar.Category
  | .plus | .minus => .sum | .times | .divide => .product | .power => .atom

def rightCategory : Operator → Grammar.Category
  | .plus | .minus => .product | .times | .divide | .power => .signed

def category : Operator → Grammar.Category
  | .plus | .minus => .sum | .times | .divide => .product | .power => .power

end Operator

def Token.Kind.opensAtom : Token.Kind → Bool
  | .number _ | .word _ | .openParen => true
  | _ => false

/-- What an operand ended with, told by the kind of its last token. -/
def Ending.Agrees (last : Option Token.Kind) : Ending → Prop
  | .literal => ∃ x, last = some (.number x)
  | .constant c _ => ∃ w, last = some (.word w) ∧ Constant.named? w = some c
  | .other => last = some .closeParen

namespace Grammar

def Category.level : Category → Nat
  | .atom => 0 | .power => 1 | .signed => 2 | .product => 3 | .sum => 4 | .arguments => 5

/-- The operators that follow an operand of the category at its own level, by one of them. -/
def Category.follower : Category → Operator
  | .atom => .power | .power | .signed | .product => .times | .sum | .arguments => .plus

def Category.ofLevel : Nat → Category
  | 0 => .atom | 1 => .power | 2 => .signed | 3 => .product | 4 => .sum | _ => .arguments

theorem Category.ofLevel_level (c : Category) : ofLevel c.level = c := by
  cases c <;> rfl

namespace Derives

variable {c : Category} {d : Nat} {ts us : List Token.Kind} {es : List Expr} {e l r : Expr}

theorem next (n : Nat) (h : Derives (.ofLevel n) d ts [e]) :
    Derives (.ofLevel (n + 1)) d ts [e] := by
  match n with
  | 0 => exact .ofAtom h
  | 1 => exact .ofPower h
  | 2 => exact .ofSigned h
  | 3 => exact .ofProduct h
  | 4 => exact .oneArgument h
  | _ + 5 => exact h

theorem lift {b : Category} (h : Derives c d ts [e]) (hb : c.level ≤ b.level) :
    Derives b d ts [e] := by
  have climb (k : Nat) : Derives (.ofLevel (c.level + k)) d ts [e] := by
    induction k with
    | zero => rw [Nat.add_zero, c.ofLevel_level]; exact h
    | succ k ih => exact next _ ih
  have hk := climb (b.level - c.level)
  rwa [Nat.add_sub_cancel' hb, b.ofLevel_level] at hk

theorem binary (op : Operator) (hl : Derives op.leftCategory d ts [l])
    (hr : Derives op.rightCategory d us [r]) :
    Derives op.category d (ts ++ op.kind :: us) [.binary op l r] := by
  cases op with
  | plus => exact .plus hl hr
  | minus => exact .minus hl hr
  | times => exact .times hl hr
  | divide => exact .divided hl hr
  | power => exact .raised hl hr

/-- An operand is never empty and never begins with a closing parenthesis; an atom, or a power,
begins with no sign either. -/
theorem head (h : Derives c d ts es) : ∃ k, ts.head? = some k ∧ k ≠ .closeParen ∧
    (c.level ≤ 1 → k.opensAtom = true) := by
  induction h with
  | number | constant | group | emptyCall | call =>
    exact ⟨_, rfl, nofun, fun _ => rfl⟩
  | positive | negative => exact ⟨_, rfl, nofun, fun h => absurd h (by decide)⟩
  | ofAtom _ ih =>
    obtain ⟨k, hk, hc, ho⟩ := ih
    exact ⟨k, hk, hc, fun _ => ho (by decide)⟩
  | raised _ _ ih =>
    obtain ⟨k, hk, hc, ho⟩ := ih
    exact ⟨k, by simp [hk], hc, fun _ => ho (by decide)⟩
  | oneArgument _ ih | ofPower _ ih | ofSigned _ ih | ofProduct _ ih =>
    obtain ⟨k, hk, hc, _⟩ := ih
    exact ⟨k, hk, hc, fun h => absurd h (by decide)⟩
  | nextArgument _ _ ih | times _ _ ih | divided _ _ ih | sideBySide _ _ _ ih | plus _ _ ih
  | minus _ _ ih =>
    obtain ⟨k, hk, hc, _⟩ := ih
    exact ⟨k, by simp [hk], hc, fun h => absurd h (by decide)⟩

theorem ne_nil (h : Derives c d ts es) : ts ≠ [] := by
  obtain ⟨k, hk, _⟩ := h.head
  rintro rfl
  exact absurd hk (by simp)

end Derives

open Token (Kind)

/-- What holds of two kinds of which the second follows the first. -/
def Adjoins : Kind → Kind → Prop
  | .number _, next => ∀ x, next ≠ .number x
  | .word w, next => next ≠ .openParen → ∃ c, Constant.named? w = some c
  | _, _ => True

/-- The neighbours in a text that ends with an operand, and what the next kind finds at its end. -/
structure Adjoining (ks : List Kind) : Prop where
  pairs : ks.IsChain Adjoins
  last : ∀ w, ks.getLast? = some (.word w) → ∃ c, Constant.named? w = some c

variable {d depth : Nat} {ks ms ts us : List Kind} {k : Kind}

theorem adjoins_of_last {next : Kind} (hword : ∀ w, k = .word w → ∃ c, Constant.named? w = some c)
    (hnumber : ∀ x, k = .number x → ∀ y, next ≠ .number y) : Adjoins k next := by
  cases k with
  | number x => exact hnumber x rfl
  | word w => exact fun _ => hword w rfl
  | _ => trivial

namespace Adjoining

theorem nil : Adjoining [] := ⟨List.isChain_nil, nofun⟩

theorem append_cons (hk : Adjoining ks) (hm : Adjoining ms) (hnumber : ∀ x, k ≠ .number x)
    (hword : ∀ w, k ≠ .word w) : Adjoining (ks ++ k :: ms) := by
  have hbehind (next : Kind) : Adjoins k next :=
    adjoins_of_last (fun w hw => absurd hw (hword w)) fun x hx => absurd hx (hnumber x)
  constructor
  · refine List.isChain_append.mpr ⟨hk.pairs, List.isChain_cons.mpr ⟨fun y _ => hbehind y, hm.pairs⟩,
      fun x hx y hy => ?_⟩
    obtain rfl := Option.some.inj hy
    exact adjoins_of_last (fun w hw => hk.last w (hw ▸ hx)) fun _ _ => hnumber
  · intro w hw
    rw [List.getLast?_append_cons, List.getLast?_cons] at hw
    cases hms : ms.getLast? with
    | none =>
      rw [hms] at hw
      exact absurd (Option.some.inj hw) (hword w)
    | some last =>
      rw [hms] at hw
      exact hm.last w (hms.trans hw)

theorem inParens (hm : Adjoining ms) : Adjoining (.openParen :: ms ++ [.closeParen]) := by
  have hopen : Adjoining (.openParen :: ms) := nil.append_cons hm nofun nofun
  exact hopen.append_cons nil nofun nofun

theorem append (hk : Adjoining ks) (hm : Adjoining ms)
    (hmeet : mayMeet ks.getLast? ms.head? = true) : Adjoining (ks ++ ms) := by
  constructor
  · refine List.isChain_append.mpr ⟨hk.pairs, hm.pairs, fun x hx y hy => ?_⟩
    refine adjoins_of_last (fun w hw => hk.last w (hw ▸ hx)) ?_
    rintro a rfl b rfl
    rw [Option.mem_def.mp hx, Option.mem_def.mp hy] at hmeet
    cases hmeet
  · intro w hw
    rw [List.getLast?_append] at hw
    rcases Option.or_eq_some_iff.mp hw with hw | ⟨-, hw⟩
    · exact hm.last w hw
    · exact hk.last w hw

theorem cons_word (hm : Adjoining (.openParen :: ms)) (w : String) :
    Adjoining (.word w :: .openParen :: ms) := by
  refine ⟨List.isChain_cons.mpr ⟨fun y hy => ?_, hm.pairs⟩, fun v hv => hm.last v ?_⟩
  · obtain rfl := Option.some.inj hy
    exact fun h => absurd rfl h
  · rwa [List.getLast?_cons_cons] at hv

end Adjoining

theorem adjoining_of_derives {c : Category} {es : List Expr}
    (h : Derives c d ks es) : Adjoining ks := by
  induction h with
  | number d x => exact ⟨List.isChain_singleton _, fun w hw => nomatch hw⟩
  | constant d hc =>
    refine ⟨List.isChain_singleton _, fun w hw => ?_⟩
    cases hw
    exact ⟨_, hc⟩
  | ofAtom _ ih | ofPower _ ih | ofSigned _ ih | ofProduct _ ih | oneArgument _ ih => exact ih
  | group _ ih => exact ih.inParens
  | emptyCall d hf => exact Adjoining.nil.inParens.cons_word _
  | call hf _ ih => exact ih.inParens.cons_word _
  | positive _ ih | negative _ ih => exact Adjoining.nil.append_cons ih nofun nofun
  | nextArgument _ _ ihl ihr | raised _ _ ihl ihr | times _ _ ihl ihr | divided _ _ ihl ihr
  | plus _ _ ihl ihr | minus _ _ ihl ihr => exact ihl.append_cons ihr nofun nofun
  | sideBySide _ _ hmeet ihl ihr => exact ihl.append ihr hmeet

def Balanced (ks : List Kind) : Prop := ks.count .openParen = ks.count .closeParen

/-- At most `d` parentheses are open at once. -/
def NestsWithin (d : Nat) (ks : List Kind) : Prop :=
  ∀ front ∈ ks.inits, front.count .openParen ≤ front.count .closeParen + d

instance (d : Nat) (ks : List Kind) : Decidable (NestsWithin d ks) :=
  inferInstanceAs (Decidable (∀ front ∈ ks.inits, _ ≤ _))

namespace Balanced

theorem append (hts : Balanced ts) (hus : Balanced us) : Balanced (ts ++ us) := by
  rw [Balanced, List.count_append, List.count_append, hts, hus]

theorem singleton (ho : k ≠ .openParen) (hc : k ≠ .closeParen) : Balanced [k] := by
  rw [Balanced, List.count_singleton, List.count_singleton]
  simp [ho, hc]

theorem cons (hus : Balanced us) (ho : k ≠ .openParen) (hc : k ≠ .closeParen) :
    Balanced (k :: us) :=
  (singleton ho hc).append hus

theorem append_cons (hts : Balanced ts) (hus : Balanced us) (ho : k ≠ .openParen)
    (hc : k ≠ .closeParen) : Balanced (ts ++ k :: us) :=
  hts.append (hus.cons ho hc)

theorem inParens (h : Balanced ts) : Balanced (.openParen :: ts ++ [.closeParen]) := by
  simp [Balanced, show ts.count .openParen = ts.count .closeParen from h]

end Balanced

theorem balanced_of_derives {c : Category} {es : List Expr} (h : Derives c d ks es) :
    Balanced ks := by
  induction h with
  | number | constant => exact .singleton nofun nofun
  | group _ ih => exact ih.inParens
  | emptyCall => rfl
  | call _ _ ih => exact ih.inParens.cons nofun nofun
  | ofAtom _ ih | ofPower _ ih | ofSigned _ ih | ofProduct _ ih | oneArgument _ ih => exact ih
  | positive _ ih | negative _ ih => exact ih.cons nofun nofun
  | sideBySide _ _ _ ihl ihr => exact ihl.append ihr
  | nextArgument _ _ ihl ihr | raised _ _ ihl ihr | times _ _ ihl ihr | divided _ _ ihl ihr
  | plus _ _ ihl ihr | minus _ _ ihl ihr => exact ihl.append_cons ihr nofun nofun

namespace NestsWithin

theorem left (h : NestsWithin d (ts ++ us)) : NestsWithin d ts := by
  intro front hfront
  refine h front ((List.mem_inits _ _).mpr ?_)
  exact ((List.mem_inits _ _).mp hfront).trans (List.prefix_append ts us)

theorem right (hts : Balanced ts) (h : NestsWithin d (ts ++ us)) : NestsWithin d us := by
  intro front hfront
  have hle := h (ts ++ front)
    ((List.mem_inits _ _).mpr ((List.prefix_append_right_inj ts).mpr ((List.mem_inits _ _).mp hfront)))
  rw [List.count_append, List.count_append, show ts.count .openParen = _ from hts] at hle
  omega

theorem tail (h : NestsWithin d (k :: us)) (ho : k ≠ .openParen) (hc : k ≠ .closeParen) :
    NestsWithin d us := by
  have hk : Balanced [k] := .singleton ho hc
  exact right hk h

theorem inParens (h : NestsWithin d (.openParen :: ts ++ [.closeParen])) :
    ∃ inner, d = inner + 1 ∧ NestsWithin inner ts := by
  have hle (front : List Kind) (hfront : front ∈ ts.inits) :
      front.count .openParen + 1 ≤ front.count .closeParen + d := by
    have hprefix : .openParen :: front <+: .openParen :: ts ++ [.closeParen] :=
      (List.cons_prefix_cons.mpr ⟨rfl, (List.mem_inits _ _).mp hfront⟩).trans (List.prefix_append _ _)
    simpa using h _ ((List.mem_inits _ _).mpr hprefix)
  have hpos : 1 ≤ d := by simpa using hle [] ((List.mem_inits _ _).mpr List.nil_prefix)
  refine ⟨d - 1, by omega, fun front hfront => ?_⟩
  have := hle front hfront
  omega

end NestsWithin

theorem Derives.ofNestsWithin {c : Category} {es : List Expr} (h : Derives c depth ks es)
    (hn : NestsWithin d ks) : Derives c d ks es := by
  induction h generalizing d with
  | number _ x => exact .number d x
  | constant _ hc => exact .constant d hc
  | group _ ih =>
    obtain ⟨inner, rfl, hinner⟩ := hn.inParens
    exact .group (ih hinner)
  | emptyCall _ hf =>
    have hempty : NestsWithin d (.openParen :: [] ++ [.closeParen]) := hn.tail nofun nofun
    obtain ⟨inner, rfl, -⟩ := hempty.inParens
    exact .emptyCall inner hf
  | call hf _ ih =>
    obtain ⟨inner, rfl, hinner⟩ := (hn.tail nofun nofun).inParens
    exact .call hf (ih hinner)
  | oneArgument _ ih => exact .oneArgument (ih hn)
  | nextArgument hl _ ihl ihr =>
    exact .nextArgument (ihl hn.left) (ihr ((hn.right (balanced_of_derives hl)).tail nofun nofun))
  | ofAtom _ ih => exact .ofAtom (ih hn)
  | raised hl _ ihl ihr =>
    exact .raised (ihl hn.left) (ihr ((hn.right (balanced_of_derives hl)).tail nofun nofun))
  | ofPower _ ih => exact .ofPower (ih hn)
  | positive _ ih => exact .positive (ih (hn.tail nofun nofun))
  | negative _ ih => exact .negative (ih (hn.tail nofun nofun))
  | ofSigned _ ih => exact .ofSigned (ih hn)
  | times hl _ ihl ihr =>
    exact .times (ihl hn.left) (ihr ((hn.right (balanced_of_derives hl)).tail nofun nofun))
  | divided hl _ ihl ihr =>
    exact .divided (ihl hn.left) (ihr ((hn.right (balanced_of_derives hl)).tail nofun nofun))
  | sideBySide hl _ hmeet ihl ihr =>
    exact .sideBySide (ihl hn.left) (ihr (hn.right (balanced_of_derives hl))) hmeet
  | ofProduct _ ih => exact .ofProduct (ih hn)
  | plus hl _ ihl ihr =>
    exact .plus (ihl hn.left) (ihr ((hn.right (balanced_of_derives hl)).tail nofun nofun))
  | minus hl _ ihl ihr =>
    exact .minus (ihl hn.left) (ihr ((hn.right (balanced_of_derives hl)).tail nofun nofun))

end Grammar

end Reckoner
