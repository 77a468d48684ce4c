import Reckoner.Proofs.Digits
import Reckoner.Proofs.Exact.Rational
import Reckoner.Proofs.Reader.Names
import Reckoner.Proofs.Token.Lexing

set_option autoImplicit false

namespace Reckoner

open Decimal

namespace Token

def fractionValue : List Char → ℚ
  | [] => 0
  | d :: ds => (digitValue d + fractionValue ds) / 10

namespace Literal

def fractionDigits (l : Literal) : List Char := l.fraction.getD []

def rational (l : Literal) : ℚ := digitsValue l.whole + fractionValue l.fractionDigits

end Literal

def literal? (t : Token) : Option Literal :=
  match t.kind with
  | .number _ => some (takeLiteral t.text.toList).1
  | _ => none

def Kind.number? : Kind → Option Int
  | .number x => some x
  | _ => none

theorem fractionValue_eq (ds : List Char) : fractionValue ds = digitsValue ds / 10 ^ ds.length := by
  induction ds with
  | nil => simp [fractionValue, digitsValue]
  | cons d ds ih =>
    have hcons : digitsValue (d :: ds) = digitValue d * 10 ^ ds.length + digitsValue ds := by
      rw [digitsValue, List.foldl_cons, foldl_digits, mul_zero, zero_add]
    rw [fractionValue, ih, hcons, List.length_cons, pow_succ]
    push_cast
    field_simp

/-- A literal that fits the grid has the value that it writes. -/
theorem toRat_value {l : Literal} (h : l.fractionDigits.length ≤ places) :
    toRat l.value = l.rational := by
  have hone : (one : ℚ) =
      10 ^ (places - l.fractionDigits.length) * 10 ^ l.fractionDigits.length := by
    rw [← pow_add, Nat.sub_add_cancel h]
    exact cast_tenPow (by decide)
  have hvalue : l.value = digitsValue (l.whole ++ l.fractionDigits) *
      tenPow (places - l.fractionDigits.length) := by
    change (digitsValue (l.whole ++ l.fractionDigits.take places) : ℤ) *
      tenPow (places - (l.fractionDigits.take places).length) = _
    rw [List.take_of_length_le h]
  rw [toRat, hvalue, Literal.rational, fractionValue_eq, digitsValue_append, hone]
  rw [Int.cast_mul, cast_tenPow (lt_exponentEnd (Nat.sub_le places _))]
  push_cast
  field_simp

theorem takeLiteral_digits {ds : List Char} (h : ∀ d ∈ ds, d.isDigit = true) :
    takeLiteral ds = (⟨ds, none⟩, []) := by
  have htake : ds.takeWhile Char.isDigit = ds := List.takeWhile_eq_self_iff.mpr h
  have hdrop : ds.dropWhile Char.isDigit = [] := List.dropWhile_eq_nil_iff.mpr h
  rw [takeLiteral, htake, hdrop]

theorem takeLiteral_point {ds : List Char} (h : ∀ d ∈ ds, d.isDigit = true) (rest : List Char) :
    takeLiteral (ds ++ '.' :: rest) =
      (⟨ds, some (rest.takeWhile Char.isDigit)⟩, rest.dropWhile Char.isDigit) := by
  have hpoint : ¬Char.isDigit '.' = true := by decide
  have htake : (ds ++ '.' :: rest).takeWhile Char.isDigit = ds := by
    rw [List.takeWhile_append_of_pos h, List.takeWhile_cons_of_neg hpoint, List.append_nil]
  have hdrop : (ds ++ '.' :: rest).dropWhile Char.isDigit = '.' :: rest := by
    rw [List.dropWhile_append_of_pos h, List.dropWhile_cons_of_neg hpoint]
  simp only [takeLiteral, htake, hdrop]

theorem takeLiteral_chars (cs : List Char) :
    (takeLiteral (takeLiteral cs).1.chars).1 = (takeLiteral cs).1 := by
  have hdigits (xs : List Char) : ∀ d ∈ xs.takeWhile Char.isDigit, d.isDigit = true :=
    fun d hd => List.mem_takeWhile_imp hd
  unfold takeLiteral
  split
  · next rest e =>
    change (takeLiteral (cs.takeWhile Char.isDigit ++ '.' :: rest.takeWhile Char.isDigit)).1 = _
    rw [takeLiteral_point (hdigits cs), List.takeWhile_eq_self_iff.mpr (hdigits rest)]
  · next e =>
    change (takeLiteral (cs.takeWhile Char.isDigit)).1 = _
    rw [takeLiteral_digits (hdigits cs)]

theorem number?_of_scan {position : Nat} {cs : List Char} {ts : List Token}
    (h : scan position cs = .ok ts) : ∀ t ∈ ts, t.kind.number? = t.literal?.map Literal.value := by
  fun_induction scan position cs generalizing ts with
  | case1 =>
    cases h
    exact List.forall_mem_nil _
  | case2 _ _ _ _ ih => exact ih h
  | case3 position c rest _ kind hkind ih =>
    obtain ⟨us, hus, rfl⟩ := map_eq_ok_iff.mp h
    intro t ht
    rcases List.mem_cons.mp ht with rfl | ht
    · cases kind with
      | number x => exact absurd rfl ((symbol?_plain hkind).2 x)
      | _ => rfl
    · exact ih hus t ht
  | case4 position c rest _ _ _ letters =>
    rename_i name ih
    obtain ⟨us, hus, rfl⟩ := map_eq_ok_iff.mp h
    intro t ht
    rcases List.mem_cons.mp ht with rfl | ht
    · rfl
    · exact ih hus t ht
  | case5 position c rest _ _ _ _ parts =>
    rename_i chars ih
    obtain ⟨us, hus, rfl⟩ := map_eq_ok_iff.mp h
    intro t ht
    rcases List.mem_cons.mp ht with rfl | ht
    · change some parts.1.value = some (takeLiteral (String.ofList chars).toList).1.value
      rw [String.toList_ofList, takeLiteral_chars]
    · exact ih hus t ht
  | case6 => cases h

end Token

def Instr.number? : Instr → Option Int
  | .number x => some x
  | .constant _ | .negate | .binary _ | .call _ _ => none

def Program.numbers (p : Program) : List Int := p.filterMap Instr.number?

namespace Expr

open Program

theorem numbers_append (p q : Program) : (p ++ q).numbers = p.numbers ++ q.numbers := by
  simp [numbers]

theorem numbers_singleton (i : Instr) : numbers [i] = i.number?.toList := by
  cases h : i.number? <;> simp [numbers, h]

theorem numbers_negate (e : Expr) :
    numbers (reversePolishAll [.negate e]) = numbers (reversePolishAll [e]) := by
  simp [reversePolishAll, reversePolish, numbers_append, numbers_singleton, Instr.number?]

theorem numbers_binary (op : Operator) (l r : Expr) :
    numbers (reversePolishAll [.binary op l r]) =
      numbers (reversePolishAll [l]) ++ numbers (reversePolishAll [r]) := by
  simp [reversePolishAll, reversePolish, numbers_append, numbers_singleton, Instr.number?]

theorem numbers_call (f : Function) (es : List Expr) :
    numbers (reversePolishAll [.call f es]) = numbers (reversePolishAll es) := by
  simp [reversePolishAll, reversePolish, numbers_append, numbers_singleton, Instr.number?]

theorem numbers_of_derives {c : Grammar.Category} {d : Nat} {kinds : List Token.Kind}
    {es : List Expr} (h : Grammar.Derives c d kinds es) :
    (reversePolishAll es).numbers = kinds.filterMap Token.Kind.number? := by
  induction h with
  | ofAtom _ ih | ofPower _ ih | ofSigned _ ih | ofProduct _ ih | oneArgument _ ih => exact ih
  | number d x => rfl
  | constant d hc => rfl
  | emptyCall d hf => rfl
  | group _ ih => simp [ih, Token.Kind.number?, List.filterMap_cons]
  | call hf _ ih => simp [numbers_call, ih, Token.Kind.number?, List.filterMap_cons]
  | nextArgument _ _ ihs ih =>
    simp [reversePolishAll_append, numbers_append, ihs, ih, Token.Kind.number?,
      List.filterMap_cons]
  | positive _ ih => simp [ih, Token.Kind.number?, List.filterMap_cons]
  | negative _ ih => simp [numbers_negate, ih, Token.Kind.number?, List.filterMap_cons]
  | raised _ _ ihl ihr | times _ _ ihl ihr | divided _ _ ihl ihr | sideBySide _ _ _ ihl ihr
  | plus _ _ ihl ihr | minus _ _ ihl ihr =>
    simp [numbers_binary, ihl, ihr, Token.Kind.number?, List.filterMap_cons]

/-- The literals of the program of a text are the numbers that its tokens write, where none has more
decimals than the grid. -/
theorem numbers_of_ofText {text : String} {tokens : List Token} {length : Nat} {e : Expr}
    (htokens : Token.ofText text = .ok tokens)
    (hshort : ∀ t ∈ tokens, ∀ l, t.literal? = some l → l.fractionDigits.length ≤ places)
    (htree : ofTokens tokens length = .ok e) :
    e.program.numbers.map toRat =
      tokens.filterMap fun t => t.literal?.map Token.Literal.rational := by
  have hderives := numbers_of_derives (writes_of_ofTokens htree)
  rw [program_eq_reversePolish, ← reversePolishAll_singleton, hderives, List.filterMap_map,
    List.map_filterMap]
  refine List.filterMap_congr fun t ht => ?_
  rw [Function.comp_apply, Token.number?_of_scan htokens t ht, Option.map_map]
  cases hl : t.literal? with
  | none => rfl
  | some l => exact congrArg some (Token.toRat_value (hshort t ht l hl))

end Expr

end Reckoner
