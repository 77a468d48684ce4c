import Reckoner.Proofs.Outcome
import Reckoner.Proofs.Reader.Exactness
import Reckoner.Proofs.Text.Allowed

set_option autoImplicit false

namespace Reckoner

variable {t : Token} {ts : List Token} {cursor : Cursor} {w : String}

namespace Cursor

theorem openBracket_ne_unknown (position : Nat) (frames : List Frame) (next : Cursor) :
    openBracket position frames next ≠ .error (.unknownIdentifier w) := by
  unfold openBracket
  split <;> exact nofun

theorem readOpen_ne_unknown : cursor.readOpen t ≠ .error (.unknownIdentifier w) := by
  unfold readOpen
  split
  · exact nofun
  · exact openBracket_ne_unknown _ _ _
  · exact openBracket_ne_unknown _ _ _

theorem readOperator_ne_unknown (op : Operator) :
    cursor.readOperator op t ≠ .error (.unknownIdentifier w) := by
  cases cursor <;> exact nofun

theorem readComma_ne_unknown : cursor.readComma t ≠ .error (.unknownIdentifier w) := by
  unfold readComma
  split
  · split <;> exact nofun
  · exact nofun

theorem readClose_ne_unknown : cursor.readClose t ≠ .error (.unknownIdentifier w) := by
  unfold readClose
  split
  · exact nofun
  · split <;> exact nofun
  · exact nofun

theorem readWord_eq_unknown {name : String} {position : Nat} {frames : List Frame}
    (h : readWord name position frames = .error (.unknownIdentifier w)) :
    name = w ∧ Catalogue.contains w = false := by
  unfold readWord at h
  split at h
  · cases h
  · next hf =>
    split at h
    · cases h
    · next hc =>
      cases h
      exact ⟨rfl, by simp [Catalogue.contains, hf, hc]⟩

theorem step_eq_unknown (h : cursor.step t = .error (.unknownIdentifier w)) :
    t.kind = .word w ∧ Catalogue.contains w = false := by
  unfold step at h
  split at h
  · split at h
    · exact absurd h readOpen_ne_unknown
    · cases h
  · have hreading := reading cursor t
    generalize cursor.read t = outcome at h hreading
    cases hreading with
    | number | unexpectedPart | sign => cases h
    | word name hname =>
      obtain ⟨rfl, hw⟩ := readWord_eq_unknown h
      exact ⟨hname, hw⟩
    | operator op => exact absurd h (readOperator_ne_unknown op)
    | comma => exact absurd h readComma_ne_unknown
    | openParen => exact absurd h readOpen_ne_unknown
    | closeParen => exact absurd h readClose_ne_unknown

theorem foldlM_step_eq_unknown (h : ts.foldlM step cursor = .error (.unknownIdentifier w)) :
    ∃ t ∈ ts, t.kind = .word w ∧ Catalogue.contains w = false := by
  induction ts generalizing cursor with
  | nil => cases h
  | cons t ts ih =>
    rw [List.foldlM_cons] at h
    rcases bind_eq_error_iff.mp h with hstep | ⟨next, -, hrest⟩
    · exact ⟨t, List.mem_cons_self, step_eq_unknown hstep⟩
    · obtain ⟨u, hu, hw⟩ := ih hrest
      exact ⟨u, List.mem_cons_of_mem _ hu, hw⟩

theorem finish_ne_unknown (length : Nat) :
    cursor.finish length ≠ .error (.unknownIdentifier w) := by
  unfold finish
  split
  · exact nofun
  · split <;> exact nofun
  · exact nofun

end Cursor

theorem Program.ofTokens_eq_unknown {length : Nat}
    (h : ofTokens ts length = .error (.unknownIdentifier w)) :
    ∃ t ∈ ts, t.kind = .word w ∧ Catalogue.contains w = false := by
  rcases bind_eq_error_iff.mp (ofTokens_eq_error_iff.mp h) with hread | ⟨cursor, -, hfinish⟩
  · exact Cursor.foldlM_step_eq_unknown hread
  · exact absurd hfinish (Cursor.finish_ne_unknown length)

def Instr.name? : Instr → Option String
  | .constant c => some c.name
  | .call f _ => some f.name
  | .number _ | .negate | .binary _ => none

theorem Instr.contains_of_name? {i : Instr} {name : String} (h : i.name? = some name) :
    Catalogue.contains name = true := by
  cases i with
  | constant c =>
    cases h
    exact Catalogue.contains_constant c
  | call f count =>
    cases h
    exact Catalogue.contains_function f
  | number | negate | binary => cases h

namespace Program

def names (p : Program) : List String := p.filterMap Instr.name?

theorem names_append (p q : Program) : (p ++ q).names = p.names ++ q.names := by
  simp [names]

theorem names_singleton (i : Instr) : names [i] = i.name?.toList := by
  cases h : i.name? <;> simp [names, h]

end Program

namespace Expr

open Program

theorem reversePolishAll_singleton (e : Expr) : reversePolishAll [e] = e.reversePolish := by
  simp [reversePolishAll]

theorem names_negate (e : Expr) :
    names (reversePolishAll [.negate e]) = names (reversePolishAll [e]) := by
  simp [reversePolishAll, reversePolish, names_append, names_singleton, Instr.name?]

theorem names_binary (op : Operator) (l r : Expr) :
    names (reversePolishAll [.binary op l r]) =
      names (reversePolishAll [l]) ++ names (reversePolishAll [r]) := by
  simp [reversePolishAll, reversePolish, names_append, names_singleton, Instr.name?]

theorem names_call (f : Function) (es : List Expr) :
    names (reversePolishAll [.call f es]) = names (reversePolishAll es) ++ [f.name] := by
  simp [reversePolishAll, reversePolish, names_append, names_singleton, Instr.name?]

theorem word_mem_of_derives {c : Grammar.Category} {d : Nat} {kinds : List Token.Kind}
    {es : List Expr} (h : Grammar.Derives c d kinds es) :
    ∀ name ∈ (reversePolishAll es).names, .word name ∈ kinds := by
  induction h with
  | ofAtom _ ih | ofPower _ ih | ofSigned _ ih | ofProduct _ ih | oneArgument _ ih => exact ih
  | number d x => exact nofun
  | constant d hc =>
    intro name hname
    rw [← Constant.name_of_named? hc, List.mem_singleton.mp hname]
    exact List.mem_cons_self
  | emptyCall d hf =>
    intro name hname
    rw [← Function.name_of_named? hf, List.mem_singleton.mp hname]
    exact List.mem_cons_self
  | call hf _ ih =>
    intro name hname
    rw [names_call, List.mem_append, List.mem_singleton, Function.name_of_named? hf] at hname
    rcases hname with hname | rfl
    · simp [ih name hname]
    · exact List.mem_cons_self
  | nextArgument _ _ ihs ih =>
    intro name hname
    rw [reversePolishAll_append, names_append, List.mem_append] at hname
    rcases hname with hname | hname
    · simp [ihs name hname]
    · simp [ih name hname]
  | group _ ih | positive _ ih =>
    intro name hname
    simp [ih name hname]
  | negative _ ih =>
    intro name hname
    rw [names_negate] at hname
    simp [ih name hname]
  | raised _ _ ihl ihr | times _ _ ihl ihr | divided _ _ ihl ihr | sideBySide _ _ _ ihl ihr
  | plus _ _ ihl ihr | minus _ _ ihl ihr =>
    intro name hname
    rw [names_binary, List.mem_append] at hname
    rcases hname with hname | hname
    · simp [ihl name hname]
    · simp [ihr name hname]

end Expr

theorem Program.names_of_ofTokens {length : Nat} {p : Program} (h : ofTokens ts length = .ok p) :
    ∀ name ∈ p.names, Catalogue.contains name = true ∧ ∃ t ∈ ts, t.kind = .word name := by
  intro name hname
  obtain ⟨e, hwrites, rfl⟩ := exists_writes_of_ofTokens h
  constructor
  · obtain ⟨i, -, hi⟩ := List.mem_filterMap.mp hname
    exact i.contains_of_name? hi
  · rw [Expr.program_eq_reversePolish, ← Expr.reversePolishAll_singleton] at hname
    exact List.mem_map.mp (Expr.word_mem_of_derives hwrites name hname)

end Reckoner
