import Reckoner.Proofs.Squeezing
import Reckoner.Proofs.Token.NormalForm

set_option autoImplicit false

namespace Reckoner

namespace Token

open Text

def isConstant (t : Token) : Bool :=
  match t.kind with
  | .word w => (Constant.find? w).isSome
  | _ => false

def isWordOrDigits (t : Token) : Bool :=
  match t.kind with
  | .word _ => true
  | .number _ => t.chars.head?.any Char.isDigit
  | _ => false

/-- Whether the two would be one word without the blank between them. -/
def fusesWith (t u : Token) : Bool := t.isConstant && u.isWordOrDigits

/-- Some constant has a word or a digit as its next token. -/
def SomeFuse (ts : List Token) : Prop :=
  ∃ before t u after, ts = before ++ t :: u :: after ∧ t.fusesWith u = true

variable {t u : Token} {ts : List Token} {k : Nat}

theorem not_someFuse_iff : ¬SomeFuse ts ↔ ts.IsChain fun t u => t.fusesWith u = false := by
  rw [List.isChain_iff_forall_rel_of_append_cons_cons]
  constructor
  · intro h t u before after hts
    exact Bool.eq_false_iff.mpr fun hfuse => h ⟨before, t, u, after, hts, hfuse⟩
  · rintro h ⟨before, t, u, after, hts, hfuse⟩
    rw [h hts] at hfuse
    cases hfuse

instance (ts : List Token) : Decidable (SomeFuse ts) :=
  decidable_of_iff (¬ts.IsChain fun t u => t.fusesWith u = false)
    (by rw [← not_someFuse_iff, not_not])

theorem find?_canonicalWord (w : String) :
    Constant.find? (Catalogue.canonicalWord w) = Constant.find? w := by
  have hupper : uppercase (Catalogue.canonicalWord w) = uppercase w := by
    rw [← uppercase_lowercase, lowercase_canonicalWord, uppercase_lowercase]
  rw [Constant.find?, hupper, Constant.find?]

theorem isConstant_recased (t : Token) : t.recased.isConstant = t.isConstant := by
  obtain ⟨kind, position, text⟩ := t
  cases kind with
  | word w =>
    change (Constant.find? (Catalogue.canonicalWord w)).isSome = (Constant.find? w).isSome
    rw [find?_canonicalWord]
  | _ => rfl

theorem isWordOrDigits_recased (t : Token) : t.recased.isWordOrDigits = t.isWordOrDigits := by
  obtain ⟨kind, position, text⟩ := t
  cases kind <;> rfl

theorem someFuse_recased : SomeFuse (ts.map recased) ↔ SomeFuse ts := by
  rw [← not_iff_not, not_someFuse_iff, not_someFuse_iff, List.isChain_map]
  simp only [fusesWith, isConstant_recased, isWordOrDigits_recased]

theorem someFuse_moved : SomeFuse (ts.map (moved k)) ↔ SomeFuse ts := by
  rw [← not_iff_not, not_someFuse_iff, not_someFuse_iff, List.isChain_map]
  rfl

theorem Spelled.exists_part (hu : Spelled u.kind u.chars) (hbegin : u.isWordOrDigits = true) :
    ∃ d more, u.chars = d :: more ∧ isWordPart d = true := by
  obtain ⟨d, more, hchars, hhead⟩ := hu.exists_head
  refine ⟨d, more, hchars, ?_⟩
  rcases hhead with ⟨hsymbol, -⟩ | ⟨hstart, -⟩ | ⟨-, x, hnumber⟩
  · obtain ⟨hword, hnumber⟩ := symbol?_plain hsymbol
    unfold isWordOrDigits at hbegin
    split at hbegin
    · next w hw => exact absurd hw (hword w)
    · next x hx => exact absurd hx (hnumber x)
    · cases hbegin
  · exact isWordPart_of_isWordStart hstart
  · rw [isWordOrDigits, hnumber] at hbegin
    exact isWordPart_of_isDigit (by simpa [hchars] using hbegin)

/-- Between neighbours in the grammar, only a constant goes on into the next token. -/
theorem runsInto_iff (hu : Spelled u.kind u.chars) (hadjoins : Grammar.Adjoins t.kind u.kind) :
    t.runsInto u = true ↔ t.fusesWith u = true := by
  rw [fusesWith, Bool.and_eq_true]
  constructor
  · intro hinto
    obtain ⟨c, d, more, hkind, hchars, -, hbegin⟩ := hu.constant_of_goesOn hadjoins hinto
    have hfind : Constant.find? c.name = some c := by
      rw [Constant.find?, c.uppercase_name, c.named?_name]
    refine ⟨by simp [isConstant, hkind, hfind], ?_⟩
    rcases hbegin with ⟨hdigit, x, hnumber⟩ | hword
    · simp [isWordOrDigits, hnumber, hchars, hdigit]
    · simp [isWordOrDigits, hword]
  · rintro ⟨hconstant, hbegin⟩
    obtain ⟨w, hkind⟩ : ∃ w, t.kind = .word w := by
      unfold isConstant at hconstant
      split at hconstant
      · next w hw => exact ⟨w, hw⟩
      · cases hconstant
    obtain ⟨d, more, hchars, hpart⟩ := hu.exists_part hbegin
    simp [runsInto, hkind, hchars, Kind.goesOn, hpart]

theorem keepApart_iff (hspelled : ∀ t ∈ ts, Spelled t.kind t.chars)
    (hadjoins : (ts.map Token.kind).IsChain Grammar.Adjoins) : KeepApart ts ↔ ¬SomeFuse ts := by
  rw [List.isChain_map, List.isChain_iff_forall_rel_of_append_cons_cons] at hadjoins
  rw [not_someFuse_iff, KeepApart, List.isChain_iff_forall_rel_of_append_cons_cons,
    List.isChain_iff_forall_rel_of_append_cons_cons]
  have hpair {before after : List Token} {t u : Token} (hts : ts = before ++ t :: u :: after) :
      t.runsInto u = false ↔ t.fusesWith u = false := by
    have hu : u ∈ ts := by simp [hts]
    rw [Bool.eq_false_iff, Bool.eq_false_iff, ne_eq, ne_eq,
      runsInto_iff (hspelled u hu) (hadjoins hts)]
  exact ⟨fun h _ _ _ _ hts => (hpair hts).mp (h hts), fun h _ _ _ _ hts => (hpair hts).mpr (h hts)⟩

end Token

namespace Evaluator

variable {ev : Evaluator} {expression : String} {precision : Nat} {x : Binary64}

/-- An expression that has a value keeps it without the blanks of its normal form as long as no
constant has a word or a digit as its next token. Otherwise it is refused for a word, and for
nothing else. -/
theorem evaluate_squeezed (h : ev.evaluate expression precision = .ok x) :
    ∃ normal tokens, ev.normalize expression = .ok normal ∧ Token.ofText expression = .ok tokens ∧
      (¬Token.SomeFuse tokens → ev.evaluate (Text.withoutBlanks normal) precision = .ok x) ∧
      (Token.SomeFuse tokens → ∃ w,
        ev.evaluate (Text.withoutBlanks normal) precision = .error (.unknownIdentifier w)) := by
  obtain ⟨-, normal, hnormal, -⟩ := evaluate_eq_ok h
  obtain ⟨ts, program, hcompile⟩ := exists_compile_of_evaluate hnormal h
  obtain ⟨hts, e, he, -⟩ := compile_eq_ok_iff.mp hcompile
  obtain ⟨tokens, k, htokens, hsame⟩ := Token.exists_tokens_of_normalize hnormal hts
  have happart : Token.KeepApart ts ↔ ¬Token.SomeFuse tokens := by
    rw [← Token.someFuse_recased, hsame, Token.someFuse_moved]
    exact Token.keepApart_iff (Token.written_of_scan hts).2 (Grammar.adjoining_of_derives he).pairs
  refine ⟨normal, tokens, hnormal, htokens, fun hnone => ?_, fun hsome => ?_⟩
  · rw [evaluate_withoutBlanks hnormal hcompile (happart.mpr hnone) precision, h]
  · exact evaluate_withoutBlanks_unknown hnormal hcompile
      (fun hts => happart.mp hts hsome) precision

def apartTokens : List Token :=
  [⟨.number (2 * Decimal.one), 1, "2"⟩, ⟨.word "pi", 3, "pi"⟩, ⟨.number (5 * 10 ^ 63), 6, ".5"⟩]

def fusingTokens : List Token :=
  [⟨.word "e", 0, "e"⟩, ⟨.word "SIN", 2, "SIN"⟩, ⟨.openParen, 5, "("⟩, ⟨.number 0, 6, "0"⟩,
    ⟨.closeParen, 7, ")"⟩]

theorem evaluate_squeezed_apart_and_fusing :
    (∃ x, evaluate {} " 2 pi .5" 5 = .ok x ∧ evaluate {} (Text.withoutBlanks "2 PI .5") 5 = .ok x) ∧
      ∃ x w, evaluate {} "e SIN(0)" 5 = .ok x ∧
        evaluate {} (Text.withoutBlanks "E sin(0)") 5 = .error (.unknownIdentifier w) := by
  constructor
  · have hvalue : evaluate {} " 2 pi .5" 5 = .ok (.finite false 7074231776675438 (-51)) := by
      decide +kernel
    have hnormal : normalize {} " 2 pi .5" = .ok "2 PI .5" := by decide +kernel
    have htokens : Token.ofText " 2 pi .5" = .ok apartTokens := by decide +kernel
    obtain ⟨normal, tokens, hnormal', htokens', hsame, -⟩ := evaluate_squeezed hvalue
    obtain rfl := Except.ok.inj (hnormal.symm.trans hnormal')
    obtain rfl := Except.ok.inj (htokens.symm.trans htokens')
    exact ⟨_, hvalue, hsame (by decide +kernel)⟩
  · have hvalue : evaluate {} "e SIN(0)" 5 = .ok (.finite false 0 (-1074)) := by decide +kernel
    have hnormal : normalize {} "e SIN(0)" = .ok "E sin(0)" := by decide +kernel
    have htokens : Token.ofText "e SIN(0)" = .ok fusingTokens := by decide +kernel
    obtain ⟨normal, tokens, hnormal', htokens', -, hfused⟩ := evaluate_squeezed hvalue
    obtain rfl := Except.ok.inj (hnormal.symm.trans hnormal')
    obtain rfl := Except.ok.inj (htokens.symm.trans htokens')
    obtain ⟨w, hw⟩ := hfused (by decide +kernel)
    exact ⟨_, w, hvalue, hw⟩

end Evaluator

end Reckoner
