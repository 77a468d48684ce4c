import Reckoner.Evaluator
import Reckoner.Proofs.Program.Execution
import Reckoner.Proofs.Reader.Names
import Reckoner.Proofs.Text.Words
import Reckoner.Proofs.Token.Lexing

set_option autoImplicit false

namespace Reckoner.Evaluator

variable {ev : Evaluator} {expression text normal w : String} {tokens : List Token}
  {program : Program}

/-- The expression, without the blanks around it, is neither empty nor too long, and the word is its
first unknown one. -/
def RefusedFor (ev : Evaluator) (expression w : String) : Prop :=
  Text.trim expression ≠ "" ∧ (Text.trim expression).length ≤ ev.maxLength ∧
    Text.FirstUnknown (Text.trim expression) w

/-- The names in what is left of a text: in its normal form, its tokens and its program. -/
structure Vetted (text normal : String) (tokens : List Token) : Prop where
  canonical :
    Text.words normal = (Text.words text).map fun p => (p.1, Catalogue.canonicalWord p.2)
  words : tokens.filterMap (Token.wordIn? normal.toList) = Text.words normal
  allowed : ∀ t ∈ tokens, ∀ name, t.kind = .word name → Catalogue.contains name = true
  read : ∀ w, Program.ofTokens tokens normal.length ≠ .error (.unknownIdentifier w)
  program : ∀ p, Program.ofTokens tokens normal.length = .ok p → ∀ name ∈ p.names,
    Catalogue.contains name = true ∧ ∃ t ∈ tokens, t.kind = .word name

theorem contains_of_mem_tokens (hwords : ∀ p ∈ Text.words text, Catalogue.Allowed p.2)
    (h : Token.ofText (Text.normalize text) = .ok tokens) :
    ∀ t ∈ tokens, ∀ name, t.kind = .word name → Catalogue.contains name = true := by
  intro t ht name hname
  have hin : Token.wordIn? (Text.normalize text).toList t = some
      ((String.ofList ((Text.normalize text).toList.take t.position)).utf8ByteSize, name) := by
    rw [Token.wordIn?, hname]
  have hmem := List.mem_filterMap.mpr ⟨t, ht, hin⟩
  rw [Token.words_of_ofText h, Text.words_normalize] at hmem
  obtain ⟨p, hp, hcanonical⟩ := List.mem_map.mp hmem
  obtain rfl : Catalogue.canonicalWord p.2 = name := congrArg Prod.snd hcanonical
  exact Catalogue.contains_canonicalWord_iff.mpr (hwords p hp)

theorem vetted_of_ofText (hwords : ∀ p ∈ Text.words text, Catalogue.Allowed p.2)
    (h : Token.ofText (Text.normalize text) = .ok tokens) :
    Vetted text (Text.normalize text) tokens := by
  have hallowed := contains_of_mem_tokens hwords h
  refine ⟨Text.words_normalize text, Token.words_of_ofText h, hallowed, ?_,
    fun p => Program.names_of_ofTokens⟩
  intro w hw
  obtain ⟨t, ht, hname, hw⟩ := Program.ofTokens_eq_unknown hw
  rw [hallowed t ht w hname] at hw
  cases hw

theorem normalize_eq (ev : Evaluator) (expression : String) : ev.normalize expression =
    if Text.trim expression = "" then .error .empty
    else if ev.maxLength < (Text.trim expression).length then
      .error (.malformed (.tooLong (Text.trim expression).length ev.maxLength))
    else (Text.checkWords (Text.normalize (Text.trim expression))).map
      fun _ => Text.normalize (Text.trim expression) := by
  unfold normalize
  simp only [String.isEmpty_iff]
  split
  · rfl
  · split
    · rfl
    · cases Text.checkWords (Text.normalize (Text.trim expression)) <;> rfl

theorem normalize_eq_unknown_iff :
    ev.normalize expression = .error (.unknownIdentifier w) ↔ ev.RefusedFor expression w := by
  rw [normalize_eq, RefusedFor, ← Text.checkWords_normalize_eq_error_iff]
  split
  · next hempty => simp [hempty]
  · next hempty =>
    split
    · next hlong => simp [hlong]
    · next hlong => simp [hempty, Nat.le_of_not_lt hlong, map_eq_error_iff]

theorem normalize_eq_ok (h : ev.normalize expression = .ok normal) :
    normal = Text.normalize (Text.trim expression) ∧
      ∀ p ∈ Text.words (Text.trim expression), Catalogue.Allowed p.2 := by
  rw [normalize_eq] at h
  split at h
  · cases h
  · split at h
    · cases h
    · obtain ⟨_, hcheck, rfl⟩ := map_eq_ok_iff.mp h
      exact ⟨rfl, Text.checkWords_normalize_eq_ok_iff.mp hcheck⟩

theorem length_of_normalize (h : ev.normalize expression = .ok normal) :
    normal.length ≤ ev.maxLength := by
  obtain ⟨rfl, -⟩ := normalize_eq_ok h
  rw [Text.length_normalize]
  rw [normalize_eq] at h
  split at h
  · cases h
  · split at h
    · cases h
    · omega

theorem vetted_of_normalize (h : ev.normalize expression = .ok normal)
    (htokens : Token.ofText normal = .ok tokens) : Vetted (Text.trim expression) normal tokens := by
  obtain ⟨rfl, hwords⟩ := normalize_eq_ok h
  exact vetted_of_ofText hwords htokens

theorem compile_eq (normal : String) : compile normal = (Token.ofText normal) >>= fun tokens =>
    (Program.ofTokens tokens normal.length).map fun program => (tokens, program) := rfl

theorem compile_eq_ok_iff : compile normal = .ok (tokens, program) ↔
    Token.ofText normal = .ok tokens ∧ ∃ e, Grammar.Writes tokens e ∧ e.program = program := by
  rw [compile_eq, bind_eq_ok_iff]
  constructor
  · rintro ⟨ts, hts, h⟩
    obtain ⟨p, hp, heq⟩ := map_eq_ok_iff.mp h
    cases heq
    obtain ⟨e, he, rfl⟩ := Program.exists_writes_of_ofTokens hp
    exact ⟨hts, e, he, rfl⟩
  · rintro ⟨htokens, e, he, rfl⟩
    exact ⟨tokens, htokens, map_eq_ok_iff.mpr ⟨_, Program.ofTokens_of_writes he, rfl⟩⟩

theorem compile_ne_unknown (h : ev.normalize expression = .ok normal) :
    compile normal ≠ .error (.unknownIdentifier w) := by
  rw [compile_eq]
  intro hcompile
  rcases bind_eq_error_iff.mp hcompile with hlex | ⟨tokens, hlex, hread⟩
  · obtain ⟨_, _, hlex⟩ := Token.scan_error hlex
    cases hlex
  · exact (vetted_of_normalize h hlex).read w (map_eq_error_iff.mp hread)

theorem classify_ne_unknown (precision : Nat) (v : Number) :
    classify precision v ≠ .error (.unknownIdentifier w) := by
  unfold classify
  cases v.toBinary64 (min precision precisionLimit) <;> exact nofun

theorem run_ne_unknown (h : compile normal = .ok (tokens, program)) :
    program.run ≠ .error (.unknownIdentifier w) := by
  intro hrun
  obtain ⟨-, e, -, rfl⟩ := compile_eq_ok_iff.mp h
  cases Program.ofOperation_of_run hrun

theorem evaluate_eq_unknown_iff (precision : Nat) :
    ev.evaluate expression precision = .error (.unknownIdentifier w) ↔
      ev.normalize expression = .error (.unknownIdentifier w) := by
  unfold evaluate
  -- Behind the check, no stage names a word.
  rw [bind_eq_error_iff, or_iff_left]
  rintro ⟨normal, hnormal, h⟩
  rcases bind_eq_error_iff.mp h with hcompile | ⟨⟨tokens, program⟩, hcompile, h⟩
  · exact compile_ne_unknown hnormal hcompile
  · rcases bind_eq_error_iff.mp h with hrun | ⟨v, -, hclassify⟩
    · exact run_ne_unknown hcompile hrun
    · exact classify_ne_unknown precision v hclassify

theorem walkthrough_eq_unknown_iff :
    ev.walkthrough expression = .error (.unknownIdentifier w) ↔
      ev.normalize expression = .error (.unknownIdentifier w) := by
  unfold walkthrough
  rw [bind_eq_error_iff, or_iff_left]
  rintro ⟨normal, hnormal, h⟩
  rcases bind_eq_error_iff.mp h with hcompile | ⟨_, -, h⟩
  · exact compile_ne_unknown hnormal hcompile
  · cases h

/-- An expression is refused for a word exactly when the word is its first unknown one, whoever asks
and whatever else is wrong. Otherwise the words of the text, in canonical case, are the word tokens,
and no name but an allowed one is left. -/
theorem unknownIdentifier_iff (ev : Evaluator) (expression : String) (precision : Nat) :
    (∀ w, (ev.evaluate expression precision = .error (.unknownIdentifier w) ↔
          ev.RefusedFor expression w) ∧
        (ev.normalize expression = .error (.unknownIdentifier w) ↔ ev.RefusedFor expression w) ∧
        (ev.walkthrough expression = .error (.unknownIdentifier w) ↔
          ev.RefusedFor expression w)) ∧
      ∀ normal tokens, ev.normalize expression = .ok normal → Token.ofText normal = .ok tokens →
        Vetted (Text.trim expression) normal tokens := by
  refine ⟨fun w => ⟨?_, normalize_eq_unknown_iff, ?_⟩, fun _ _ => vetted_of_normalize⟩
  · rw [evaluate_eq_unknown_iff, normalize_eq_unknown_iff]
  · rw [walkthrough_eq_unknown_iff, normalize_eq_unknown_iff]

def sineTokens : List Token :=
  [⟨.number (2 * Decimal.one), 0, "2"⟩, ⟨.word "sin", 2, "sin"⟩, ⟨.openParen, 5, "("⟩,
    ⟨.word "PI", 6, "PI"⟩, ⟨.slash, 8, "/"⟩, ⟨.number (6 * Decimal.one), 9, "6"⟩,
    ⟨.closeParen, 10, ")"⟩]

theorem refusedFor_and_vetted :
    RefusedFor {} "1..2+2alert)" "alert" ∧
      Vetted (Text.trim "2 SIN(pi/6)") "2 sin(PI/6)" sineTokens := by
  have hrefused : normalize {} "1..2+2alert)" = .error (.unknownIdentifier "alert") := by
    decide +kernel
  have hnormal : normalize {} "2 SIN(pi/6)" = .ok "2 sin(PI/6)" := by decide +kernel
  have htokens : Token.ofText "2 sin(PI/6)" = .ok sineTokens := by decide +kernel
  exact ⟨((unknownIdentifier_iff {} "1..2+2alert)" 5).1 "alert").2.1.mp hrefused,
    (unknownIdentifier_iff {} "2 SIN(pi/6)" 5).2 _ _ hnormal htokens⟩

end Reckoner.Evaluator
