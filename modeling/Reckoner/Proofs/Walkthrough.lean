import Reckoner.Proofs.Kinds
import Reckoner.Proofs.Text.Case

set_option autoImplicit false

namespace Reckoner.Token

open Text

variable {t : Token} {ts : List Token}

def spaced (ts : List Token) : List Char := ts.flatMap fun t => ' ' :: t.chars

theorem spaced_cons (t : Token) (ts : List Token) :
    spaced (t :: ts) = ' ' :: (t.chars ++ spaced ts) := by
  rw [spaced, List.flatMap_cons, List.cons_append]
  rfl

theorem toList_showAll_cons (t : Token) (ts : List Token) :
    (showAll (t :: ts)).toList = t.chars ++ spaced ts := by
  have hspace : " ".toList = [' '] := rfl
  rw [showAll, String.toList_intercalate, hspace, List.map_cons, List.map_cons]
  induction ts generalizing t with
  | nil =>
    rw [List.map_nil, List.map_nil, List.intercalate_singleton]
    exact (List.append_nil _).symm
  | cons u us ih =>
    rw [List.map_cons, List.map_cons, List.intercalate_cons_cons, ih u, spaced_cons,
      List.append_assoc, List.singleton_append]
    rfl

theorem goesOn_spaced (kind : Kind) : ∀ c ∈ (spaced ts).head?, kind.goesOn c = false := by
  intro c hc
  cases ts with
  | nil => cases hc
  | cons t ts =>
    obtain rfl := Option.some.inj hc
    exact goesOn_of_isBlank (by decide) kind

theorem scan_front {us : List Token} {position : Nat} (ht : Spelled t.kind t.chars)
    (hus : scan (position + t.chars.length) (spaced ts) = .ok us) :
    scan position (t.chars ++ spaced ts) = .ok (⟨t.kind, position, t.text⟩ :: us) := by
  have htext : String.ofList t.chars = t.text := String.ofList_toList
  rw [scan_append ht (goesOn_spaced t.kind), htext]
  exact map_eq_ok_iff.mpr ⟨us, hus, rfl⟩

theorem scan_spaced (hspelled : ∀ t ∈ ts, Spelled t.kind t.chars) (position : Nat) :
    ∃ us, scan position (spaced ts) = .ok us ∧ us.map Token.kind = ts.map Token.kind ∧
      us.map Token.text = ts.map Token.text := by
  induction ts generalizing position with
  | nil => exact ⟨[], by rw [spaced, List.flatMap_nil, scan], rfl, rfl⟩
  | cons t ts ih =>
    obtain ⟨ht, hts⟩ := List.forall_mem_cons.mp hspelled
    obtain ⟨us, hus, hkinds, htexts⟩ := ih hts (position + 1 + t.chars.length)
    refine ⟨⟨t.kind, position + 1, t.text⟩ :: us, ?_, by rw [List.map_cons, hkinds, List.map_cons],
      by rw [List.map_cons, htexts, List.map_cons]⟩
    rw [spaced_cons, scan, if_pos (by decide)]
    exact scan_front ht hus

/-- What is shown of tokens is scanned as tokens of the same kinds and texts. -/
theorem ofText_showAll (hspelled : ∀ t ∈ ts, Spelled t.kind t.chars) :
    ∃ us, ofText (showAll ts) = .ok us ∧ us.map Token.kind = ts.map Token.kind ∧
      us.map Token.text = ts.map Token.text := by
  cases ts with
  | nil => exact ⟨[], by rw [ofText, showAll, List.map_nil, String.intercalate_nil,
      String.toList_empty, scan], rfl, rfl⟩
  | cons t ts =>
    obtain ⟨ht, hts⟩ := List.forall_mem_cons.mp hspelled
    obtain ⟨us, hus, hkinds, htexts⟩ := scan_spaced hts (0 + t.chars.length)
    refine ⟨⟨t.kind, 0, t.text⟩ :: us, ?_, by rw [List.map_cons, hkinds, List.map_cons],
      by rw [List.map_cons, htexts, List.map_cons]⟩
    rw [ofText, toList_showAll_cons]
    exact scan_front ht hus

theorem getLast?_front (hspelled : ∀ u ∈ ts, Spelled u.kind u.chars)
    (ht : Spelled t.kind t.chars) : ∀ c ∈ (t.chars ++ spaced ts).getLast?, isBlank c = false := by
  induction ts generalizing t with
  | nil =>
    rw [spaced, List.flatMap_nil, List.append_nil]
    exact fun c hc => ht.isBlank c (List.mem_of_mem_getLast? hc)
  | cons u us ih =>
    obtain ⟨hu, hus⟩ := List.forall_mem_cons.mp hspelled
    obtain ⟨c, more, hchars, -⟩ := hu.exists_head
    have hlast := ih hus hu
    rw [hchars, List.cons_append] at hlast
    rw [spaced_cons, hchars, List.cons_append, List.getLast?_append_cons, List.getLast?_cons_cons]
    exact hlast

theorem trim_showAll (hspelled : ∀ t ∈ ts, Spelled t.kind t.chars) :
    trim (showAll ts) = showAll ts := by
  cases ts with
  | nil => rfl
  | cons t ts =>
    obtain ⟨ht, hts⟩ := List.forall_mem_cons.mp hspelled
    obtain ⟨c, more, hchars, -⟩ := ht.exists_head
    have hhead : ∀ c ∈ (t.chars ++ spaced ts).head?, isBlank c = false := by
      intro d hd
      rw [hchars, List.cons_append, List.head?_cons] at hd
      obtain rfl := Option.some.inj hd
      exact ht.isBlank c (hchars ▸ List.mem_cons_self)
    rw [trim, toList_showAll_cons, trimChars_eq_self hhead (getLast?_front hts ht),
      ← toList_showAll_cons, String.ofList_toList]

end Reckoner.Token

namespace Reckoner.Evaluator

variable {ev : Evaluator} {expression normal text : String} {tokens us : List Token}
  {program : Program} {w : Walkthrough} {e : EvalError}

/-- The text has the walkthrough of the expression, with the same token texts and the same program,
and the same result in every precision. -/
structure ReadsAs (ev : Evaluator) (text expression : String) (w : Walkthrough) : Prop where
  walkthrough : ev.walkthrough text = .ok { w with normalForm := text }
  tokens : ∃ tokens us program, compile w.normalForm = .ok (tokens, program) ∧
    compile text = .ok (us, program) ∧ us.map Token.text = tokens.map Token.text
  evaluate : ∀ precision, ev.evaluate text precision = ev.evaluate expression precision

theorem walkthrough_eq (ev : Evaluator) (expression : String) : ev.walkthrough expression =
    ev.normalize expression >>= fun normal => (compile normal).map fun p =>
      { normalForm := normal, tokens := Token.showAll p.1, program := p.2.text } := rfl

theorem walkthrough_eq_ok_iff : ev.walkthrough expression = .ok w ↔
    ev.normalize expression = .ok w.normalForm ∧ ∃ tokens program,
      compile w.normalForm = .ok (tokens, program) ∧ w.tokens = Token.showAll tokens ∧
        w.program = program.text := by
  rw [walkthrough_eq, bind_eq_ok_iff]
  constructor
  · rintro ⟨normal, hnormal, h⟩
    obtain ⟨⟨tokens, program⟩, hcompile, rfl⟩ := map_eq_ok_iff.mp h
    exact ⟨hnormal, tokens, program, hcompile, rfl, rfl⟩
  · rintro ⟨hnormal, tokens, program, hcompile, htokens, hprogram⟩
    refine ⟨w.normalForm, hnormal, map_eq_ok_iff.mpr ⟨(tokens, program), hcompile, ?_⟩⟩
    rw [← htokens, ← hprogram]

theorem evaluate_of_walkthrough_error (h : ev.walkthrough expression = .error e) (precision : Nat) :
    ev.evaluate expression precision = .error e := by
  rw [walkthrough_eq] at h
  rcases bind_eq_error_iff.mp h with hnormal | ⟨normal, hnormal, h⟩
  · exact evaluate_of_normalize_error hnormal
  · exact evaluate_of_compile_error hnormal (map_eq_error_iff.mp h)

theorem readsAs_of_kinds (hnormal : ev.normalize expression = .ok w.normalForm)
    (hcompile : compile w.normalForm = .ok (tokens, program))
    (htokens : w.tokens = Token.showAll tokens) (hprogram : w.program = program.text)
    (hus : Token.ofText text = .ok us) (hkinds : us.map Token.kind = tokens.map Token.kind)
    (htexts : us.map Token.text = tokens.map Token.text) (htrim : Text.trim text = text)
    (hlength : text.length ≤ ev.maxLength) : ReadsAs ev text expression w := by
  have hagain := compile_of_kinds hcompile hus hkinds
  refine ⟨walkthrough_eq_ok_iff.mpr ⟨?_, us, program, hagain, ?_, hprogram⟩,
    ⟨tokens, us, program, hcompile, hagain, htexts⟩, ?_⟩
  · exact normalize_of_kinds hnormal hcompile hus hkinds htrim hlength
  · rw [Token.showAll, htexts, htokens, Token.showAll]
  · exact evaluate_of_kinds hnormal hcompile hus hkinds htrim hlength

theorem trim_of_normalize (h : ev.normalize expression = .ok normal) : Text.trim normal = normal := by
  obtain ⟨rfl, -⟩ := normalize_eq_ok h
  exact Text.trim_of_lowercase (Text.lowercase_normalize _).symm (Text.trim_trim expression)

/-- What has no walkthrough fails for the same reason when it is evaluated. Otherwise the normal form
is the one that is evaluated, and both it and the tokens, as far as their text is not too long, are
read as the expression is. -/
theorem walkthrough_faithful (ev : Evaluator) (expression : String) :
    (∀ e, ev.walkthrough expression = .error e →
        ∀ precision, ev.evaluate expression precision = .error e) ∧
      ∀ w, ev.walkthrough expression = .ok w →
        ev.normalize expression = .ok w.normalForm ∧ ReadsAs ev w.normalForm expression w ∧
          (w.tokens.length ≤ ev.maxLength → ReadsAs ev w.tokens expression w) := by
  refine ⟨fun e => evaluate_of_walkthrough_error, fun w hw => ?_⟩
  obtain ⟨hnormal, tokens, program, hcompile, htokens, hprogram⟩ := walkthrough_eq_ok_iff.mp hw
  have hscan := (compile_eq_ok_iff.mp hcompile).1
  refine ⟨hnormal, ?_, fun hlength => ?_⟩
  · exact readsAs_of_kinds hnormal hcompile htokens hprogram hscan rfl rfl (trim_of_normalize hnormal)
      (length_of_normalize hnormal)
  · have hspelled := (Token.written_of_scan hscan).2
    obtain ⟨us, hus, hkinds, htexts⟩ := Token.ofText_showAll hspelled
    rw [← htokens] at hus
    exact readsAs_of_kinds hnormal hcompile htokens hprogram hus hkinds htexts
      (htokens ▸ Token.trim_showAll hspelled) hlength

def halfSine : Walkthrough :=
  { normalForm := "5.*.5 sin(PI)", tokens := "5. * .5 sin ( PI )", program := "5 0.5 * PI sin#1 *" }

/-- Here the tokens take up the whole length that is allowed. -/
theorem walkthrough_faithful_halfSine :
    ReadsAs ⟨18⟩ "5.*.5 sin(PI)" " 5.*.5 SIN(pi)" halfSine ∧
      ReadsAs ⟨18⟩ "5. * .5 sin ( PI )" " 5.*.5 SIN(pi)" halfSine ∧
      evaluate ⟨18⟩ "2 3" 7 = .error (.malformed (.unexpectedPart "3" 2)) := by
  have hw : walkthrough ⟨18⟩ " 5.*.5 SIN(pi)" = .ok halfSine := by decide +kernel
  have he : walkthrough ⟨18⟩ "2 3" = .error (.malformed (.unexpectedPart "3" 2)) := by
    decide +kernel
  obtain ⟨-, hnormal, htokens⟩ := (walkthrough_faithful ⟨18⟩ " 5.*.5 SIN(pi)").2 _ hw
  exact ⟨hnormal, htokens (by decide +kernel), (walkthrough_faithful ⟨18⟩ "2 3").1 _ he 7⟩

end Reckoner.Evaluator
