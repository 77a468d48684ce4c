import Reckoner.Proofs.Classification
import Reckoner.Proofs.Reply
import Reckoner.Proofs.Shell.Answering

set_option autoImplicit false

namespace Reckoner

namespace Text

theorem isAllBlank_trim {w : String} (hw : isAllBlank w = false) :
    isAllBlank (trim w) = false := by
  rw [← Bool.not_eq_true, ← trim_eq_empty_iff] at hw ⊢
  rwa [trim_trim]

end Text

namespace Evaluator

variable (ev : Evaluator) (w : String) (precision : Nat)

theorem normalize_trim : ev.normalize (Text.trim w) = ev.normalize w := by
  rw [normalize, normalize, Text.trim_trim]

theorem evaluate_trim : ev.evaluate (Text.trim w) precision = ev.evaluate w precision := by
  rw [evaluate, evaluate, normalize_trim]

theorem walkthrough_trim : ev.walkthrough (Text.trim w) = ev.walkthrough w := by
  rw [walkthrough, walkthrough, normalize_trim]

theorem evaluate_min_precisionLimit :
    ev.evaluate w (min precision precisionLimit) = ev.evaluate w precision := by
  have hclassify : classify (min precision precisionLimit) = classify precision := by
    funext v
    rw [classify, classify, min_assoc, min_self]
  rw [evaluate, evaluate, hclassify]

end Evaluator

namespace Shell

variable {o : Options} {s t : Session} {w : String}

theorem ofLine_append {ending : String} (hw : Text.isAllBlank w = false)
    (hcolon : (Text.trim w).toList.head? ≠ some ':')
    (hending : ∀ ch ∈ ending.toList, Text.isBlank ch = true) :
    Entry.ofLine (w ++ ending) = .expression (Text.trim w) := by
  have hne : Text.trim w ≠ "" := by
    rw [Ne, Text.trim_eq_empty_iff, hw]
    exact Bool.false_ne_true
  rw [Text.trim, String.toList_ofList] at hcolon
  rw [Text.trim, Ne, Text.ofList_eq_empty_iff] at hne
  obtain ⟨c, cs, htrim⟩ := List.exists_cons_of_ne_nil hne
  have hline : Text.trimChars (w ++ ending).toList = c :: cs := by
    rw [String.toList_append, Text.trimChars_append hending, htrim]
  rw [htrim, List.head?_cons] at hcolon
  rw [ofLine_expression hline fun hc => hcolon (congrArg some hc), Text.trim_append hending]

theorem exists_turn (o : Options) (stamp : Nat → Stamp) (s : Session) (n : Nat) (line : String)
    (after : List String) {before : List String} (h : ∀ l ∈ before, Entry.ofLine l ≠ .quit) :
    ∃ t m, t.evaluator = s.evaluator ∧ t.precision = s.precision ∧
      (converse o stamp s n (before ++ line :: after))[before.length]? =
        some (respond o (stamp m) t line) := by
  induction before generalizing s n with
  | nil =>
    refine ⟨s, n, rfl, rfl, ?_⟩
    rw [List.nil_append, List.length_nil]
    by_cases hquit : Entry.ofLine line = .quit
    · rw [converse_of_quit hquit]
      rfl
    · rw [converse_of_ne_quit hquit]
      rfl
  | cons first rest ih =>
    obtain ⟨hfirst, hrest⟩ := List.forall_mem_cons.mp h
    obtain ⟨t, m, hevaluator, hprecision, hturn⟩ :=
      ih (respond o (stamp n) s first).session ((respond o (stamp n) s first).count n) hrest
    obtain ⟨hsame, hsame'⟩ := settings_answer o (stamp n) s (.ofLine first)
    refine ⟨t, m, hevaluator.trans hsame, hprecision.trans hsame', ?_⟩
    rw [List.cons_append, converse_of_ne_quit hfirst, List.length_cons, List.getElem?_cons_succ]
    exact hturn

/-- The texts that an expression is answered with, by its result alone. -/
def expressionShown (o : Options) (s : Session) (w : String) : String × String :=
  (resultText o (.ofOutcome (s.evaluator.evaluate w s.precision)) ++ "\n", walkthroughText o s w)

theorem live_enter (hw : Text.isAllBlank w = false) (s : Session) :
    (s.enter w).live = .ofOutcome (s.evaluator.evaluate w s.precision) :=
  if_pos (by rw [Session.hasInput, hw]; rfl)

theorem shown_calculate (stamp : Stamp) (s : Session) (hw : Text.isAllBlank w = false) :
    (calculate o stamp s w).shown = expressionShown o s w := by
  rcases calculate_cases o stamp s w with ⟨e, -, h⟩ | ⟨x, i, hx, h⟩
  · rw [h, expressionShown, ← live_enter hw]
    rfl
  · rw [h, expressionShown, hx]
    rfl

theorem expressionShown_congr (hevaluator : t.evaluator = s.evaluator)
    (hprecision : t.precision = s.precision) :
    expressionShown o t w = expressionShown o s w := by
  rw [expressionShown, expressionShown, walkthroughText, walkthroughText, hevaluator, hprecision]

theorem expressionShown_trim (s : Session) (w : String) :
    expressionShown o s (Text.trim w) = expressionShown o s w := by
  rw [expressionShown, expressionShown, walkthroughText, walkthroughText, Evaluator.evaluate_trim,
    Evaluator.walkthrough_trim]

end Shell

namespace Options

variable {o : Options} {s : Session} {w : String}

theorem resultText_withWords (o : Options) (words : List String) (live : Live) :
    Shell.resultText { o with words } live = Shell.resultText o live :=
  rfl

theorem walkthroughText_enter (o : Options) (words : List String) (s : Session) (w : String) :
    Shell.walkthroughText { o with words } (s.enter w) w = Shell.walkthroughText o s w :=
  rfl

theorem answerOnce_eq (hw : Text.isAllBlank w = false) (s : Session) :
    { o with words := [w] }.answerOnce s =
      { code := if (s.evaluator.evaluate w s.precision).isOk then 0 else 1
        printed := (Shell.expressionShown o s w).1
        diagnostics := (Shell.expressionShown o s w).2 } := by
  have hexpression : " ".intercalate [w] = w := String.intercalate_singleton
  simp only [answerOnce, hexpression, Shell.live_enter hw, resultText_withWords,
    walkthroughText_enter, Shell.expressionShown]
  cases s.evaluator.evaluate w s.precision <;> rfl

theorem okOf?_expressionShown (hjson : o.json = true) (s : Session) (w : String) :
    Reply.okOf? (Shell.expressionShown o s w).1 =
      some (s.evaluator.evaluate w s.precision).isOk := by
  have hspace : ∀ c ∈ "\n".toList, Json.Reader.isSpace c = true := by
    intro c hc
    rw [List.mem_singleton.mp hc]
    rfl
  have hresult (live : Live) : Shell.resultText o live = live.reply.json := if_pos hjson
  rw [Shell.expressionShown, hresult]
  cases hvalue : s.evaluator.evaluate w s.precision with
  | ok x =>
    exact Reply.okOf?_json (show Reply.Writable (.value x) from Evaluator.canonical_of_evaluate hvalue)
      hspace
  | error e => exact Reply.okOf?_json (show Reply.Writable (.error e.message) from trivial) hspace

end Options

namespace Command

variable {o : Options} {files : Files} {c : Settings} {w : String}

theorem launch_of_no_words (hsettings : o.settings files = .ok c) (hwords : o.words = []) :
    (run o).launch files = .interactive o (.start c) := by
  simp only [launch, hsettings, hwords, List.isEmpty_nil, if_true]

theorem launch_of_word (hsettings : o.settings files = .ok c) (w : String) :
    (run { o with words := [w] }).launch files =
      .finished ({ o with words := [w] }.answerOnce (.start c)) := by
  have hsame : { o with words := [w] }.settings files = .ok c := hsettings
  simp only [launch, hsame, List.isEmpty_cons, Bool.false_eq_true, if_false]

/-- An expression is answered alike when it is given at once and when it is typed after any other
lines, and the exit code says whether it has a result. -/
theorem launch_agrees (files : Files) (o : Options) (c : Settings) (stamp : Nat → Stamp)
    (before after : List String) (w ending : String) (hsettings : o.settings files = .ok c)
    (hwords : o.words = []) (hbefore : ∀ line ∈ before, Shell.Entry.ofLine line ≠ .quit)
    (hw : Text.isAllBlank w = false) (hcolon : (Text.trim w).toList.head? ≠ some ':')
    (hending : ∀ ch ∈ ending.toList, Text.isBlank ch = true) :
    ∃ s turn outcome, (run o).launch files = .interactive o s ∧
      (Shell.converse o stamp s 0 (before ++ (w ++ ending) :: after))[before.length]? = some turn ∧
      (run { o with words := [w] }).launch files = .finished outcome ∧
      turn.printed = outcome.printed ∧ turn.diagnostics = outcome.diagnostics ∧
      (outcome.code = 0 ↔ ∃ x, Evaluator.evaluate ⟨c.maxLength⟩ w c.precision = .ok x) ∧
      (o.json = true → Reply.okOf? outcome.printed = some (decide (outcome.code = 0))) := by
  obtain ⟨t, m, hevaluator, hprecision, hturn⟩ :=
    Shell.exists_turn o stamp (.start c) 0 (w ++ ending) after hbefore
  have hvalue : (Session.start c).evaluator.evaluate w (Session.start c).precision =
      Evaluator.evaluate ⟨c.maxLength⟩ w c.precision :=
    Evaluator.evaluate_min_precisionLimit ⟨c.maxLength⟩ w c.precision
  -- Neither the blanks around the expression nor the lines before it show in the answer.
  have hshown : (Shell.respond o (stamp m) t (w ++ ending)).shown =
      Shell.expressionShown o (.start c) w := by
    rw [Shell.respond, Shell.ofLine_append hw hcolon hending, Shell.answer_expression,
      Shell.shown_calculate _ _ (Text.isAllBlank_trim hw), Shell.expressionShown_trim,
      Shell.expressionShown_congr hevaluator hprecision]
  refine ⟨_, _, _, launch_of_no_words hsettings hwords, hturn, launch_of_word hsettings w, ?_, ?_,
    ?_, ?_⟩ <;> rw [Options.answerOnce_eq hw]
  · exact congrArg Prod.fst hshown
  · exact congrArg Prod.snd hshown
  · rw [hvalue]
    cases Evaluator.evaluate ⟨c.maxLength⟩ w c.precision <;> simp [Except.isOk, Except.toBool]
  · intro hjson
    rw [Options.okOf?_expressionShown hjson]
    cases (Session.start c).evaluator.evaluate w (Session.start c).precision <;> rfl

def noFiles : Files := ⟨fun _ => .error .missing, none⟩

def precise : Options := { precision := some 3, json := true, walkthrough := true }

def earlier : List String := ["1/3\n", ":recall x\n", "2 +\n", "\n", ":clear\n"]

theorem launch_agrees_twoPi : ∃ s turn outcome,
    (run precise).launch noFiles = .interactive precise s ∧
      (Shell.converse precise (fun n => ⟨⟨BitVec.ofNat 128 n⟩, n⟩) s 0
        (earlier ++ (" 2 Pi\t" ++ "\n") :: [":history\n"]))[earlier.length]? = some turn ∧
      (run { precise with words := [" 2 Pi\t"] }).launch noFiles = .finished outcome ∧
      turn.printed = outcome.printed ∧ turn.diagnostics = outcome.diagnostics ∧
      (outcome.code = 0 ↔ ∃ x, Evaluator.evaluate ⟨4096⟩ " 2 Pi\t" 3 = .ok x) ∧
      (precise.json = true → Reply.okOf? outcome.printed = some (decide (outcome.code = 0))) :=
  launch_agrees noFiles precise { precision := 3 } _ earlier _ " 2 Pi\t" "\n" rfl rfl
    (by decide +kernel) (by decide +kernel) (by decide +kernel)
    fun ch hch => by rw [List.mem_singleton.mp hch]; rfl

end Command

end Reckoner
