import Reckoner.Proofs.Session.Invariant
import Reckoner.Proofs.Squeezing

set_option autoImplicit false

namespace Reckoner

/-- No token of the expression goes on into the next one without the blanks between them. -/
def Evaluator.KeepsApart (ev : Evaluator) (expression : String) : Prop :=
  ∃ normal tokens, ev.normalize expression = .ok normal ∧ Token.ofText normal = .ok tokens ∧
    Token.KeepApart tokens

namespace Session

variable {c : Settings} {s : Session} {i : Item}

theorem mem_items_of_perform {a : Action} (h : i ∈ (s.perform a).history.items) :
    i ∈ s.history.items ∨ ∃ stamp, a = .submit stamp ∧ stamp.id = i.id := by
  cases a with
  | enter text | setPrecision precision | clearInput => exact .inl h
  | submit stamp =>
    rw [perform] at h
    rcases s.submit_cases stamp with ⟨e, -, hsubmit⟩ | ⟨normal, x, -, -, -, hsubmit⟩
    · rw [hsubmit] at h
      exact .inl h
    · rw [hsubmit] at h
      rcases List.mem_cons.mp (List.mem_of_mem_take h) with rfl | h
      · exact .inr ⟨stamp, rfl, rfl⟩
      · exact .inl h
  | reload id =>
    rw [perform, reload?] at h
    cases hfind : s.history.find? id with
    | none =>
      rw [hfind] at h
      exact .inl h
    | some j =>
      rw [hfind] at h
      exact .inl h
  | delete id =>
    rw [perform, delete?] at h
    split at h
    · exact .inl (List.mem_of_mem_eraseP h)
    · exact .inl h
  | clearHistory => cases h
  | reset => cases h

theorem mem_items_of_performAll {actions : List Action}
    (h : i ∈ (s.performAll actions).history.items) :
    i ∈ s.history.items ∨ ∃ stamp, .submit stamp ∈ actions ∧ stamp.id = i.id := by
  induction actions generalizing s with
  | nil => exact .inl h
  | cons a rest ih =>
    -- Looked at from the end: an item of the rest, of the first action, or of the start.
    rcases ih h with h | ⟨stamp, hmem, hid⟩
    · rcases mem_items_of_perform h with h | ⟨stamp, rfl, hid⟩
      · exact .inl h
      · exact .inr ⟨stamp, List.mem_cons_self, hid⟩
    · exact .inr ⟨stamp, List.mem_cons_of_mem a hmem, hid⟩

/-- An item that alone has its identifier stays alone with it when nothing is submitted under it. -/
theorem unique_of_performAll {actions : List Action}
    (hunique : ∀ j ∈ s.history.items, j.id = i.id → j = i)
    (hother : ∀ other, .submit other ∈ actions → other.id ≠ i.id) :
    ∀ j ∈ (s.performAll actions).history.items, j.id = i.id → j = i := by
  intro j hj hid
  rcases mem_items_of_performAll hj with hj | ⟨other, hmem, hsame⟩
  · exact hunique j hj hid
  · exact absurd (hsame.trans hid) (hother other hmem)

theorem exists_reload?_of_mem (hi : i ∈ s.history.items)
    (hunique : ∀ j ∈ s.history.items, j.id = i.id → j = i) :
    ∃ recalled, s.reload? i.id = some recalled ∧ recalled.evaluator = s.evaluator ∧
      recalled.precision = s.precision ∧ recalled.input = i.expression := by
  rw [reload?, History.find?_of_mem hi hunique]
  exact ⟨_, rfl, rfl, rfl, rfl⟩

section Again

variable {t : Session} {normal : String} {x : Binary64}

theorem submit_kept (hx : s.evaluator.evaluate s.input s.precision = .ok x)
    (hnormal : s.evaluator.normalize s.input = .ok normal)
    (hapart : s.evaluator.KeepsApart s.input) (hevaluator : t.evaluator = s.evaluator)
    (hprecision : t.precision = s.precision) (hinput : t.input = Text.withoutBlanks normal)
    (again : Stamp) :
    ∃ copy v, t.submit again = (.ok copy, v) ∧ copy.expression = Text.withoutBlanks normal ∧
      copy.result = x ∧ copy ∈ v.history.items := by
  obtain ⟨_, tokens, hsame, htokens, hapart⟩ := hapart
  rw [hnormal] at hsame
  obtain rfl := Except.ok.inj hsame
  obtain ⟨us, program, hcompile⟩ := Evaluator.exists_compile_of_evaluate hnormal hx
  have hus := (Evaluator.compile_eq_ok_iff.mp hcompile).1
  rw [htokens] at hus
  obtain rfl := Except.ok.inj hus
  have hvalue := Evaluator.evaluate_withoutBlanks hnormal hcompile hapart s.precision
  have hkept := Evaluator.normalize_withoutBlanks hnormal hcompile hapart
  rw [hx, ← hevaluator, ← hprecision, ← hinput] at hvalue
  rw [← hevaluator, ← hinput] at hkept
  rcases t.submit_cases again with ⟨e, he, -⟩ | ⟨kept, y, hy, hkept', -, hsubmit⟩
  · rw [he] at hvalue
    cases hvalue
  · rw [hy] at hvalue
    rw [hkept'] at hkept
    obtain rfl := Except.ok.inj hvalue
    obtain rfl := Except.ok.inj hkept
    refine ⟨_, _, hsubmit, ?_, rfl, ?_⟩
    · rw [itemOf, hinput, Text.withoutBlanks_withoutBlanks]
    · change _ ∈ (t.history.push _).items
      rw [History.push_items]
      exact List.mem_cons_self

theorem submit_kept_unknown (hx : s.evaluator.evaluate s.input s.precision = .ok x)
    (hnormal : s.evaluator.normalize s.input = .ok normal)
    (happart : ¬s.evaluator.KeepsApart s.input) (hevaluator : t.evaluator = s.evaluator)
    (hinput : t.input = Text.withoutBlanks normal) (again : Stamp) :
    ∃ w, (t.submit again).1 = .error (.unknownIdentifier w) := by
  obtain ⟨tokens, program, hcompile⟩ := Evaluator.exists_compile_of_evaluate hnormal hx
  have htokens := (Evaluator.compile_eq_ok_iff.mp hcompile).1
  obtain ⟨w, hw⟩ := Evaluator.evaluate_withoutBlanks_unknown hnormal hcompile
    (fun h => happart ⟨normal, tokens, hnormal, htokens, h⟩) t.precision
  rw [← hevaluator, ← hinput] at hw
  refine ⟨w, ?_⟩
  rw [submit, hw]

end Again

/-- An item that is still in the history can be recalled. Submitted again under the precision that
it was made with, it gives its expression and its result anew exactly when no token of the text that
was submitted goes on into the next one; otherwise the recalled text is refused for a word. -/
theorem reload_submit (c : Settings) (before after : List Action) (stamp : Stamp) {item : Item}
    {kept : Session} (hsubmit : ((start c).performAll before).submit stamp = (.ok item, kept))
    (hstamp : ∀ other, .submit other ∈ before ++ after → other.id ≠ stamp.id)
    (hitem : item ∈ (kept.performAll after).history.items)
    (hprecision : (kept.performAll after).precision = ((start c).performAll before).precision) :
    ∃ recalled, (kept.performAll after).reload? item.id = some recalled ∧ ∀ again,
      (Evaluator.KeepsApart ⟨c.maxLength⟩ ((start c).performAll before).input →
        ∃ copy v, recalled.submit again = (.ok copy, v) ∧ copy.expression = item.expression ∧
          copy.result = item.result ∧ copy ∈ v.history.items) ∧
      (¬Evaluator.KeepsApart ⟨c.maxLength⟩ ((start c).performAll before).input →
        ∃ w, (recalled.submit again).1 = .error (.unknownIdentifier w)) := by
  have hstart := (keeps_start c).performAll before
  have hnew : ∀ j ∈ ((start c).performAll before).history.items, j.id ≠ stamp.id := by
    intro j hj hid
    rcases mem_items_of_performAll hj with hj | ⟨other, hother, hsame⟩
    · cases hj
    · exact hstamp other (List.mem_append_left _ hother) (hsame.trans hid)
  generalize (start c).performAll before = s at *
  have hfinal := (hstart.perform (.submit stamp)).performAll after
  rw [perform, hsubmit] at hfinal
  rcases s.submit_cases stamp with ⟨e, -, hfail⟩ | ⟨normal, x, hx, hnormal, -, hok⟩
  · rw [hfail] at hsubmit
    cases hsubmit
  · rw [hok] at hsubmit
    obtain ⟨hsame, rfl⟩ := Prod.mk.inj hsubmit
    obtain rfl := Except.ok.inj hsame
    have hadded : ∀ j ∈ (s.history.push (itemOf normal x stamp)).items, j.id = stamp.id →
        j = itemOf normal x stamp := fun j hj hid =>
      (List.mem_cons.mp (List.mem_of_mem_take hj)).resolve_right fun hj => hnew j hj hid
    -- No other submission has the identifier, so looking it up finds the item itself.
    obtain ⟨recalled, hreload, hevaluator, hsetting, hinput⟩ :=
      exists_reload?_of_mem hitem (unique_of_performAll hadded fun other hother =>
        hstamp other (List.mem_append_right _ hother))
    rw [hfinal.evaluator, ← hstart.evaluator] at hevaluator
    rw [← hstart.evaluator]
    refine ⟨recalled, hreload, fun again => ⟨fun hapart => ?_, fun happart => ?_⟩⟩
    · exact submit_kept hx hnormal hapart hevaluator (hsetting.trans hprecision) hinput again
    · exact submit_kept_unknown hx hnormal happart hevaluator hinput again

def fullTurn : Item := ⟨⟨2⟩, "2PI", .finite false 7074029114692207 (-50), 10⟩

def beforeTurn : List Action :=
  [.setPrecision 3, .enter "1/0", .submit ⟨⟨1⟩, 0⟩, .enter " 2 pi\t"]

def afterTurn : List Action :=
  [.enter "7", .submit ⟨⟨3⟩, 20⟩, .setPrecision 9, .delete ⟨3⟩, .setPrecision 3]

def turnTokens : List Token :=
  [⟨.number (2 * Decimal.one), 0, "2"⟩, ⟨.word "PI", 2, "PI"⟩]

theorem reload_submit_fullTurn : ∃ kept recalled,
    ((start {}).performAll beforeTurn).submit ⟨⟨2⟩, 10⟩ = (.ok fullTurn, kept) ∧
      (kept.performAll afterTurn).reload? ⟨2⟩ = some recalled ∧
      ∀ again, ∃ copy v, recalled.submit again = (.ok copy, v) ∧ copy.expression = "2PI" ∧
        copy.result = fullTurn.result ∧ copy ∈ v.history.items := by
  have hresult : (((start {}).performAll beforeTurn).submit ⟨⟨2⟩, 10⟩).1 = .ok fullTurn := by
    decide +kernel
  have hsubmit : ((start {}).performAll beforeTurn).submit ⟨⟨2⟩, 10⟩ =
      (.ok fullTurn, (((start {}).performAll beforeTurn).submit ⟨⟨2⟩, 10⟩).2) :=
    Prod.ext hresult rfl
  have hstamp : ∀ other, .submit other ∈ beforeTurn ++ afterTurn → other.id ≠ ⟨2⟩ := by
    intro other hother
    simp only [beforeTurn, afterTurn, List.cons_append, List.nil_append, List.mem_cons,
      Action.submit.injEq, reduceCtorEq, false_or, or_false, List.not_mem_nil] at hother
    rcases hother with rfl | rfl <;> decide
  have hnormal : Evaluator.normalize {} " 2 pi\t" = .ok "2 PI" := by decide +kernel
  have htokens : Token.ofText "2 PI" = .ok turnTokens := by decide +kernel
  obtain ⟨recalled, hreload, hagain⟩ := reload_submit {} beforeTurn afterTurn ⟨⟨2⟩, 10⟩ hsubmit hstamp
    (by decide +kernel) (by decide +kernel)
  refine ⟨_, recalled, hsubmit, hreload, fun again => (hagain again).1 ⟨_, _, ?_, htokens, ?_⟩⟩
  · exact hnormal
  · decide +kernel

def fused : Item := ⟨⟨1⟩, "PI2", .finite false 7074243035674507 (-50), 0⟩

theorem reload_submit_fused : ∃ kept recalled,
    ((start {}).performAll [.enter "PI 2"]).submit ⟨⟨1⟩, 0⟩ = (.ok fused, kept) ∧
      fused ∈ kept.history.items ∧
      kept.precision = ((start {}).performAll [.enter "PI 2"]).precision ∧
      kept.reload? fused.id = some recalled ∧
      ∀ again, (recalled.submit again).1 = .error (.unknownIdentifier "PI2") := by
  have hresult : (((start {}).performAll [.enter "PI 2"]).submit ⟨⟨1⟩, 0⟩).1 = .ok fused := by
    decide +kernel
  have hkept : (((start {}).performAll [.enter "PI 2"]).submit ⟨⟨1⟩, 0⟩).2 =
      { history := ⟨[fused], 100, by decide⟩ } := by
    decide +kernel
  have hvalue : Evaluator.evaluate {} "PI2" defaultPrecision = .error (.unknownIdentifier "PI2") := by
    decide +kernel
  refine ⟨{ history := ⟨[fused], 100, by decide⟩ },
    { input := "PI2", live := .value fused.result, history := ⟨[fused], 100, by decide⟩ },
    Prod.ext hresult hkept, List.mem_singleton_self fused, rfl, by decide +kernel, fun again => ?_⟩
  rw [submit, hvalue]

end Session

end Reckoner
