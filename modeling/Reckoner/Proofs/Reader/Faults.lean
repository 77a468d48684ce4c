import Reckoner.Proofs.Reader.Shunting

set_option autoImplicit false

namespace Reckoner

namespace Malformation

def position? : Malformation → Option Nat
  | .unexpectedCharacter _ p | .unexpectedPart _ p | .unexpectedOperator _ p | .valueExpected p
  | .callExpected _ p | .notCallable _ p | .tooDeep p | .endOfInput p | .closingExpected p => some p
  | .tooLong _ _ | .undefinedFunction _ | .tooFewArguments _ _ _ | .tooManyArguments _ _ _
  | .fault _ | .unbalancedProgram => none

/-- Whether the input is at fault only for ending where it does. -/
def isUnfinished : Malformation → Bool
  | .endOfInput _ | .closingExpected _ => true
  | _ => false

theorem message_of_position? {cause : Malformation} {p : Nat} (h : cause.position? = some p) :
    ∃ text, cause.message = text ++ atChar p := by
  cases cause with
  | tooLong | undefinedFunction | tooFewArguments | tooManyArguments | fault
  | unbalancedProgram => cases h
  | unexpectedCharacter | unexpectedPart | unexpectedOperator | valueExpected | callExpected
  | notCallable | tooDeep | endOfInput | closingExpected =>
    cases h
    exact ⟨_, rfl⟩

/-- Whether the cause shows where the token begins, and is no early end of the input. -/
def PointsAt (cause : Malformation) (t : Token) : Prop :=
  cause.position? = some t.position ∧ cause.isUnfinished = false

end Malformation

namespace Cursor

variable {cursor next : Cursor} {t : Token} {ts : List Token} {cause : Malformation}
  {frames : List Frame} {length : Nat}

def Extends (cursor : Cursor) (ts : List Token) : Prop :=
  ∃ more e, ∀ length, cursor.resume (ts ++ more) length = .ok e

theorem Extends.cons (h : cursor.step t = .ok next) (hn : next.Extends ts) :
    cursor.Extends (t :: ts) := by
  obtain ⟨more, e, he⟩ := hn
  exact ⟨more, e, fun length => by rw [List.cons_append, resume_cons h, he]⟩

theorem Extends.of_step (h : cursor.step t = .ok next) (hn : next.Extends []) :
    cursor.Extends [] := by
  obtain ⟨more, e, he⟩ := hn
  exact ⟨t :: more, e, fun length => by rw [List.nil_append, resume_cons h, ← he]; rfl⟩

theorem foldAll_rest (e : Expr) (frames : List Frame) :
    (Frame.foldAll e frames).2 = [] ∨
      ∃ bracket rest, (Frame.foldAll e frames).2 = bracket :: rest ∧ bracket.isBracket = true ∧
        rest.length < frames.length := by
  induction frames generalizing e with
  | nil => exact .inl rfl
  | cons frame frames ih =>
    cases frame with
    | group => exact .inr ⟨.group, frames, rfl, rfl, Nat.lt_succ_self _⟩
    | call f done => exact .inr ⟨.call f done, frames, rfl, rfl, Nat.lt_succ_self _⟩
    | left l op =>
      rcases ih (.binary op l e) with h | ⟨bracket, rest, h, hb, hlt⟩
      · exact .inl h
      · exact .inr ⟨bracket, rest, h, hb, Nat.lt_succ_of_lt hlt⟩
    | negate =>
      rcases ih (.negate e) with h | ⟨bracket, rest, h, hb, hlt⟩
      · exact .inl h
      · exact .inr ⟨bracket, rest, h, hb, Nat.lt_succ_of_lt hlt⟩

theorem step_close {e : Expr} {ending : Ending} {bracket : Frame} {rest : List Frame}
    (ht : t.kind = .closeParen) (hb : bracket.isBracket = true)
    (h : (Frame.foldAll e frames).2 = bracket :: rest) :
    ∃ e', step (.complete e ending frames) t = .ok (.complete e' .other rest) := by
  have hfold : Frame.foldAll e frames = ((Frame.foldAll e frames).1, bracket :: rest) := by
    rw [← h]
  cases bracket with
  | left | negate => cases hb
  | group => exact ⟨_, by simp only [step, read, ht, readClose]; rw [hfold]⟩
  | call f done => exact ⟨_, by simp only [step, read, ht, readClose]; rw [hfold]⟩

def closing : Token := ⟨.closeParen, 0, ")"⟩

def digit : Token := ⟨.number Decimal.one, 0, "1"⟩

theorem extends_complete (e : Expr) (ending : Ending) (frames : List Frame) :
    Extends (.complete e ending frames) [] := by
  rcases foldAll_rest e frames with h | ⟨bracket, rest, h, hb, hlt⟩
  · refine ⟨[], (Frame.foldAll e frames).1, fun length => ?_⟩
    have hfold : Frame.foldAll e frames = ((Frame.foldAll e frames).1, []) := by rw [← h]
    change finish length (.complete e ending frames) = _
    rw [finish, hfold]
  · have hclosing : closing.kind = .closeParen := rfl
    obtain ⟨e', hstep⟩ := step_close hclosing hb h
    exact .of_step hstep (extends_complete e' .other rest)
termination_by frames.length

theorem extends_of_isNamed (h : cursor.isNamed = false) : cursor.Extends [] := by
  cases cursor with
  | named => cases h
  | operand frames => exact .of_step (step_number (t := digit) rfl) (extends_complete _ _ _)
  | opened f frames => exact .of_step (step_emptyCall (t := closing) rfl) (extends_complete _ _ _)
  | complete e ending frames => exact extends_complete e ending frames

section Outcomes

variable {parenthesis : Bool}

theorem tooDeep_of_openBracket {position : Nat}
    (h : openBracket position frames next = .error (.malformed cause)) :
    cause = .tooDeep position := by
  unfold openBracket at h
  split at h <;> cases h
  rfl

theorem pointsAt_of_readOperator {op : Operator}
    (h : cursor.readOperator op t = .error (.malformed cause)) : cause.PointsAt t := by
  cases cursor <;> cases h <;> exact ⟨rfl, rfl⟩

theorem pointsAt_of_readComma (h : cursor.readComma t = .error (.malformed cause)) :
    cause.PointsAt t := by
  unfold readComma at h
  split at h
  · split at h <;> cases h
    exact ⟨rfl, rfl⟩
  · cases h
    exact ⟨rfl, rfl⟩

theorem pointsAt_of_readClose (h : cursor.readClose t = .error (.malformed cause)) :
    cause.PointsAt t := by
  unfold readClose at h
  split at h
  · cases h
  · split at h <;> cases h
    exact ⟨rfl, rfl⟩
  · cases h
    exact ⟨rfl, rfl⟩

theorem readWord_ne_malformed {name : String} {position : Nat} :
    readWord name position frames ≠ .error (.malformed cause) := by
  unfold readWord
  split
  · exact nofun
  · split <;> exact nofun

theorem refusal_or_pointsAt_of_readOpen (hn : cursor.isNamed = false)
    (h : cursor.readOpen t = .error (.malformed cause)) :
    cursor.refusal true = some cause ∨ cause.PointsAt t := by
  unfold readOpen at h
  split at h
  · cases h
    exact .inl rfl
  · cases hn
  · rw [tooDeep_of_openBracket h]
    exact .inr ⟨rfl, rfl⟩

theorem refusal_or_pointsAt_of_step (h : cursor.step t = .error (.malformed cause)) :
    cursor.refusal (t.kind = .openParen) = some cause ∨
      cursor.isNamed = false ∧ cause.PointsAt t := by
  cases hn : cursor.isNamed with
  | true =>
    cases cursor with
    | operand | opened | complete => cases hn
    | named f position frames =>
      simp only [step] at h
      split at h
      · next ht =>
        simp only [readOpen, openBracket] at h
        split at h <;> cases h
        next hd => exact .inl (by simp [refusal, ht, hd])
      · next ht =>
        cases h
        exact .inl (by simp [refusal, ht])
  | false =>
    rw [step_eq_read hn] at h
    have hreading := reading cursor t
    generalize cursor.read t = outcome at h hreading
    cases hreading with
    | number | sign => cases h
    | unexpectedPart =>
      cases h
      exact .inr ⟨rfl, rfl, rfl⟩
    | word => exact absurd h readWord_ne_malformed
    | operator => exact .inr ⟨rfl, pointsAt_of_readOperator h⟩
    | comma => exact .inr ⟨rfl, pointsAt_of_readComma h⟩
    | openParen ht =>
      rw [decide_eq_true ht]
      exact (refusal_or_pointsAt_of_readOpen hn h).imp_right fun hp => ⟨rfl, hp⟩
    | closeParen => exact .inr ⟨rfl, pointsAt_of_readClose h⟩

theorem refusal_of_openBracket {position : Nat} {cursor' : Cursor}
    (h : openBracket position frames next = .ok cursor')
    (hn : next.refusal parenthesis = none) : cursor'.refusal parenthesis = none := by
  unfold openBracket at h
  split at h <;> cases h
  exact hn

theorem refusal_of_readOpen (h : cursor.readOpen t = .ok next) :
    next.refusal parenthesis = none := by
  unfold readOpen at h
  split at h
  · cases h
  · exact refusal_of_openBracket h rfl
  · exact refusal_of_openBracket h rfl

theorem refusal_of_readOperator {op : Operator} (h : cursor.readOperator op t = .ok next) :
    next.refusal parenthesis = none := by
  cases cursor <;> cases h
  rfl

theorem refusal_of_readComma (h : cursor.readComma t = .ok next) :
    next.refusal parenthesis = none := by
  unfold readComma at h
  split at h
  · split at h <;> cases h
    rfl
  · cases h

theorem refusal_of_readClose (h : cursor.readClose t = .ok next) :
    next.refusal parenthesis = none := by
  unfold readClose at h
  split at h
  · cases h
    rfl
  · split at h <;> cases h <;> rfl
  · cases h

theorem pointsAt_of_readWord {w : String} (h : readWord w t.position frames = .ok next)
    (hr : next.refusal parenthesis = some cause) :
    Catalogue.contains w = true ∧ cause.PointsAt t := by
  unfold readWord at h
  split at h
  · next f hf =>
    cases h
    refine ⟨by simp [Catalogue.contains, hf], ?_⟩
    simp only [refusal] at hr
    split at hr
    · split at hr <;> cases hr
      exact ⟨rfl, rfl⟩
    · cases hr
      exact ⟨rfl, rfl⟩
  · split at h <;> cases h
    next c hc =>
    refine ⟨by simp [Catalogue.contains, hc], ?_⟩
    simp only [refusal] at hr
    split at hr <;> cases hr
    exact ⟨rfl, rfl⟩

theorem word_of_refusal (h : cursor.step t = .ok next)
    (hr : next.refusal parenthesis = some cause) :
    (∃ w, t.kind = .word w ∧ Catalogue.contains w = true) ∧ cursor.isNamed = false ∧
      cause.PointsAt t := by
  have habsurd (hnone : next.refusal parenthesis = none) : False := by
    rw [hnone] at hr
    cases hr
  cases hn : cursor.isNamed with
  | true =>
    cases cursor with
    | operand | opened | complete => cases hn
    | named f position frames =>
      simp only [step] at h
      split at h
      · exact (habsurd (refusal_of_readOpen h)).elim
      · cases h
  | false =>
    rw [step_eq_read hn] at h
    have hreading := reading cursor t
    generalize cursor.read t = outcome at h hreading
    cases hreading with
    | number | sign =>
      cases h
      cases hr
    | unexpectedPart => cases h
    | word w hw =>
      obtain ⟨hcontains, hp⟩ := pointsAt_of_readWord h hr
      exact ⟨⟨w, hw, hcontains⟩, rfl, hp⟩
    | operator => exact (habsurd (refusal_of_readOperator h)).elim
    | comma => exact (habsurd (refusal_of_readComma h)).elim
    | openParen => exact (habsurd (refusal_of_readOpen h)).elim
    | closeParen => exact (habsurd (refusal_of_readClose h)).elim

theorem refusal_or_isUnfinished_of_finish (h : cursor.finish length = .error (.malformed cause)) :
    cursor.refusal false = some cause ∨
      cursor.isNamed = false ∧ cause.position? = some length ∧ cause.isUnfinished = true := by
  unfold finish at h
  split at h
  · cases h
    exact .inl rfl
  · split at h <;> cases h
    exact .inr ⟨rfl, rfl, rfl⟩
  · next hn hc =>
    cases h
    cases cursor with
    | named f position frames => exact absurd rfl (hn f position frames)
    | complete e ending frames => exact absurd rfl (hc e ending frames)
    | operand | opened => exact .inr ⟨rfl, rfl, rfl⟩

end Outcomes

/-- The token `t` between `before` and `after` is where the run from the cursor first fails: what
comes before it can be completed, and what begins with it fails in the same way. -/
structure FailsAt (cursor : Cursor) (cause : Malformation) (before : List Token) (t : Token)
    (after : List Token) : Prop where
  points : cause.PointsAt t
  viable : cursor.Extends before
  settled : ∀ rest length,
    (∀ w, t.kind = .word w → Catalogue.contains w = true →
      opensParenthesis rest = opensParenthesis after) →
    cursor.resume (before ++ t :: rest) length = .error (.malformed cause)

theorem FailsAt.cons {before after : List Token} {u : Token} (h : cursor.step u = .ok next)
    (hf : next.FailsAt cause before t after) : cursor.FailsAt cause (u :: before) t after where
  points := hf.points
  viable := hf.viable.cons h
  settled := fun rest length hrest => by
    rw [List.cons_append, resume_cons h]
    exact hf.settled rest length hrest

theorem failsAt_of_resume (h : cursor.resume ts length = .error (.malformed cause)) :
    cursor.refusal (opensParenthesis ts) = some cause ∨
      (∃ before t after, ts = before ++ t :: after ∧ cursor.FailsAt cause before t after) ∨
      cause.position? = some length ∧ cause.isUnfinished = true ∧ cursor.Extends ts := by
  induction ts generalizing cursor with
  | nil =>
    rcases refusal_or_isUnfinished_of_finish h with hr | ⟨hn, hp, hu⟩
    · exact .inl hr
    · exact .inr (.inr ⟨hp, hu, extends_of_isNamed hn⟩)
  | cons t ts ih =>
    cases hstep : cursor.step t with
    | error e =>
      rw [resume_cons_error hstep] at h
      cases h
      refine (refusal_or_pointsAt_of_step hstep).imp_right fun ⟨hn, hp⟩ => .inl ?_
      exact ⟨[], t, ts, rfl, hp, extends_of_isNamed hn,
        fun rest length _ => resume_cons_error hstep rest length⟩
    | ok next =>
      rw [resume_cons hstep] at h
      rcases ih h with hr | ⟨before, u, after, rfl, hf⟩ | ⟨hp, hu, hx⟩
      · obtain ⟨⟨w, hw, hcontains⟩, hn, hp⟩ := word_of_refusal hstep hr
        refine .inr (.inl ⟨[], t, ts, rfl, hp, extends_of_isNamed hn, fun rest length hrest => ?_⟩)
        rw [List.nil_append, resume_cons hstep]
        exact resume_of_refusal (hrest w hw hcontains ▸ hr) length
      · exact .inr (.inl ⟨t :: before, u, after, rfl, hf.cons hstep⟩)
      · exact .inr (.inr ⟨hp, hu, hx.cons hstep⟩)

end Cursor

namespace Program

/-- Some further tokens make the list one that is accepted. -/
def Viable (ts : List Token) : Prop := ∃ more p, ∀ length, ofTokens (ts ++ more) length = .ok p

theorem viable_of_extends {ts : List Token} (h : Cursor.Extends (.operand []) ts) : Viable ts := by
  obtain ⟨more, e, he⟩ := h
  refine ⟨more, e.program, fun length => ?_⟩
  rw [ofTokens_eq, Expr.ofTokens]
  exact congrArg (Except.map Expr.program) (he length)

/-- A syntax error points at the first fault. Where its cause is not the early end of the input, it
shows the position of a token: what comes before that token can be completed, and every list that
goes on with the token fails in the same way, if only, where the token is a name, it agrees on the
parenthesis behind it. Where its cause is the end, it shows the length and the whole list can be
completed. -/
theorem firstFault_of_ofTokens {ts : List Token} {length : Nat} {cause : Malformation}
    (h : ofTokens ts length = .error (.malformed cause)) :
    (cause.isUnfinished = false → ∃ before t after, ts = before ++ t :: after ∧
      (∃ text, cause.message = text ++ atChar t.position) ∧ Viable before ∧
      ∀ rest length',
        (∀ w, t.kind = .word w → Catalogue.contains w = true →
          opensParenthesis rest = opensParenthesis after) →
        ofTokens (before ++ t :: rest) length' = .error (.malformed cause)) ∧
    (cause.isUnfinished = true →
      (∃ text, cause.message = text ++ atChar length) ∧ Viable ts) := by
  rcases Cursor.failsAt_of_resume (ofTokens_eq_error_iff.mp h) with
    hr | ⟨before, t, after, hts, hf⟩ | ⟨hp, hu, hx⟩
  · cases hr
  · refine ⟨fun _ => ⟨before, t, after, hts, Malformation.message_of_position? hf.points.1,
      viable_of_extends hf.viable, fun rest length' hrest =>
        ofTokens_eq_error_iff.mpr (hf.settled rest length' hrest)⟩, fun hu => ?_⟩
    rw [hf.points.2] at hu
    cases hu
  · refine ⟨fun hf => ?_,
      fun _ => ⟨Malformation.message_of_position? hp, viable_of_extends hx⟩⟩
    rw [hu] at hf
    cases hf

def doubleOperator : List Token :=
  [⟨.number Decimal.one, 0, "1"⟩, ⟨.plus, 2, "+"⟩, ⟨.star, 4, "*"⟩]

theorem firstFault_of_doubleOperator :
    ofTokens doubleOperator 5 = .error (.malformed (.valueExpected 4)) ∧
    ∃ before t after, doubleOperator = before ++ t :: after ∧
      (∃ text, (Malformation.valueExpected 4).message = text ++ atChar t.position) ∧
      Viable before ∧ ∀ rest length,
        (∀ w, t.kind = .word w → Catalogue.contains w = true →
          opensParenthesis rest = opensParenthesis after) →
        ofTokens (before ++ t :: rest) length = .error (.malformed (.valueExpected 4)) := by
  have h : ofTokens doubleOperator 5 = .error (.malformed (.valueExpected 4)) := rfl
  exact ⟨h, (firstFault_of_ofTokens h).1 rfl⟩

end Program

end Reckoner
