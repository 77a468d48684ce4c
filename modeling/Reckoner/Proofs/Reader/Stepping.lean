import Reckoner.Expr.Parser
import Reckoner.Proofs.Catalogue
import Reckoner.Proofs.Reader.Grammar

set_option autoImplicit false

namespace Reckoner.Frame

def bindsTo (op : Operator) : Frame → Bool
  | .left _ o => bindsBefore o.precedence op
  | .negate => bindsBefore signPrecedence op
  | .group | .call _ _ => false

def absorb (e : Expr) : Frame → Expr
  | .left l op => .binary op l e
  | .negate => .negate e
  | .group | .call _ _ => e

theorem foldFor_cons (op : Operator) (e : Expr) (f : Frame) (frames : List Frame) :
    foldFor op e (f :: frames) =
      if f.bindsTo op then foldFor op (f.absorb e) frames else (e, f :: frames) := by
  cases f <;> rfl

/-- A sum has the weakest operators, so it completes all that is pending. -/
theorem foldAll_eq_foldFor (e : Expr) (frames : List Frame) :
    foldAll e frames = foldFor .plus e frames := by
  induction frames generalizing e with
  | nil => rfl
  | cons f frames ih =>
    cases f with
    | left l op => cases op <;> simp [foldAll, foldFor, bindsBefore, Operator.precedence, ih]
    | negate => simp [foldAll, foldFor, bindsBefore, Operator.precedence, signPrecedence, ih]
    | group | call f done => rfl

theorem foldFor_append {op : Operator} {pending : List Frame}
    (h : ∀ f ∈ pending, f.bindsTo op = true) (e : Expr) (frames : List Frame) :
    foldFor op e (pending ++ frames) = foldFor op (pending.foldl absorb e) frames := by
  induction pending generalizing e with
  | nil => rfl
  | cons f pending ih =>
    have hf : f.bindsTo op = true := h f (by simp)
    rw [List.cons_append, foldFor_cons, if_pos hf, List.foldl_cons]
    exact ih (fun g hg => h g (by simp [hg])) _

theorem foldFor_of_head {op : Operator} {frames : List Frame}
    (h : ∀ f ∈ frames.head?, f.bindsTo op = false) (e : Expr) :
    foldFor op e frames = (e, frames) := by
  cases frames with
  | nil => rfl
  | cons f frames => rw [foldFor_cons, if_neg (by simp [h f (by simp)])]

theorem push_append {op : Operator} {pending frames : List Frame}
    (hp : ∀ f ∈ pending, f.bindsTo op = true) (hf : ∀ f ∈ frames.head?, f.bindsTo op = false)
    (e : Expr) : push op e (pending ++ frames) = .left (pending.foldl absorb e) op :: frames := by
  rw [push, foldFor_append hp, foldFor_of_head hf]

theorem foldAll_append {pending frames : List Frame}
    (hp : ∀ f ∈ pending, f.bindsTo .plus = true) (hf : ∀ f ∈ frames.head?, f.bindsTo .plus = false)
    (e : Expr) : foldAll e (pending ++ frames) = (pending.foldl absorb e, frames) := by
  rw [foldAll_eq_foldFor, foldFor_append hp, foldFor_of_head hf]

theorem bindsTo_power (f : Frame) : f.bindsTo .power = false := by
  cases f with
  | left l op => cases op <;> rfl
  | negate | group | call f done => rfl

theorem bindsTo_divide (f : Frame) : f.bindsTo .divide = f.bindsTo .times := by
  cases f with
  | left l op => cases op <;> rfl
  | negate | group | call f done => rfl

theorem bindsTo_minus (f : Frame) : f.bindsTo .minus = f.bindsTo .plus := by
  cases f with
  | left l op => cases op <;> rfl
  | negate | group | call f done => rfl

theorem bindsTo_plus_of_times {f : Frame} (h : f.bindsTo .times = true) :
    f.bindsTo .plus = true := by
  cases f with
  | left l op => cases op <;> rfl
  | negate => rfl
  | group | call f done => exact absurd h Bool.false_ne_true

@[simp] theorem depth_left (l : Expr) (op : Operator) (frames : List Frame) :
    depth (.left l op :: frames) = depth frames := rfl

@[simp] theorem depth_negate (frames : List Frame) : depth (.negate :: frames) = depth frames := rfl

@[simp] theorem depth_group (frames : List Frame) : depth (.group :: frames) = depth frames + 1 :=
  List.countP_cons_of_pos rfl

@[simp] theorem depth_call (f : Function) (done : List Expr) (frames : List Frame) :
    depth (.call f done :: frames) = depth frames + 1 :=
  List.countP_cons_of_pos rfl

end Reckoner.Frame

namespace Reckoner.Cursor

open Grammar

variable {frames pending : List Frame} {e : Expr} {ending : Ending} {t : Token} {f : Function}
  {done : List Expr} {cursor next : Cursor} {ts : List Token} {cause : Malformation}

/-- The rule by which the token is read where no parenthesis has to follow. -/
inductive Reading (cursor : Cursor) (t : Token) : Except EvalError Cursor → Prop where
  | number (x : Int) :
    Reading cursor t (.ok (.complete (.number x) .literal cursor.framesForOperand))
  | unexpectedPart : Reading cursor t (malformed (.unexpectedPart t.text t.position))
  | word (name : String) (ht : t.kind = .word name) :
    Reading cursor t (readWord name t.position cursor.framesForOperand)
  | sign (frames : List Frame) : Reading cursor t (.ok (.operand frames))
  | operator (op : Operator) : Reading cursor t (cursor.readOperator op t)
  | comma : Reading cursor t (cursor.readComma t)
  | openParen (ht : t.kind = .openParen) : Reading cursor t (cursor.readOpen t)
  | closeParen : Reading cursor t (cursor.readClose t)

theorem reading (cursor : Cursor) (t : Token) : Reading cursor t (cursor.read t) := by
  unfold read
  split
  · split
    · exact .unexpectedPart
    · exact .number _
  · next name ht => exact .word name ht
  · split
    · exact .sign _
    · exact .operator .plus
  · split
    · exact .sign _
    · exact .operator .minus
  · exact .operator .times
  · exact .operator .divide
  · exact .operator .power
  · exact .comma
  · next ht => exact .openParen ht
  · exact .closeParen

theorem step_number {x : Int} (h : t.kind = .number x) :
    step (.operand frames) t = .ok (.complete (.number x) .literal frames) := by
  simp [step, read, h, framesForOperand]

theorem step_constant {w : String} {c : Constant} (h : t.kind = .word w)
    (hc : Constant.named? w = some c) :
    step (.operand frames) t = .ok (.complete (.constant c) (.constant c t.position) frames) := by
  simp [step, read, h, framesForOperand, readWord, hc, Function.named?_of_constant hc]

theorem step_function {w : String} (h : t.kind = .word w) (hf : Function.named? w = some f) :
    step (.operand frames) t = .ok (.named f t.position frames) := by
  simp [step, read, h, framesForOperand, readWord, hf]

theorem step_open (h : t.kind = .openParen) (hd : Frame.depth frames < depthLimit) :
    step (.operand frames) t = .ok (.operand (.group :: frames)) := by
  simp [step, read, h, framesForOperand, readOpen, openBracket, Nat.not_le.mpr hd]

theorem step_named {p : Nat} (h : t.kind = .openParen) (hd : Frame.depth frames < depthLimit) :
    step (.named f p frames) t = .ok (.opened f frames) := by
  simp [step, h, readOpen, openBracket, Nat.not_le.mpr hd]

theorem step_emptyCall (h : t.kind = .closeParen) :
    step (.opened f frames) t = .ok (.complete (.call f []) .other frames) := by
  simp [step, read, h, readClose]

theorem step_opened (h : t.kind ≠ .closeParen) :
    step (.opened f frames) t = step (.operand (.call f [] :: frames)) t := by
  simp only [step, read]
  cases hk : t.kind <;> first | rfl | exact absurd hk h

theorem step_plus (h : t.kind = .plus) : step (.operand frames) t = .ok (.operand frames) := by
  simp [step, read, h, operandExpected, framesForOperand]

theorem step_minus (h : t.kind = .minus) :
    step (.operand frames) t = .ok (.operand (.negate :: frames)) := by
  simp [step, read, h, operandExpected, framesForOperand]

theorem step_operator (op : Operator) (h : t.kind = op.kind) :
    step (.complete e ending frames) t = .ok (.operand (Frame.push op e frames)) := by
  cases op <;> simp [step, read, h, Operator.kind, operandExpected, readOperator]

theorem step_beside {last : Option Token.Kind} (ho : t.kind.opensAtom = true)
    (hg : ending.Agrees last) (hm : mayMeet last (some t.kind) = true) :
    step (.complete e ending frames) t = step (.operand (Frame.push .times e frames)) t := by
  simp only [step, read]
  cases hk : t.kind with
  | number x =>
    cases ending with
    | literal =>
      obtain ⟨y, rfl⟩ := hg
      rw [hk] at hm
      exact absurd hm Bool.false_ne_true
    | constant | other => rfl
  | word w => rfl
  | openParen =>
    cases ending with
    | constant c p =>
      obtain ⟨w, rfl, hc⟩ := hg
      rw [hk] at hm
      simp [mayMeet, hc] at hm
    | literal | other => rfl
  | plus | minus | star | slash | caret | comma | closeParen =>
    rw [hk] at ho
    exact absurd ho Bool.false_ne_true

theorem step_close_group (hp : ∀ g ∈ pending, g.bindsTo .plus = true) (h : t.kind = .closeParen) :
    step (.complete e ending (pending ++ .group :: frames)) t =
      .ok (.complete (pending.foldl Frame.absorb e) .other frames) := by
  have hf : Frame.foldAll e (pending ++ .group :: frames) = (_, .group :: frames) :=
    Frame.foldAll_append hp (by simp [Frame.bindsTo]) e
  simp [step, read, h, readClose, hf]

theorem step_close_call (hp : ∀ g ∈ pending, g.bindsTo .plus = true) (h : t.kind = .closeParen) :
    step (.complete e ending (pending ++ .call f done :: frames)) t =
      .ok (.complete (.call f (pending.foldl Frame.absorb e :: done).reverse) .other frames) := by
  have hf : Frame.foldAll e (pending ++ .call f done :: frames) = (_, .call f done :: frames) :=
    Frame.foldAll_append hp (by simp [Frame.bindsTo]) e
  simp [step, read, h, readClose, hf]

theorem step_comma (hp : ∀ g ∈ pending, g.bindsTo .plus = true) (h : t.kind = .comma) :
    step (.complete e ending (pending ++ .call f done :: frames)) t =
      .ok (.operand (.call f (pending.foldl Frame.absorb e :: done) :: frames)) := by
  have hf : Frame.foldAll e (pending ++ .call f done :: frames) = (_, .call f done :: frames) :=
    Frame.foldAll_append hp (by simp [Frame.bindsTo]) e
  simp [step, read, h, readComma, hf]

def isNamed : Cursor → Bool
  | .named _ _ _ => true
  | .operand _ | .opened _ _ | .complete _ _ _ => false

theorem step_eq_read (hn : cursor.isNamed = false) (t : Token) : cursor.step t = cursor.read t := by
  cases cursor with
  | named => cases hn
  | operand | opened | complete => rfl

def resume (cursor : Cursor) (ts : List Token) (length : Nat) : Except EvalError Expr := do
  let last ← ts.foldlM step cursor
  last.finish length

theorem resume_cons (h : cursor.step t = .ok next) (ts : List Token) (length : Nat) :
    cursor.resume (t :: ts) length = next.resume ts length := by
  simp only [resume, List.foldlM_cons, h]
  rfl

theorem resume_cons_error {e : EvalError} (h : cursor.step t = .error e) (ts : List Token)
    (length : Nat) : cursor.resume (t :: ts) length = .error e := by
  simp only [resume, List.foldlM_cons, h]
  rfl

/-- Why the name just read cannot stand, where `parenthesis` says whether one opens behind it. -/
def refusal (parenthesis : Bool) : Cursor → Option Malformation
  | .named f position frames =>
    if parenthesis then
      if depthLimit ≤ Frame.depth frames then some (.tooDeep position) else none
    else some (.callExpected f position)
  | .complete _ (.constant c position) _ =>
    if parenthesis then some (.notCallable c position) else none
  | .operand _ | .opened _ _ | .complete _ _ _ => none

theorem step_of_refusal (h : cursor.refusal (t.kind = .openParen) = some cause) :
    cursor.step t = .error (.malformed cause) := by
  unfold refusal at h
  split at h
  · next f position frames =>
    by_cases ht : t.kind = .openParen
    · by_cases hd : depthLimit ≤ Frame.depth frames
      · simp only [ht, decide_true, if_true, hd, Option.some.injEq] at h
        simp only [step, ht, if_true, readOpen, openBracket, hd, malformed, h]
      · simp [ht, hd] at h
    · simp only [ht, decide_false, Bool.false_eq_true, if_false, Option.some.injEq] at h
      simp only [step, ht, if_false, malformed, h]
  · next e c position frames =>
    by_cases ht : t.kind = .openParen
    · simp only [ht, decide_true, if_true, Option.some.injEq] at h
      simp only [step, read, ht, readOpen, malformed, h]
    · simp [ht] at h
  all_goals cases h

theorem finish_of_refusal (h : cursor.refusal false = some cause) (length : Nat) :
    cursor.finish length = .error (.malformed cause) := by
  unfold refusal at h
  split at h
  · cases h
    rfl
  all_goals cases h

/-- A refusal comes true whatever follows, if only it agrees on the parenthesis. -/
theorem resume_of_refusal (h : cursor.refusal (opensParenthesis ts) = some cause) (length : Nat) :
    cursor.resume ts length = .error (.malformed cause) := by
  cases ts with
  | nil => exact finish_of_refusal h length
  | cons t ts => exact resume_cons_error (step_of_refusal h) ts length

end Reckoner.Cursor
