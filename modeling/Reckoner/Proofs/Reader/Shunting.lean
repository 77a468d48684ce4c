import Reckoner.Proofs.Outcome
import Reckoner.Proofs.Reader.Stepping

/-!
At every token the operator stack holds the frames of the tree reader, a call with as many commas as
it has complete arguments, and the output holds the programs of all complete operands.
-/
set_option autoImplicit false

namespace Reckoner

namespace Expr

mutual

def reversePolish : Expr → Program
  | .number x => [.number x]
  | .constant c => [.constant c]
  | .negate e => e.reversePolish ++ [.negate]
  | .binary op l r => l.reversePolish ++ r.reversePolish ++ [.binary op]
  | .call f args => reversePolishAll args ++ [.call f args.length]

def reversePolishAll : List Expr → Program
  | [] => []
  | e :: es => e.reversePolish ++ reversePolishAll es

end

mutual

theorem emit_eq (rest : Program) : ∀ e : Expr, e.emit rest = e.reversePolish ++ rest
  | .number _ | .constant _ => rfl
  | .negate e => by simp [emit, reversePolish, emit_eq _ e]
  | .binary op l r => by simp [emit, reversePolish, emit_eq _ l, emit_eq _ r]
  | .call f args => by simp [emit, reversePolish, emitAll_eq _ args]

theorem emitAll_eq (rest : Program) :
    ∀ es : List Expr, emitAll rest es = reversePolishAll es ++ rest
  | [] => rfl
  | e :: es => by simp [emitAll, reversePolishAll, emit_eq _ e, emitAll_eq rest es]

end

theorem program_eq_reversePolish (e : Expr) : e.program = e.reversePolish := by
  rw [program, emit_eq, List.append_nil]

theorem reversePolishAll_append (es fs : List Expr) :
    reversePolishAll (es ++ fs) = reversePolishAll es ++ reversePolishAll fs := by
  induction es with
  | nil => rfl
  | cons e es ih => simp [reversePolishAll, ih]

end Expr

namespace Frame

/-- What the frame is on the operator stack. -/
def toPending : Frame → Pending
  | .left _ op => .binary op
  | .negate => .negate
  | .group => .group
  | .call f done => .call f done.length

/-- What the frame has on the output. -/
def written : Frame → Program
  | .left e _ => e.reversePolish
  | .call _ done => Expr.reversePolishAll done.reverse
  | .negate | .group => []

def output (frames : List Frame) : Program := (frames.map written).reverse.flatten

@[simp] theorem output_nil : output [] = [] := rfl

@[simp] theorem output_cons (f : Frame) (frames : List Frame) :
    output (f :: frames) = output frames ++ f.written := by
  simp [output]

theorem depth_foldFor (op : Operator) (e : Expr) (frames : List Frame) :
    depth (foldFor op e frames).2 = depth frames := by
  induction frames generalizing e with
  | nil => rfl
  | cons f frames ih =>
    rw [foldFor_cons]
    split
    · rw [ih]
      cases f <;> first | rfl | contradiction
    · rfl

theorem depth_foldAll (e : Expr) (frames : List Frame) :
    depth (foldAll e frames).2 = depth frames := by
  rw [foldAll_eq_foldFor, depth_foldFor]

end Frame

namespace Yard

open Reckoner.Frame (output foldFor foldAll toPending)

variable {frames : List Frame} {e : Expr} {t : Token}

def before (frames : List Frame) : Yard :=
  ⟨(output frames).toArray, frames.map toPending, Frame.depth frames, true⟩

def behind (e : Expr) (frames : List Frame) : Yard :=
  ⟨(output frames ++ e.reversePolish).toArray, frames.map toPending, Frame.depth frames, false⟩

def ofCursor : Cursor → Yard
  | .complete e _ frames => behind e frames
  | cursor => before cursor.framesForOperand

theorem written_absorb {f : Frame} {i : Instr} (h : f.toPending.instr? = some i)
    (e : Expr) : f.written ++ e.reversePolish ++ [i] = (f.absorb e).reversePolish := by
  cases f with
  | left l op =>
    cases h
    rw [Frame.written, Frame.absorb, Expr.reversePolish]
  | negate =>
    cases h
    rw [Frame.written, Frame.absorb, Expr.reversePolish, List.nil_append]
  | group | call f done => cases h

theorem popFor_output (op : Operator) (e : Expr) (frames : List Frame) :
    popFor op (output frames ++ e.reversePolish).toArray (frames.map toPending) =
      ((output (foldFor op e frames).2 ++ (foldFor op e frames).1.reversePolish).toArray,
        (foldFor op e frames).2.map toPending) := by
  induction frames generalizing e with
  | nil => rfl
  | cons f frames ih =>
    have hbinds : f.bindsTo op =
        (f.toPending.instr?.isSome && bindsBefore f.toPending.precedence op) := by
      cases f <;> rfl
    rw [Frame.foldFor_cons, List.map_cons, popFor]
    cases hi : f.toPending.instr? with
    | none => simp [hbinds, hi]
    | some i =>
      by_cases hb : bindsBefore f.toPending.precedence op = true
      · simp [hbinds, hi, hb, ← ih, ← written_absorb hi]
      · simp [hbinds, hi, hb]

theorem popAll_eq_popFor (out : Array Instr) (ops : List Pending) :
    popAll out ops = popFor .plus out ops := by
  induction ops generalizing out with
  | nil => rfl
  | cons top ops ih =>
    cases top with
    | binary op => cases op <;> exact ih _
    | negate => exact ih _
    | group | call f commas => rfl

theorem popAll_output (e : Expr) (frames : List Frame) :
    popAll (output frames ++ e.reversePolish).toArray (frames.map toPending) =
      ((output (foldAll e frames).2 ++ (foldAll e frames).1.reversePolish).toArray,
        (foldAll e frames).2.map toPending) := by
  rw [popAll_eq_popFor, popFor_output, Frame.foldAll_eq_foldFor]

theorem pushBinary_behind (op : Operator) (e : Expr) (frames : List Frame) :
    (behind e frames).pushBinary op =
      { before (Frame.push op e frames) with valueExpected := false } := by
  simp only [pushBinary, behind, popFor_output, before, Frame.push, Frame.output_cons,
    Frame.written, List.map_cons, toPending, Frame.depth_left, Frame.depth_foldFor]

theorem beforeOperand_ofCursor (cursor : Cursor) :
    (ofCursor cursor).beforeOperand = before cursor.framesForOperand := by
  cases cursor with
  | operand | named | opened => rfl
  | complete e ending frames =>
    change { (behind e frames).pushBinary .times with valueExpected := true } = _
    rw [pushBinary_behind]
    rfl

theorem operand_ofCursor {i : Instr} (h : e.reversePolish = [i]) (cursor : Cursor) :
    (ofCursor cursor).operand i = behind e cursor.framesForOperand := by
  rw [operand, beforeOperand_ofCursor]
  simp [before, behind, h]

theorem openBracket_before (bracket : Frame) (hb : bracket.isBracket = true)
    (hw : bracket.written = []) (position : Nat) (frames : List Frame) :
    (before frames).openBracket bracket.toPending position =
      if depthLimit ≤ Frame.depth frames then malformed (.tooDeep position)
      else .ok (before (bracket :: frames)) := by
  simp [openBracket, before, hw, Frame.depth, hb, Nat.lt_succ_iff]

/-- The cursors between two turns of the yard: no name waits there to be judged, and the token in
front is a number where the operand ended with a literal. -/
inductive Settled (previous : Option Token) (ts : List Token) : Cursor → Prop where
  | operand (frames : List Frame) : Settled previous ts (.operand frames)
  | complete (e : Expr) {ending : Ending} (frames : List Frame) :
    (previous.any Token.isNumber = true ↔ ending = .literal) →
    (Cursor.complete e ending frames).refusal (opensParenthesis ts) = none →
    Settled previous ts (.complete e ending frames)

/-- The yard and the tree reader fail alike on the token or go on alike, but for a name that the
yard refuses at once. -/
inductive Agrees (t : Token) (rest : List Token) :
    Except EvalError Yard → Except EvalError Cursor → Prop where
  | error (err : EvalError) : Agrees t rest (.error err) (.error err)
  | settled {cursor : Cursor} {y : Yard} :
    Settled (some t) rest cursor → y = ofCursor cursor → Agrees t rest (.ok y) (.ok cursor)
  | refused {cursor : Cursor} {cause : Malformation} :
    cursor.refusal (opensParenthesis rest) = some cause →
    Agrees t rest (malformed cause) (.ok cursor)

section Turn

variable {previous : Option Token} {ts rest : List Token} {cursor : Cursor}

theorem Settled.valueExpected (h : Settled previous ts cursor) :
    (ofCursor cursor).valueExpected = cursor.operandExpected := by
  cases h <;> rfl

theorem agrees_number {x : Int} (h : Settled previous ts cursor) (ht : t.kind = .number x) :
    Agrees t rest ((ofCursor cursor).read previous t rest) (cursor.read t) := by
  have hoperand : Agrees t rest (.ok ((ofCursor cursor).operand (.number x)))
      (.ok (.complete (.number x) .literal cursor.framesForOperand)) :=
    .settled (.complete _ _ (by simp [Token.isNumber, ht]) rfl) (operand_ofCursor rfl cursor)
  simp only [read, Cursor.read, ht]
  cases h with
  | operand frames => exact hoperand
  | complete e frames hliteral _ =>
    by_cases hp : previous.any Token.isNumber = true
    · obtain rfl := hliteral.mp hp
      rw [if_pos (by simp [hp]; rfl)]
      exact .error _
    · rw [if_neg (by simp [hp])]
      split
      · next heq =>
        cases heq
        exact absurd (hliteral.mpr rfl) hp
      · exact hoperand

theorem agrees_word {w : String} (ht : t.kind = .word w) (hf : t.function? = none) :
    Agrees t rest ((ofCursor cursor).read previous t rest) (cursor.read t) := by
  have hnone : Function.named? w = none := by
    simpa [Token.function?, ht] using hf
  simp only [read, Cursor.read, ht, readName, Cursor.readWord, hnone]
  cases Constant.named? w with
  | none => exact .error _
  | some c =>
    dsimp only
    split
    · next ho => exact .refused (by simp [Cursor.refusal, ho])
    · next ho =>
      have hrefusal : (Cursor.complete (.constant c) (.constant c t.position)
          cursor.framesForOperand).refusal (opensParenthesis rest) = none := by
        simp [Cursor.refusal, ho]
      exact .settled (.complete _ _ (by simp [Token.isNumber, ht]) hrefusal)
        (operand_ofCursor rfl cursor)

theorem agrees_operator (op : Operator) (h : Settled previous ts cursor) :
    Agrees t rest ((ofCursor cursor).readOperator op t) (cursor.readOperator op t) := by
  cases h with
  | operand frames => exact .error _
  | complete e frames _ _ =>
    refine .settled (.operand (Frame.push op e frames)) ?_
    change { (behind e frames).pushBinary op with valueExpected := true } = _
    rw [pushBinary_behind]
    rfl

theorem agrees_comma (h : Settled previous ts cursor) :
    Agrees t rest ((ofCursor cursor).readComma t) (cursor.readComma t) := by
  cases h with
  | operand frames => exact .error _
  | complete e frames _ _ =>
    simp only [readComma, Cursor.readComma, ofCursor, behind, popAll_output,
      ← Frame.depth_foldAll e frames]
    rcases foldAll e frames with ⟨a, _ | ⟨f, outer⟩⟩
    · exact .error _
    · cases f with
      | left | negate | group => exact .error _
      | call f done =>
        refine .settled (.operand (.call f (a :: done) :: outer)) ?_
        simp [ofCursor, before, Cursor.framesForOperand, Frame.written, toPending,
          Expr.reversePolishAll_append, Expr.reversePolishAll]

theorem settled_of_close (ht : t.kind = .closeParen) (e : Expr) (frames : List Frame) :
    Settled (some t) rest (.complete e .other frames) :=
  .complete e frames (by simp [Token.isNumber, ht]) rfl

theorem agrees_close (ht : t.kind = .closeParen) (h : Settled previous ts cursor) :
    Agrees t rest ((ofCursor cursor).readClose t) (cursor.readClose t) := by
  cases h with
  | operand frames => exact .error _
  | complete e frames _ _ =>
    simp only [readClose, Cursor.readClose, ofCursor, behind, popAll_output,
      ← Frame.depth_foldAll e frames]
    rcases foldAll e frames with ⟨a, _ | ⟨f, outer⟩⟩
    · exact .error _
    · cases f with
      | left | negate => exact .error _
      | group =>
        refine .settled (settled_of_close ht a outer) ?_
        simp [ofCursor, behind, Frame.written]
      | call f done =>
        refine .settled (settled_of_close ht _ outer) ?_
        simp [ofCursor, behind, Frame.written, Expr.reversePolish,
          Expr.reversePolishAll_append, Expr.reversePolishAll]

theorem agrees_open (h : Settled previous (t :: rest) cursor) (ht : t.kind = .openParen) :
    Agrees t rest ((ofCursor cursor).beforeOperand.openBracket .group t.position)
      (cursor.readOpen t) := by
  have hopen (frames : List Frame) : Agrees t rest ((before frames).openBracket .group t.position)
      (Cursor.openBracket t.position frames (.operand (.group :: frames))) := by
    change Agrees t rest ((before frames).openBracket Frame.group.toPending t.position) _
    rw [openBracket_before _ rfl rfl, Cursor.openBracket]
    split
    · exact .error _
    · exact .settled (.operand _) rfl
  rw [beforeOperand_ofCursor]
  cases h with
  | operand frames => exact hopen frames
  | @complete e ending frames _ hgranted =>
    cases ending with
    | constant c position => simp [Cursor.refusal, opensParenthesis, ht] at hgranted
    | literal | other => exact hopen _

theorem agrees_read (h : Settled previous (t :: rest) cursor) (hf : t.function? = none) :
    Agrees t rest ((ofCursor cursor).read previous t rest) (cursor.step t) := by
  have hstep : cursor.step t = cursor.read t := by
    cases h <;> rfl
  rw [hstep]
  cases ht : t.kind with
  | number x => exact agrees_number h ht
  | word w => exact agrees_word ht hf
  | plus =>
    have hoperator : Agrees t rest _ _ := agrees_operator .plus h
    simp only [read, Cursor.read, ht]
    cases h with
    | operand frames => exact .settled (.operand frames) rfl
    | complete => exact hoperator
  | minus =>
    have hoperator : Agrees t rest _ _ := agrees_operator .minus h
    simp only [read, Cursor.read, ht]
    cases h with
    | operand frames =>
      refine .settled (.operand (.negate :: frames)) ?_
      simp [ofCursor, before, Cursor.framesForOperand, Frame.written, toPending]
    | complete => exact hoperator
  | star =>
    simp only [read, Cursor.read, ht]
    exact agrees_operator .times h
  | slash =>
    simp only [read, Cursor.read, ht]
    exact agrees_operator .divide h
  | caret =>
    simp only [read, Cursor.read, ht]
    exact agrees_operator .power h
  | comma =>
    simp only [read, Cursor.read, ht]
    exact agrees_comma h
  | openParen =>
    simp only [read, Cursor.read, ht]
    exact agrees_open h ht
  | closeParen =>
    simp only [read, Cursor.read, ht]
    exact agrees_close ht h

theorem finish_ofCursor (h : Settled previous ts cursor) (length : Nat) :
    (ofCursor cursor).finish length = (cursor.finish length).map Expr.reversePolish := by
  cases h with
  | operand frames => rfl
  | complete e frames _ _ =>
    simp only [finish, Cursor.finish, ofCursor, behind, popAll_output]
    rcases foldAll e frames with ⟨a, _ | ⟨f, outer⟩⟩
    · rfl
    · rfl

theorem step_of_function {f : Function} (h : Settled previous ts cursor)
    (hf : t.function? = some f) :
    cursor.step t = .ok (.named f t.position cursor.framesForOperand) := by
  have hstep : cursor.step t = cursor.read t := by
    cases h <;> rfl
  unfold Token.function? at hf
  split at hf
  · next name ht => simp only [hstep, Cursor.read, ht, Cursor.readWord, hf]
  · cases hf

theorem closeEmpty_before (f : Function) (frames : List Frame) :
    (before (.call f [] :: frames)).closeEmpty f = behind (.call f []) frames := by
  simp [closeEmpty, before, behind, Frame.written, Expr.reversePolish, Expr.reversePolishAll]

/-- The yard writes the program of the tree that is read from where it stands, or fails alike. -/
theorem readAll_ofCursor (length : Nat) (h : Settled previous ts cursor) :
    (readAll previous (ofCursor cursor) ts >>= finish length) =
      (cursor.resume ts length).map Expr.reversePolish := by
  generalize hy : ofCursor cursor = y
  fun_induction readAll previous y ts generalizing cursor with
  | case1 previous y =>
    subst hy
    exact finish_ofCursor h length
  | case2 previous y t rest hf ih =>
    subst hy
    have hagrees := agrees_read h hf
    generalize (ofCursor cursor).read previous t rest = outcome at hagrees
    generalize hstep : cursor.step t = step at hagrees
    cases hagrees with
    | error err =>
      rw [Cursor.resume_cons_error hstep]
      rfl
    | settled hs hy =>
      rw [Cursor.resume_cons hstep]
      exact ih _ hs hy.symm
    | refused hr =>
      rw [Cursor.resume_cons hstep, Cursor.resume_of_refusal hr]
      rfl
  | case3 previous y t f hf =>
    rw [Cursor.resume_cons (step_of_function h hf), Cursor.resume_of_refusal rfl]
    rfl
  | case4 previous y t f hf paren inside hparen ih =>
    subst hy
    -- The name, its parenthesis and a closing one behind it are one turn here and three there.
    rw [Cursor.resume_cons (step_of_function h hf), beforeOperand_ofCursor]
    generalize cursor.framesForOperand = frames
    change (openBracket (Frame.toPending (.call f [])) _ _ >>= _) >>= _ = _
    rw [openBracket_before _ rfl rfl]
    split
    · next hdeep =>
      have hrefusal : (Cursor.named f t.position frames).refusal
          (opensParenthesis (paren :: inside)) = some (.tooDeep t.position) := by
        simp [Cursor.refusal, opensParenthesis, hparen, hdeep]
      rw [Cursor.resume_of_refusal hrefusal]
      rfl
    · next hdeep =>
      rw [Cursor.resume_cons (Cursor.step_named hparen (Nat.lt_of_not_le hdeep))]
      cases inside with
      | nil => rfl
      | cons close behind =>
        obtain ⟨ihempty, ihargument⟩ := ih (before (.call f [] :: frames))
        change (if close.kind = .closeParen then _ else _) >>= _ = _
        split
        · next hclose =>
          rw [Cursor.resume_cons (Cursor.step_emptyCall hclose), ihempty
            (settled_of_close hclose _ _) (closeEmpty_before f frames).symm]
        · next hclose =>
          have hopened : (Cursor.opened f frames).resume (close :: behind) length =
              (Cursor.operand (.call f [] :: frames)).resume (close :: behind) length := by
            simp only [Cursor.resume, List.foldlM_cons, Cursor.step_opened hclose]
          rw [hopened, ihargument (.operand _) rfl]
  | case5 previous y t f hf paren inside hparen =>
    rw [Cursor.resume_cons (step_of_function h hf), Cursor.resume_of_refusal]
    · rfl
    · simp [Cursor.refusal, opensParenthesis, hparen]

end Turn

end Yard

theorem Program.ofTokens_eq (ts : List Token) (length : Nat) :
    ofTokens ts length = (Expr.ofTokens ts length).map Expr.program := by
  rw [funext Expr.program_eq_reversePolish]
  exact Yard.readAll_ofCursor length (.operand [])

theorem Program.ofTokens_eq_error_iff {ts : List Token} {length : Nat} {err : EvalError} :
    ofTokens ts length = .error err ↔ Expr.ofTokens ts length = .error err := by
  rw [ofTokens_eq, map_eq_error_iff]

end Reckoner
