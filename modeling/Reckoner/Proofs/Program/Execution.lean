import Reckoner.Proofs.Reader.Exactness

set_option autoImplicit false

namespace Reckoner

/-- The errors of operations on values: never one of the text or of the stack. -/
inductive EvalError.OfOperation : EvalError → Prop where
  | notANumber : OfOperation .notANumber
  | fault (cause : Fault) : OfOperation (.malformed (.fault cause))
  | tooFew (f : Function) (expected actual : Nat) :
    OfOperation (.malformed (.tooFewArguments f expected actual))
  | tooMany (f : Function) (expected actual : Nat) :
    OfOperation (.malformed (.tooManyArguments f expected actual))

theorem Fault.toError_ofOperation (f : Fault) : f.toError.OfOperation := by
  cases f with
  | notReal => exact .notANumber
  | undefinedSymbol name => exact .fault _
  | roundPlaces => exact .fault _

theorem ofOperation_of_mapError {r : Except Fault Number} {e : EvalError}
    (h : r.mapError Fault.toError = .error e) : e.OfOperation := by
  cases r with
  | ok v => cases h
  | error f =>
    cases h
    exact f.toError_ofOperation

namespace Function

def admits (f : Function) (count : Nat) : Bool :=
  f.arity.least ≤ count && f.arity.most.all (count ≤ ·)

/-- The function on the arguments at the positions it asks for; none where there is no such
argument. -/
def applyAt? (f : Function) (args : List Number) : Option (Except EvalError Number) :=
  match f with
  | .unary u => args[0]?.map fun x => (u.apply x).mapError Fault.toError
  | .log =>
    if args.length = 2 then
      args[0]?.bind fun x => args[1]?.map fun b => (x.logBase b).mapError Fault.toError
    else args[0]?.map fun x => (Unary.ln.apply x).mapError Fault.toError
  | .round =>
    args[0]?.map fun x =>
      match args[1]? with
      | none => .ok (x.roundTo 0)
      | some n =>
        match n.roundPlaces? with
        | some k => .ok (x.roundTo k)
        | none => .error (Fault.toError .roundPlaces)
  | .pow => args[0]?.bind fun x => args[1]?.map fun y => (x.pow y).mapError Fault.toError
  | .min => args[0]?.map fun x => .ok (Number.extremum .lt x (args.drop 1))
  | .max => args[0]?.map fun x => .ok (Number.extremum .gt x (args.drop 1))

theorem apply_eq (f : Function) (args : List Number) :
    if f.admits args.length then f.applyAt? args = some (f.apply args)
    else f.apply args = .error (.malformed (f.arityError args.length)) := by
  cases f with
  | unary | log | pow | min | max =>
    rcases args with _ | ⟨x, _ | ⟨y, _ | ⟨z, rest⟩⟩⟩ <;> simp [admits, arity, applyAt?, apply]
  | round =>
    rcases args with _ | ⟨x, _ | ⟨n, _ | ⟨z, rest⟩⟩⟩
    · rfl
    · rfl
    · cases hn : n.roundPlaces? <;> simp [admits, arity, applyAt?, apply, hn]
    · simp [admits, arity, apply]

theorem ofOperation_of_arityError (f : Function) (n : Nat) :
    EvalError.OfOperation (.malformed (f.arityError n)) := by
  unfold arityError
  split
  · exact .tooFew ..
  · exact .tooMany ..

theorem ofOperation_of_apply {f : Function} {args : List Number} {e : EvalError}
    (h : f.apply args = .error e) : e.OfOperation := by
  unfold apply at h
  split at h
  · exact ofOperation_of_mapError h
  · exact ofOperation_of_mapError h
  · exact ofOperation_of_mapError h
  · cases h
  · split at h
    · cases h
    · cases h
      exact Fault.toError_ofOperation _
  · exact ofOperation_of_mapError h
  · cases h
  · cases h
  · cases h
    exact ofOperation_of_arityError _ _

end Function

theorem Operator.ofOperation_of_apply {op : Operator} {a b : Number} {e : EvalError}
    (h : op.apply a b = .error e) : e.OfOperation := by
  cases op with
  | plus | minus | times | divide => cases h
  | power => exact ofOperation_of_mapError h

namespace Instr

def operands : Instr → Nat
  | .number _ | .constant _ => 0
  | .negate => 1
  | .binary _ => 2
  | .call _ n => n

end Instr

namespace Program

/-- The height of a stack after the program, from the one before it; none where an operand is
missing. -/
def height (h : Nat) : Program → Option Nat
  | [] => some h
  | i :: rest => if i.operands ≤ h then height (h - i.operands + 1) rest else none

theorem height_append (h : Nat) (p q : Program) :
    height h (p ++ q) = (height h p).bind fun k => height k q := by
  induction p generalizing h with
  | nil => rfl
  | cons i rest ih =>
    simp only [List.cons_append, height]
    split
    · exact ih _
    · rfl

theorem step_length {stack stack' : List Number} {i : Instr} (h : step stack i = .ok stack') :
    i.operands ≤ stack.length ∧ stack'.length = stack.length - i.operands + 1 := by
  unfold step at h
  split at h
  · cases h; simp [Instr.operands]
  · cases h; simp [Instr.operands]
  · cases h; simp [Instr.operands]
  · obtain ⟨v, _, rfl⟩ := map_eq_ok_iff.mp h
    simp [Instr.operands]
  · split at h
    · cases h
    · next hn =>
      obtain ⟨v, _, rfl⟩ := map_eq_ok_iff.mp h
      exact ⟨Nat.le_of_not_lt hn, by simp [Instr.operands]⟩
  · cases h

theorem runFrom_length {stack stack' : List Number} {p : Program}
    (h : runFrom stack p = .ok stack') : height stack.length p = some stack'.length := by
  induction p generalizing stack with
  | nil =>
    cases h
    rfl
  | cons i rest ih =>
    obtain ⟨next, hs, hr⟩ := bind_eq_ok_iff.mp h
    obtain ⟨hle, hlen⟩ := step_length hs
    rw [height, if_pos hle, ← hlen]
    exact ih hr

theorem ofOperation_of_step {stack : List Number} {i : Instr} {e : EvalError}
    (hoperands : i.operands ≤ stack.length) (h : step stack i = .error e) : e.OfOperation := by
  cases i with
  | number x | constant c => cases h
  | negate =>
    match stack, hoperands with
    | _ :: _, _ => cases h
  | binary op =>
    match stack, hoperands with
    | b :: a :: rest, _ => exact Operator.ofOperation_of_apply (map_eq_error_iff.mp h)
  | call f n =>
    have hn : ¬stack.length < n := Nat.not_lt.mpr hoperands
    simp only [step, if_neg hn] at h
    exact Function.ofOperation_of_apply (map_eq_error_iff.mp h)

theorem exists_step_of_runFrom {stack : List Number} {p : Program} {e : EvalError}
    (h : runFrom stack p = .error e) : ∃ before i after stack', p = before ++ i :: after ∧
      runFrom stack before = .ok stack' ∧ step stack' i = .error e := by
  induction p generalizing stack with
  | nil => cases h
  | cons i rest ih =>
    rcases bind_eq_error_iff.mp h with hs | ⟨next, hs, hr⟩
    · exact ⟨[], i, rest, stack, rfl, rfl, hs⟩
    · obtain ⟨before, j, after, stack', rfl, hb, hj⟩ := ih hr
      exact ⟨i :: before, j, after, stack', rfl, bind_eq_ok_iff.mpr ⟨next, hs, hb⟩, hj⟩

end Program

namespace Expr

open Program

mutual

/-- On any stack, a listed tree leaves its value. -/
theorem runFrom_emit : ∀ (e : Expr) (rest : Program) (stack : List Number),
    runFrom stack (e.emit rest) = e.eval >>= fun v => runFrom (v :: stack) rest
  | .number _, _, _ | .constant _, _, _ => rfl
  | .negate e, rest, stack => by
    rw [emit, runFrom_emit e, eval]
    cases e.eval <;> rfl
  | .binary op l r, rest, stack => by
    rw [emit, runFrom_emit l, eval]
    cases l.eval with
    | error err => rfl
    | ok a =>
      change runFrom (a :: stack) (r.emit _) = _
      rw [runFrom_emit r]
      cases r.eval with
      | error err => rfl
      | ok b =>
        change (op.apply a b).map (· :: stack) >>= (fun s => runFrom s rest) = op.apply a b >>= _
        cases op.apply a b <;> rfl
  | .call f args, rest, stack => by
    rw [emit, runFrom_emitAll args, eval]
    cases hargs : evalAll args with
    | error err => rfl
    | ok vs =>
      have hlen := length_of_evalAll args hargs
      change (step (vs.reverse ++ stack) (.call f args.length) >>= fun s => runFrom s rest) =
        f.apply vs >>= _
      have hstep : step (vs.reverse ++ stack) (.call f args.length) =
          (f.apply vs).map (· :: stack) := by
        have hn : ¬(vs.reverse ++ stack).length < vs.length := by simp
        simp only [step, ← hlen, if_neg hn]
        simp
      rw [hstep]
      cases f.apply vs <;> rfl

theorem runFrom_emitAll : ∀ (es : List Expr) (rest : Program) (stack : List Number),
    runFrom stack (emitAll rest es) =
      evalAll es >>= fun vs => runFrom (vs.reverse ++ stack) rest
  | [], _, _ => rfl
  | e :: es, rest, stack => by
    rw [emitAll, runFrom_emit e, evalAll]
    cases e.eval with
    | error err => rfl
    | ok v =>
      change runFrom (v :: stack) (emitAll rest es) = _
      rw [runFrom_emitAll es]
      cases evalAll es with
      | error err => rfl
      | ok vs =>
        change runFrom (vs.reverse ++ v :: stack) rest = runFrom ((v :: vs).reverse ++ stack) rest
        simp

theorem length_of_evalAll : ∀ (es : List Expr) {vs : List Number}, evalAll es = .ok vs →
    vs.length = es.length
  | [], _, h => by cases h; rfl
  | e :: es, vs, h => by
    rw [evalAll] at h
    obtain ⟨v, _, h⟩ := bind_eq_ok_iff.mp h
    obtain ⟨ws, hws, h⟩ := bind_eq_ok_iff.mp h
    cases h
    simp [length_of_evalAll es hws]

end

mutual

theorem height_emit : ∀ (e : Expr) (rest : Program) (h : Nat),
    height h (e.emit rest) = height (h + 1) rest
  | .number _, _, _ | .constant _, _, _ => by simp [emit, height, Instr.operands]
  | .negate e, rest, h => by
    rw [emit, height_emit e, height]
    simp [Instr.operands]
  | .binary op l r, rest, h => by
    rw [emit, height_emit l, height_emit r, height]
    simp [Instr.operands]
  | .call f args, rest, h => by
    rw [emit, height_emitAll args, height]
    simp [Instr.operands]

theorem height_emitAll : ∀ (es : List Expr) (rest : Program) (h : Nat),
    height h (emitAll rest es) = height (h + es.length) rest
  | [], _, _ => rfl
  | e :: es, rest, h => by
    rw [emitAll, height_emit e, height_emitAll es, List.length_cons]
    congr 1
    omega

end

theorem run_program (e : Expr) : e.program.run = e.eval := by
  rw [run, program, runFrom_emit]
  cases e.eval <;> rfl

theorem height_program (e : Expr) : height 0 e.program = some 1 := by
  rw [program, height_emit]
  rfl

end Expr

namespace Program

/-- What an instruction finds on the stack: all its operands, and in a call of a function that takes
so many arguments every argument that the function asks for. -/
structure Supplied (stack : List Number) (i : Instr) : Prop where
  operands : i.operands ≤ stack.length
  arguments : ∀ f n, i = .call f n →
    if f.admits n then f.applyAt? (stack.take n).reverse = some (f.apply (stack.take n).reverse)
    else f.apply (stack.take n).reverse = .error (.malformed (f.arityError n))

theorem supplied_of_operands {stack : List Number} {i : Instr} (h : i.operands ≤ stack.length) :
    Supplied stack i := by
  refine ⟨h, ?_⟩
  rintro f n rfl
  have hle : n ≤ stack.length := h
  have hlen : (stack.take n).reverse.length = n := by
    rw [List.length_reverse, List.length_take, Nat.min_eq_left hle]
  have happly := f.apply_eq (stack.take n).reverse
  rwa [hlen] at happly

theorem supplied_of_runFrom {e : Expr} {before after : Program} {i : Instr} {stack : List Number}
    (hp : e.program = before ++ i :: after) (h : runFrom [] before = .ok stack) :
    Supplied stack i := by
  have hheight := e.height_program
  have hbefore : height 0 before = some stack.length := runFrom_length h
  rw [hp, height_append, hbefore, Option.bind_some, height] at hheight
  split at hheight
  · next hle => exact supplied_of_operands hle
  · cases hheight

theorem eq_singleton_of_runFrom {e : Expr} {stack : List Number}
    (h : runFrom [] e.program = .ok stack) : ∃ v, stack = [v] := by
  have hlen := runFrom_length h
  rw [List.length_nil, e.height_program] at hlen
  exact List.length_eq_one_iff.mp (Option.some.inj hlen).symm

theorem ofOperation_of_run {e : Expr} {err : EvalError} (h : e.program.run = .error err) :
    err.OfOperation := by
  rcases bind_eq_error_iff.mp h with hrun | ⟨stack, hrun, hlast⟩
  · obtain ⟨before, i, after, stack, hp, hb, hi⟩ := exists_step_of_runFrom hrun
    exact ofOperation_of_step (supplied_of_runFrom hp hb).operands hi
  · obtain ⟨v, rfl⟩ := eq_singleton_of_runFrom hrun
    cases hlast

/-- The program of an accepted token list runs as the tree that the tokens write is evaluated, with
the same value or the same first error. Each instruction that is reached is supplied, and the run
leaves one value. -/
theorem run_of_ofTokens (ts : List Token) (length : Nat) (p : Program)
    (h : ofTokens ts length = .ok p) :
    (∃ e, Grammar.Writes ts e ∧ p.run = e.eval) ∧
      (∀ before i after stack, p = before ++ i :: after → runFrom [] before = .ok stack →
        Supplied stack i ∧ step stack i ≠ .error (.malformed .unbalancedProgram)) ∧
      (∀ stack, runFrom [] p = .ok stack → ∃ v, stack = [v]) ∧
      p.run ≠ .error (.malformed .unbalancedProgram) := by
  obtain ⟨e, he, rfl⟩ := exists_writes_of_ofTokens h
  refine ⟨⟨e, he, e.run_program⟩, ?_, fun _ => eq_singleton_of_runFrom,
    fun hrun => nomatch ofOperation_of_run hrun⟩
  intro before i after stack hp hb
  have hs := supplied_of_runFrom hp hb
  exact ⟨hs, fun hstep => nomatch ofOperation_of_step hs.operands hstep⟩

/-- The tokens of `2+max(1,sin())*sqrt(-1)`: a call without arguments inside another, and a second
error behind it. -/
def faultyTokens : List Token :=
  [⟨.number (2 * Decimal.one), 0, "2"⟩, ⟨.plus, 1, "+"⟩, ⟨.word "max", 2, "max"⟩,
    ⟨.openParen, 5, "("⟩, ⟨.number Decimal.one, 6, "1"⟩, ⟨.comma, 7, ","⟩, ⟨.word "sin", 8, "sin"⟩,
    ⟨.openParen, 11, "("⟩, ⟨.closeParen, 12, ")"⟩, ⟨.closeParen, 13, ")"⟩, ⟨.star, 14, "*"⟩,
    ⟨.word "sqrt", 15, "sqrt"⟩, ⟨.openParen, 19, "("⟩, ⟨.minus, 20, "-"⟩,
    ⟨.number Decimal.one, 21, "1"⟩, ⟨.closeParen, 22, ")"⟩]

def faultyProgram : Program :=
  [.number (2 * Decimal.one), .number Decimal.one, .call (.unary .sin) 0, .call .max 2,
    .number Decimal.one, .negate, .call (.unary .sqrt) 1, .binary .times, .binary .plus]

theorem run_faultyTokens :
    ofTokens faultyTokens 23 = .ok faultyProgram ∧
      (∃ e, Grammar.Writes faultyTokens e ∧ faultyProgram.run = e.eval) ∧
      faultyProgram.run = .error (.malformed (.tooFewArguments (.unary .sin) 1 0)) := by
  have hread : ofTokens faultyTokens 23 = .ok faultyProgram := by rfl
  exact ⟨hread, (run_of_ofTokens faultyTokens 23 faultyProgram hread).1, by rfl⟩

end Program

end Reckoner
