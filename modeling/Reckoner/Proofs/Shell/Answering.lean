import Reckoner.Proofs.Session.Invariant
import Reckoner.Proofs.Text.Trim
import Reckoner.Shell

set_option autoImplicit false

namespace Reckoner.Shell

variable {o : Options} {stamp : Stamp} {s t : Session} {line text : String}

theorem ofLine_expression {c : Char} {cs : List Char} (h : Text.trimChars line.toList = c :: cs)
    (hc : c ≠ ':') : Entry.ofLine line = .expression (Text.trim line) := by
  have hblank : Text.isBlank c = false := Text.head?_trimChars line.toList c (by rw [h]; rfl)
  have hword : (splitCommand (c :: cs)).1 = c :: cs.takeWhile fun c => !Text.isBlank c := by
    rw [splitCommand, List.takeWhile_cons_of_pos (by simp [hblank])]
  have hne (command : String) (hcommand : command.toList.head? = some ':') :
      String.ofList (splitCommand (c :: cs)).1 ≠ command := by
    rintro rfl
    rw [String.toList_ofList, hword, List.head?_cons] at hcommand
    exact hc (Option.some.inj hcommand)
  -- Every command begins with a colon, which the first word of the line does not.
  unfold Entry.ofLine
  simp only [h, List.isEmpty_cons, Bool.false_eq_true, if_false]
  split
  iterate 7
    next heq => exact absurd heq (hne _ rfl)
  · rw [hword, List.head?_cons, if_neg (by simpa using hc), Text.trim, h]

theorem answer_reload (o : Options) (stamp : Stamp) (s : Session) (argument : String) :
    answer o stamp s (.reload argument) = reload s argument :=
  rfl

theorem answer_delete (o : Options) (stamp : Stamp) (s : Session) (argument : String) :
    answer o stamp s (.delete argument) = delete s argument :=
  rfl

theorem answer_expression (o : Options) (stamp : Stamp) (s : Session) (text : String) :
    answer o stamp s (.expression text) = calculate o stamp s text :=
  rfl

theorem reload_cases (s : Session) (argument : String) :
    (∃ i : Item, ∃ printed, reload s argument =
        { printed, session := { s with input := i.expression, live := .value i.result } }) ∨
      reload s argument = { printed := unknownId argument, session := s } := by
  rw [reload]
  cases hid : (Uuid.ofText? argument).bind s.reload? with
  | none => exact .inr rfl
  | some r =>
    obtain ⟨id, -, hr⟩ := Option.bind_eq_some_iff.mp hid
    obtain ⟨i, -, rfl⟩ := Option.map_eq_some_iff.mp hr
    exact .inl ⟨i, _, rfl⟩

theorem delete_cases (s : Session) (argument : String) :
    (∃ id, Uuid.ofText? argument = some id ∧ s.history.contains id = true ∧ delete s argument =
        { printed := "supprimé\n", session := { s with history := s.history.erase id } }) ∨
      (Uuid.ofText? argument).any s.history.contains = false ∧
        delete s argument = { printed := unknownId argument, session := s } := by
  rw [delete]
  cases Uuid.ofText? argument with
  | none => exact .inr ⟨rfl, rfl⟩
  | some id =>
    rw [Option.bind_some, Option.any_some, Session.delete?]
    cases hid : s.history.contains id with
    | false => exact .inr ⟨rfl, rfl⟩
    | true => exact .inl ⟨id, rfl, hid, rfl⟩

theorem walkthroughText_congr (h : s.evaluator = t.evaluator) (o : Options) (text : String) :
    walkthroughText o s text = walkthroughText o t text := by
  rw [walkthroughText, walkthroughText, h]

theorem calculate_cases (o : Options) (stamp : Stamp) (s : Session) (text : String) :
    (∃ e, s.evaluator.evaluate text s.precision = .error e ∧ calculate o stamp s text =
        { printed := resultText o (s.enter text).live ++ "\n"
          diagnostics := walkthroughText o s text, session := s.enter text }) ∨
      ∃ x i, s.evaluator.evaluate text s.precision = .ok x ∧ calculate o stamp s text =
        { printed := resultText o (.value x) ++ "\n"
          diagnostics := walkthroughText o s text
          session := { s with history := s.history.push i }.clearInput, added := true } := by
  rw [calculate]
  rcases (s.enter text).submit_cases stamp with ⟨e, he, hsubmit⟩ | ⟨normal, x, hx, -, -, hsubmit⟩
  · refine .inl ⟨e, he, ?_⟩
    rw [hsubmit]
    dsimp only
    rw [walkthroughText_congr (s := (s.enter text).refresh) (t := s) rfl]
    rfl
  · refine .inr ⟨x, Session.itemOf normal x stamp, hx, ?_⟩
    rw [hsubmit]
    dsimp only
    rfl

theorem settings_answer (o : Options) (stamp : Stamp) (s : Session) (entry : Entry) :
    (answer o stamp s entry).session.evaluator = s.evaluator ∧
      (answer o stamp s entry).session.precision = s.precision := by
  cases entry with
  | blank | quit | help | history | clear | unknown command => exact ⟨rfl, rfl⟩
  | reload argument =>
    rcases reload_cases s argument with ⟨i, printed, h⟩ | h <;> rw [answer_reload, h] <;>
      exact ⟨rfl, rfl⟩
  | delete argument =>
    rcases delete_cases s argument with ⟨id, -, -, h⟩ | ⟨-, h⟩ <;> rw [answer_delete, h] <;>
      exact ⟨rfl, rfl⟩
  | expression text =>
    rcases calculate_cases o stamp s text with ⟨e, -, h⟩ | ⟨x, i, -, h⟩ <;>
      rw [answer_expression, h] <;> exact ⟨rfl, rfl⟩

/-- The turn without the text entered last and its result. -/
def Turn.settled (t : Turn) : Turn := { t with session := t.session.clearInput }

def Turn.shown (t : Turn) : String × String := (t.printed, t.diagnostics)

theorem Turn.of_settled_eq {u v : Turn} (h : u.settled = v.settled) :
    u.shown = v.shown ∧ u.session.clearInput = v.session.clearInput ∧ u.added = v.added := by
  obtain ⟨hprinted, hdiagnostics, hsession, hadded, -⟩ := Turn.mk.inj h
  exact ⟨Prod.ext hprinted hdiagnostics, hsession, hadded⟩

theorem Turn.settled_clearInput (printed diagnostics : String) (s : Session) (added isLast : Bool) :
    (mk printed diagnostics s.clearInput added isLast).settled =
      (mk printed diagnostics s added isLast).settled :=
  rfl

theorem delete?_clearInput (s : Session) (id : Uuid) :
    s.clearInput.delete? id = (s.delete? id).map Session.clearInput := by
  change (if s.history.contains id then _ else _) = _
  rw [Session.delete?]
  split <;> rfl

/-- Answers do not depend on the text entered before and its result. -/
theorem settled_answer (o : Options) (stamp : Stamp) (s : Session) (entry : Entry) :
    (answer o stamp s.clearInput entry).settled = (answer o stamp s entry).settled := by
  cases entry with
  | blank => exact Turn.settled_clearInput ..
  | quit => exact Turn.settled_clearInput ..
  | help => exact Turn.settled_clearInput ..
  | history => exact Turn.settled_clearInput ..
  | clear => exact Turn.settled_clearInput _ _ s.clearHistory _ _
  | unknown command => exact Turn.settled_clearInput ..
  | reload argument =>
    have hreload : s.clearInput.reload? = s.reload? := rfl
    rw [answer_reload, answer_reload, reload, reload, hreload]
    cases (Uuid.ofText? argument).bind s.reload? <;> rfl
  | delete argument =>
    rw [answer_delete, answer_delete, delete, delete]
    cases Uuid.ofText? argument with
    | none => rfl
    | some id =>
      rw [Option.bind_some, Option.bind_some, delete?_clearInput]
      cases s.delete? id <;> rfl
  | expression text =>
    have henter : s.clearInput.enter text = s.enter text := rfl
    rw [answer_expression, answer_expression, calculate, calculate, henter]

theorem settled_respond (o : Options) (stamp : Stamp) (h : s.clearInput = t.clearInput)
    (line : String) :
    (respond o stamp s line).settled = (respond o stamp t line).settled := by
  rw [respond, ← settled_answer, h, settled_answer, respond]

theorem isLast_answer (o : Options) (stamp : Stamp) (s : Session) (entry : Entry) :
    (answer o stamp s entry).isLast = decide (entry = .quit) := by
  cases entry with
  | blank | quit | help | history | clear | unknown command => rfl
  | reload argument =>
    rcases reload_cases s argument with ⟨i, printed, h⟩ | h <;> rw [answer_reload, h] <;> rfl
  | delete argument =>
    rcases delete_cases s argument with ⟨id, -, -, h⟩ | ⟨-, h⟩ <;> rw [answer_delete, h] <;> rfl
  | expression text =>
    rcases calculate_cases o stamp s text with ⟨e, -, h⟩ | ⟨x, i, -, h⟩ <;>
      rw [answer_expression, h] <;> rfl

theorem isLast_respond (o : Options) (stamp : Stamp) (s : Session) (line : String) :
    (respond o stamp s line).isLast = decide (Entry.ofLine line = .quit) :=
  isLast_answer ..

def Turn.count (t : Turn) (n : Nat) : Nat := if t.added then n + 1 else n

theorem converse_of_quit {stamp : Nat → Stamp} (h : Entry.ofLine line = .quit) (n : Nat)
    (rest : List String) :
    converse o stamp s n (line :: rest) = [respond o (stamp n) s line] := by
  simp only [converse, isLast_respond, h, decide_true, if_true]

theorem converse_of_ne_quit {stamp : Nat → Stamp} (h : Entry.ofLine line ≠ .quit) (n : Nat)
    (rest : List String) :
    converse o stamp s n (line :: rest) = respond o (stamp n) s line ::
      converse o stamp (respond o (stamp n) s line).session
        ((respond o (stamp n) s line).count n) rest := by
  simp only [converse, isLast_respond, decide_eq_false h, Bool.false_eq_true, if_false, Turn.count]

end Reckoner.Shell
