import Reckoner.Proofs.Shell.Answering

set_option autoImplicit false

namespace Reckoner.Shell

variable {o : Options} {stamp : Nat → Stamp} {s t : Session} {entry : Entry} {n : Nat}

/-- What neither ends a run nor changes the history. -/
def Entry.ReadOnly (s : Session) : Entry → Prop
  | .blank | .help | .history | .reload _ | .unknown _ => True
  | .delete argument => (Uuid.ofText? argument).any s.history.contains = false
  | .expression text => (s.evaluator.evaluate text s.precision).isOk = false
  | .quit | .clear => False

instance (s : Session) : DecidablePred (Entry.ReadOnly s)
  | .blank | .help | .history | .reload _ | .unknown _ => inferInstanceAs (Decidable True)
  | .delete _ | .expression _ => inferInstanceAs (Decidable (_ = false))
  | .quit | .clear => inferInstanceAs (Decidable False)

theorem Entry.ReadOnly.ne_quit (h : entry.ReadOnly s) : entry ≠ .quit := by
  rintro rfl
  exact h

theorem answer_of_readOnly (o : Options) (stamp : Stamp) (h : entry.ReadOnly s) :
    (answer o stamp s entry).session.clearInput = s.clearInput ∧
      (answer o stamp s entry).added = false := by
  cases entry with
  | blank | help | history | unknown command => exact ⟨rfl, rfl⟩
  | quit | clear => exact h.elim
  | reload argument =>
    rcases reload_cases s argument with ⟨i, printed, hreload⟩ | hreload <;>
    · rw [answer_reload, hreload]
      exact ⟨rfl, rfl⟩
  | delete argument =>
    rcases delete_cases s argument with ⟨id, hid, hcontains, -⟩ | ⟨-, hdelete⟩
    · have hnone : (Uuid.ofText? argument).any s.history.contains = false := h
      rw [hid, Option.any_some, hcontains] at hnone
      cases hnone
    · rw [answer_delete, hdelete]
      exact ⟨rfl, rfl⟩
  | expression text =>
    rcases calculate_cases o stamp s text with ⟨e, -, hcalculate⟩ | ⟨x, i, hx, -⟩
    · rw [answer_expression, hcalculate]
      exact ⟨rfl, rfl⟩
    · have hfails : (s.evaluator.evaluate text s.precision).isOk = false := h
      rw [hx] at hfails
      cases hfails

theorem respond_of_readOnly {line : String} (o : Options) (stamp : Stamp)
    (h : (Entry.ofLine line).ReadOnly s) (n : Nat) :
    (respond o stamp s line).session.clearInput = s.clearInput ∧
      (respond o stamp s line).count n = n := by
  obtain ⟨hsession, hadded⟩ := answer_of_readOnly o stamp h
  refine ⟨hsession, ?_⟩
  rw [respond, Turn.count, hadded]
  rfl

def unmarked {α : Type} (xs : List (α × Bool)) : List α := (xs.filter fun x => !x.2).map Prod.fst

theorem unmarked_cons_true {α : Type} (x : α) (xs : List (α × Bool)) :
    unmarked ((x, true) :: xs) = unmarked xs :=
  rfl

theorem unmarked_cons_false {α : Type} (x : α) (xs : List (α × Bool)) :
    unmarked ((x, false) :: xs) = x :: unmarked xs :=
  rfl

/-- Up to the line that ends the run, every line marked is read-only when it is answered. -/
def MarksReadOnly (o : Options) (stamp : Nat → Stamp) (s : Session) (n : Nat) :
    List (String × Bool) → Prop
  | [] => True
  | (line, marked) :: rest =>
    (marked = true → (Entry.ofLine line).ReadOnly s) ∧
      (Entry.ofLine line ≠ .quit → MarksReadOnly o stamp (respond o (stamp n) s line).session
        ((respond o (stamp n) s line).count n) rest)

instance decidableMarksReadOnly (o : Options) (stamp : Nat → Stamp) (s : Session) (n : Nat) :
    (marked : List (String × Bool)) → Decidable (MarksReadOnly o stamp s n marked)
  | [] => inferInstanceAs (Decidable True)
  | (line, marked) :: rest =>
    have := decidableMarksReadOnly o stamp (respond o (stamp n) s line).session
      ((respond o (stamp n) s line).count n) rest
    inferInstanceAs (Decidable ((marked = true → (Entry.ofLine line).ReadOnly s) ∧
      (Entry.ofLine line ≠ .quit → MarksReadOnly ..)))

/-- Two conversations go on alike when their sessions differ in the text entered alone. -/
theorem converse_unmarked_of_clearInput (marked : List (String × Bool))
    (hsession : s.clearInput = t.clearInput) (h : MarksReadOnly o stamp s n marked) :
    (converse o stamp t n (unmarked marked)).map Turn.shown =
      (unmarked ((converse o stamp s n (marked.map Prod.fst)).zip (marked.map Prod.snd))).map
        Turn.shown := by
  -- Along the lines the two sessions stay equal up to the text entered, and the numbers of items
  -- added stay equal, so that the next item gets the same stamp in both.
  induction marked generalizing s t n with
  | nil => rfl
  | cons first rest ih =>
    obtain ⟨line, mark⟩ := first
    obtain ⟨hline, hrest⟩ := h
    rw [List.map_cons, List.map_cons]
    cases mark with
    | true =>
      have hread := hline rfl
      obtain ⟨hnext, hcount⟩ := respond_of_readOnly o (stamp n) hread n
      have hgoes := ih (hnext.trans hsession) (hrest hread.ne_quit)
      rw [converse_of_ne_quit hread.ne_quit, List.zip_cons_cons, unmarked_cons_true,
        unmarked_cons_true, ← hgoes, hcount]
    | false =>
      obtain ⟨hshown, hnext, hadded⟩ :=
        Turn.of_settled_eq (settled_respond o (stamp n) hsession line)
      rw [unmarked_cons_false]
      by_cases hquit : Entry.ofLine line = .quit
      · rw [converse_of_quit hquit, converse_of_quit hquit, List.zip_cons_cons,
          unmarked_cons_false, List.map_cons, List.map_cons, hshown]
        rfl
      · have hgoes := ih hnext (hrest hquit)
        rw [converse_of_ne_quit hquit, converse_of_ne_quit hquit, List.zip_cons_cons,
          unmarked_cons_false, List.map_cons, List.map_cons, hshown, ← hgoes, Turn.count, Turn.count,
          hadded]

/-- Leaving out read-only lines leaves what is printed for every other line as it was. -/
theorem converse_unmarked (o : Options) (stamp : Nat → Stamp) (s : Session) (n : Nat)
    (marked : List (String × Bool)) (h : MarksReadOnly o stamp s n marked) :
    (converse o stamp s n (unmarked marked)).map Turn.shown =
      (unmarked ((converse o stamp s n (marked.map Prod.fst)).zip (marked.map Prod.snd))).map
        Turn.shown :=
  converse_unmarked_of_clearInput marked rfl h

def countingStamp (n : Nat) : Stamp := ⟨⟨BitVec.ofNat 128 n⟩, 1000 * n⟩

def chatter : List (String × Bool) :=
  [("1/3\n", false), (" \n", true), (":help\n", true),
    (":recall 00000000-0000-0000-0000-000000000000\n", true), ("1/0\n", true),
    (":delete 00000000-0000-0000-0000-000000000001\n", true), ("2 + 2\n", false),
    (" pi +\n", true), (":recall x\n", true), (":nope\n", true), (":history\n", true),
    (":delete 00000000-0000-0000-0000-000000000000\n", false), (":history\n", false),
    (":q\n", false), (":clear\n", true), (":help\n", false)]

theorem converse_unmarked_chatter :
    (converse {} countingStamp {} 0 (unmarked chatter)).map Turn.shown =
      (unmarked ((converse {} countingStamp {} 0 (chatter.map Prod.fst)).zip
        (chatter.map Prod.snd))).map Turn.shown ∧
    (converse {} countingStamp {} 0 (unmarked chatter)).map Turn.printed =
      ["0.33333\n", "4\n", "supprimé\n", "00000000-0000-0000-0000-000000000001  00:00:01  " ++
        "2+2                              = 4\n", ""] :=
  ⟨converse_unmarked {} countingStamp {} 0 chatter (by decide +kernel), by decide +kernel⟩

end Reckoner.Shell
