import Reckoner.Proofs.History.Items
import Reckoner.Session

set_option autoImplicit false

namespace Reckoner

namespace Session

variable {c : Settings} {s : Session} {shown : Option Item}

def itemOf (normal : String) (x : Binary64) (stamp : Stamp) : Item :=
  ⟨stamp.id, Text.withoutBlanks normal, x, stamp.moment⟩

theorem wellFormed_itemOf {normal : String} {x : Binary64} (hnormal : Text.isAllBlank normal = false)
    (hx : x.isFinite = true) (stamp : Stamp) : (itemOf normal x stamp).WellFormed := by
  refine ⟨fun hempty => ?_, fun c => Text.mem_withoutBlanks, hx⟩
  rw [itemOf, Text.withoutBlanks_eq_empty_iff, hnormal] at hempty
  cases hempty

/-- A submission fails with the error of the input and shows it, or keeps a result and clears the
input. -/
theorem submit_cases (s : Session) (stamp : Stamp) :
    (∃ e, s.evaluator.evaluate s.input s.precision = .error e ∧
        s.submit stamp = (.error e, s.refresh)) ∨
      ∃ normal x, s.evaluator.evaluate s.input s.precision = .ok x ∧
        s.evaluator.normalize s.input = .ok normal ∧ (itemOf normal x stamp).WellFormed ∧
        s.submit stamp = (.ok (itemOf normal x stamp),
          { s with history := s.history.push (itemOf normal x stamp) }.clearInput) := by
  cases hvalue : s.evaluator.evaluate s.input s.precision with
  | error e =>
    refine .inl ⟨e, rfl, ?_⟩
    rw [submit, refresh, hvalue]
    rfl
  | ok x =>
    obtain ⟨hx, normal, hnormal, hblank⟩ := Evaluator.evaluate_eq_ok hvalue
    refine .inr ⟨normal, x, rfl, hnormal, wellFormed_itemOf hblank hx stamp, ?_⟩
    rw [submit, hvalue]
    simp only [hnormal, History.add?_of_isAllBlank hblank]
    rfl

/-- The item whose kept result is shown after an action: the one that is recalled, or that was and
is not yet replaced. Recalling an unknown identifier and changing the history alone do not matter. -/
def shownAfter (s : Session) (shown : Option Item) : Action → Option Item
  | .reload id => (s.history.find? id).or shown
  | .delete _ | .clearHistory => shown
  | .enter _ | .setPrecision _ | .submit _ | .clearInput | .reset => none

def shownAfterAll (s : Session) (shown : Option Item) : List Action → Option Item
  | [] => shown
  | a :: rest => (s.perform a).shownAfterAll (s.shownAfter shown a) rest

/-- The result shown is that of the item or, without one, what the input evaluates to. -/
def Shows (s : Session) : Option Item → Prop
  | some i => i.WellFormed ∧ s.input = i.expression ∧ s.live = .value i.result
  | none => s.live = s.refresh.live

theorem shows_refresh (s : Session) : s.refresh.Shows none := rfl

theorem shows_clearInput (s : Session) : s.clearInput.Shows none := rfl

theorem Shows.withHistory (h : s.Shows shown) (history : History) :
    { s with history }.Shows shown := by
  cases shown <;> exact h

theorem Shows.waiting_iff (h : s.Shows shown) : s.live = .waiting ↔ s.hasInput = false := by
  cases shown with
  | some i =>
    obtain ⟨hi, hinput, hlive⟩ := h
    rw [hlive, hasInput, hinput, hi.isAllBlank]
    simp
  | none =>
    rw [show s.live = s.refresh.live from h, refresh]
    cases hinput : s.hasInput with
    | false => simp
    | true => cases s.evaluator.evaluate s.input s.precision <;> simp [Live.ofOutcome]

theorem Shows.ne_empty (h : s.Shows shown) : s.live ≠ .error .empty := by
  cases shown with
  | some i =>
    rw [h.2.2]
    exact nofun
  | none =>
    rw [show s.live = s.refresh.live from h, refresh]
    cases hinput : s.hasInput with
    | false => simp
    | true =>
      cases hvalue : s.evaluator.evaluate s.input s.precision with
      | ok x => simp [Live.ofOutcome]
      | error e =>
        rintro ⟨⟩
        rw [hasInput, (Evaluator.evaluate_eq_empty_iff _).mp hvalue] at hinput
        cases hinput

theorem Shows.isFinite (h : s.Shows shown) {x : Binary64} (hx : s.live = .value x) :
    x.isFinite = true := by
  cases shown with
  | some i =>
    obtain ⟨hi, -, hlive⟩ := h
    rw [hlive] at hx
    cases hx
    exact hi.finite
  | none =>
    rw [show s.live = s.refresh.live from h, refresh] at hx
    cases hinput : s.hasInput with
    | false => simp [hinput] at hx
    | true =>
      cases hvalue : s.evaluator.evaluate s.input s.precision with
      | error e => simp [hinput, hvalue, Live.ofOutcome] at hx
      | ok y =>
        simp only [hinput, hvalue, Live.ofOutcome, if_true] at hx
        cases hx
        exact (Evaluator.evaluate_eq_ok hvalue).1

/-- What a session started with given settings keeps to, while it shows the result of an item or
that of its input. -/
structure Keeps (c : Settings) (s : Session) (shown : Option Item) : Prop where
  evaluator : s.evaluator = ⟨c.maxLength⟩
  precision : s.precision ≤ 64
  limit : s.history.limit = max c.historyLimit 1
  history : s.history.WellFormed
  shows : s.Shows shown

theorem keeps_start (c : Settings) : (start c).Keeps c none :=
  ⟨rfl, min_le_right _ _, rfl, .empty _, rfl⟩

theorem Keeps.refresh (h : s.Keeps c shown) : s.refresh.Keeps c none :=
  ⟨h.evaluator, h.precision, h.limit, h.history, s.shows_refresh⟩

theorem Keeps.clearInput (h : s.Keeps c shown) : s.clearInput.Keeps c none :=
  ⟨h.evaluator, h.precision, h.limit, h.history, s.shows_clearInput⟩

theorem Keeps.withHistory (h : s.Keeps c shown) (history : History)
    (hlimit : history.limit = s.history.limit) (hhistory : history.WellFormed) :
    { s with history }.Keeps c shown :=
  ⟨h.evaluator, h.precision, hlimit.trans h.limit, hhistory, h.shows.withHistory history⟩

theorem Keeps.perform (h : s.Keeps c shown) (a : Action) :
    (s.perform a).Keeps c (s.shownAfter shown a) := by
  cases a with
  | enter text => exact ⟨h.evaluator, h.precision, h.limit, h.history, shows_refresh _⟩
  | setPrecision precision =>
    exact ⟨h.evaluator, min_le_right _ _, h.limit, h.history, shows_refresh _⟩
  | submit stamp =>
    rw [Session.perform]
    rcases s.submit_cases stamp with ⟨e, -, hsubmit⟩ | ⟨normal, x, -, -, hitem, hsubmit⟩
    · rw [hsubmit]
      exact h.refresh
    · rw [hsubmit]
      exact (h.withHistory (s.history.push _) rfl (h.history.push hitem)).clearInput
  | reload id =>
    rw [Session.perform, reload?, shownAfter]
    cases hfind : s.history.find? id with
    | none => exact h
    | some i =>
      have hi := h.history.items i (History.mem_of_find? hfind)
      exact ⟨h.evaluator, h.precision, h.limit, h.history, hi, rfl, rfl⟩
  | delete id =>
    rw [Session.perform, delete?]
    split
    · exact h.withHistory _ rfl (h.history.erase id)
    · exact h
  | clearHistory => exact h.withHistory _ rfl (.clear _)
  | clearInput => exact h.clearInput
  | reset => exact ⟨h.evaluator, (by decide : defaultPrecision ≤ 64), h.limit, .clear _, rfl⟩

theorem Keeps.performAll (h : s.Keeps c shown) (actions : List Action) :
    (s.performAll actions).Keeps c (s.shownAfterAll shown actions) := by
  induction actions generalizing s shown with
  | nil => exact h
  | cons a rest ih => exact ih (h.perform a)

/-- What holds of a session at any time, where `shown` is the item whose kept result is shown. -/
structure Invariant (c : Settings) (s : Session) (shown : Option Item) : Prop where
  waiting_iff : s.live = .waiting ↔ s.hasInput = false
  ne_empty : s.live ≠ .error .empty
  finite : ∀ x, s.live = .value x → x.isFinite = true
  precision : s.precision ≤ 64
  limit : s.history.limit = max c.historyLimit 1
  size : s.history.size ≤ max c.historyLimit 1
  items : ∀ i ∈ s.history.items, i.expression ≠ "" ∧
    (∀ ch ∈ i.expression.toList, Text.isBlank ch = false) ∧ i.result.isFinite = true
  recalled : ∀ i, shown = some i → s.live = .value i.result
  current : shown = none → s.hasInput = true →
    s.live = .ofOutcome (Evaluator.evaluate ⟨c.maxLength⟩ s.input s.precision)

/-- Every run of a session keeps to the invariant. -/
theorem performAll_invariant (c : Settings) (actions : List Action) :
    Invariant c ((start c).performAll actions) ((start c).shownAfterAll none actions) := by
  have h := (keeps_start c).performAll actions
  generalize (start c).performAll actions = s at h
  generalize (start c).shownAfterAll none actions = shown at h
  refine ⟨h.shows.waiting_iff, h.shows.ne_empty, fun x => h.shows.isFinite, h.precision, h.limit,
    h.limit ▸ h.history.size, fun i hi => ?_, ?_, ?_⟩
  · have hitem := h.history.items i hi
    exact ⟨hitem.nonempty, hitem.noBlanks, hitem.finite⟩
  · rintro i rfl
    exact h.shows.2.2
  · rintro rfl hinput
    have hlive : s.live = s.refresh.live := h.shows
    rw [hlive, Session.refresh, if_pos hinput, h.evaluator]

end Session

namespace History

variable {h : History} {i : Item}

/-- The item is in front, and behind it are the items that were there: all of them, or all but the
oldest where there was no more room. -/
structure Gained (h : History) (i : Item) (after : History) : Prop where
  limit : after.limit = h.limit
  items : after.items = i :: if h.size < h.limit then h.items else h.items.dropLast

theorem WellFormed.gained_push (hh : h.WellFormed) (i : Item) : h.Gained i (h.push i) := by
  refine ⟨rfl, (h.push_items i).trans (congrArg (i :: ·) ?_)⟩
  have hsize : h.items.length ≤ h.limit := hh.size
  split
  · next hroom => exact List.take_of_length_le (Nat.le_sub_one_of_lt hroom)
  · next hfull =>
    rw [List.dropLast_eq_take, Nat.le_antisymm hsize (Nat.le_of_not_lt hfull)]

end History

namespace Session

variable {s t : Session} {e : EvalError} {x : Binary64} {i : Item} {stamp : Stamp}

/-- Nothing is changed but what is shown: the error, or that nothing was entered. -/
structure Refused (s : Session) (e : EvalError) (t : Session) : Prop where
  input : t.input = s.input
  history : t.history = s.history
  precision : t.precision = s.precision
  evaluator : t.evaluator = s.evaluator
  live : t.live = if s.hasInput then .error e else .waiting

/-- The item has the result, and the expression in normal form without its blanks; it is in the
history, and the session waits for the next input. -/
structure Accepted (s : Session) (x : Binary64) (stamp : Stamp) (i : Item) (t : Session) :
    Prop where
  result : i.result = x
  expression : ∃ normal, s.evaluator.normalize s.input = .ok normal ∧
    i.expression = Text.withoutBlanks normal
  marked : i.id = stamp.id ∧ i.moment = stamp.moment
  history : s.history.Gained i t.history
  input : t.input = ""
  live : t.live = .waiting
  precision : t.precision = s.precision
  evaluator : t.evaluator = s.evaluator

structure Atomic (s : Session) (stamp : Stamp) : Prop where
  failure : ∀ e, s.evaluator.evaluate s.input s.precision = .error e →
    ∃ t, s.submit stamp = (.error e, t) ∧ s.Refused e t
  success : ∀ x, s.evaluator.evaluate s.input s.precision = .ok x →
    ∃ i t, s.submit stamp = (.ok i, t) ∧ s.Accepted x stamp i t

theorem refused_refresh (he : s.evaluator.evaluate s.input s.precision = .error e) :
    s.Refused e s.refresh := by
  refine ⟨rfl, rfl, rfl, rfl, ?_⟩
  rw [refresh, he]
  rfl

theorem accepted_push {normal : String} (hs : s.history.WellFormed)
    (hnormal : s.evaluator.normalize s.input = .ok normal) (x : Binary64) (stamp : Stamp) :
    s.Accepted x stamp (itemOf normal x stamp)
      { s with history := s.history.push (itemOf normal x stamp) }.clearInput :=
  ⟨rfl, ⟨normal, hnormal, rfl⟩, ⟨rfl, rfl⟩, hs.gained_push _, rfl, rfl, rfl, rfl⟩

theorem atomic_of_wellFormed (hs : s.history.WellFormed) (stamp : Stamp) : s.Atomic stamp := by
  rcases s.submit_cases stamp with ⟨e, he, hsubmit⟩ | ⟨normal, x, hx, hnormal, -, hsubmit⟩
  · refine ⟨fun e' he' => ?_, fun x hx => ?_⟩
    · obtain rfl := Except.error.inj (he.symm.trans he')
      exact ⟨s.refresh, hsubmit, refused_refresh he⟩
    · rw [he] at hx
      cases hx
  · refine ⟨fun e he => ?_, fun x' hx' => ?_⟩
    · rw [hx] at he
      cases he
    · obtain rfl := Except.ok.inj (hx.symm.trans hx')
      exact ⟨_, _, hsubmit, accepted_push hs hnormal x stamp⟩

/-- Whatever was done before, a submission is atomic. -/
theorem submit_atomic (c : Settings) (actions : List Action) (stamp : Stamp) :
    ((start c).performAll actions).Atomic stamp :=
  atomic_of_wellFormed ((keeps_start c).performAll actions).history stamp

example : ((start { historyLimit := 2 }).performAll
    [.enter "1", .submit ⟨⟨1⟩, 0⟩, .enter "2 pi", .submit ⟨⟨2⟩, 0⟩, .enter "1/0", .submit ⟨⟨3⟩, 0⟩,
      .enter "3", .submit ⟨⟨4⟩, 0⟩]).history.items.map Item.expression = ["3", "2PI"] := by
  decide +kernel

end Session

end Reckoner
