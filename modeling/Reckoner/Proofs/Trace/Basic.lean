import Reckoner.Proofs.Accuracy.Series

/-!
The arithmetic is run a second time with a record of what it does on the way to its value: the
divisor of each division, each series that is summed and each turn of the repeated squaring. A run
is sound for a value when it gives that value and nothing on its record is out of bounds.
-/
set_option autoImplicit false

namespace Reckoner

namespace Decimal.Series

variable {S : Series} {k n : ℕ}

/-- Spent after `n` turns at the latest. -/
def EndsWithin (S : Series) (n : ℕ) : Prop := ∃ k ≤ n, S.spent (S.term k) = true

theorem sumFrom_of_spent {t : Term} {turns : ℕ} (hk : k ≤ turns)
    (hspent : S.spent (S.next^[k] t) = true) : S.sumFrom turns t = S.sumFrom k t := by
  induction k generalizing turns t with
  | zero =>
    cases turns with
    | zero => rfl
    | succ turns => exact if_pos hspent
  | succ k ih =>
    obtain ⟨turns, rfl⟩ := Nat.exists_eq_add_of_le' hk
    rw [Function.iterate_succ_apply] at hspent
    have hrest := ih (t := S.next t) (Nat.le_add_left k turns) hspent
    rw [← add_assoc, sumFrom, sumFrom, hrest]

/-- The limit on the turns is not what ends the series: any other that leaves it room gives the
same sum. -/
theorem EndsWithin.sumFrom_eq (h : S.EndsWithin n) (hn : n ≤ turnLimit) {turns : ℕ}
    (hturns : n ≤ turns) : S.sumFrom turns S.start = S.sum := by
  obtain ⟨k, hk, hspent⟩ := h
  exact (sumFrom_of_spent (hk.trans hturns) hspent).trans
    (sumFrom_of_spent (hk.trans hn) hspent).symm

end Decimal.Series

inductive Event where
  /-- A quotient or a remainder is taken. -/
  | division (divisor : ℤ)
  /-- A series is summed. -/
  | series (S : Decimal.Series)
  /-- The repeated squaring begins its turn of this number, the first being 1. -/
  | squaring (turn : ℕ)

/-- Nothing is divided by zero, no series takes more than 100 turns and no power more than 64. -/
def Event.Sound : Event → Prop
  | .division d => d ≠ 0
  | .series S => S.EndsWithin 100
  | .squaring turn => turn ≤ 64

structure Traced (α : Type) where
  value : α
  events : List Event

namespace Traced

instance : Monad Traced where
  pure v := ⟨v, []⟩
  bind t f := ⟨(f t.value).value, t.events ++ (f t.value).events⟩

def divide (a b : ℤ) : Traced ℤ := ⟨a.tdiv b, [.division b]⟩

def remainder (a b : ℤ) : Traced ℤ := ⟨a.tmod b, [.division b]⟩

/-- The remainder that is not negative. -/
def residue (a b : ℤ) : Traced ℤ := ⟨a % b, [.division b]⟩

def naturalQuotient (a b : ℕ) : Traced ℕ := ⟨a / b, [.division b]⟩

def note (e : Event) : Traced Unit := ⟨(), [e]⟩

def andThen {ε α β : Type} (t : Traced (Except ε α)) (f : α → Traced (Except ε β)) :
    Traced (Except ε β) := do
  match ← t with
  | .ok a => f a
  | .error e => return .error e

structure Sound {α : Type} (t : Traced α) (v : α) : Prop where
  value_eq : t.value = v
  events : ∀ e ∈ t.events, e.Sound

section

variable {α β : Type} {s t : Traced α} {v w : α}

theorem Sound.pure (v : α) : Sound (pure v) v := ⟨rfl, fun _ he => nomatch he⟩

theorem Sound.bind {f : α → Traced β} {u : β} (ht : Sound t v) (hf : Sound (f v) u) :
    Sound (t >>= f) u := by
  obtain ⟨rfl, hevents⟩ := ht
  exact ⟨hf.value_eq, List.forall_mem_append.mpr ⟨hevents, hf.events⟩⟩

theorem Sound.ite {c : Prop} [Decidable c] (hs : c → Sound s v) (ht : ¬c → Sound t w) :
    Sound (if c then s else t) (if c then v else w) := by
  split
  · next h => exact hs h
  · next h => exact ht h

theorem Sound.andThen {ε : Type} {r : Traced (Except ε α)} {x : Except ε α}
    {f : α → Traced (Except ε β)} {g : α → Except ε β} (hr : Sound r x)
    (hf : ∀ a, x = .ok a → Sound (f a) (g a)) : Sound (r.andThen f) (x >>= g) := by
  refine hr.bind ?_
  cases x with
  | ok a => exact hf a rfl
  | error e => exact .pure _

theorem mem_bind_left {e : Event} {f : α → Traced β} (h : e ∈ t.events) :
    e ∈ (t >>= f).events := List.mem_append_left _ h

theorem mem_bind_right {e : Event} {f : α → Traced β} (ht : Sound t v) (h : e ∈ (f v).events) :
    e ∈ (t >>= f).events := by
  obtain ⟨rfl, -⟩ := ht
  exact List.mem_append_right _ h

theorem mem_divide (a b : ℤ) : .division b ∈ (divide a b).events := List.mem_singleton_self _

theorem sound_divide (a : ℤ) {b : ℤ} (hb : b ≠ 0) : Sound (divide a b) (a.tdiv b) :=
  ⟨rfl, List.forall_mem_singleton.mpr hb⟩

theorem sound_remainder (a : ℤ) {b : ℤ} (hb : b ≠ 0) : Sound (remainder a b) (a.tmod b) :=
  ⟨rfl, List.forall_mem_singleton.mpr hb⟩

theorem sound_residue (a : ℤ) {b : ℤ} (hb : b ≠ 0) : Sound (residue a b) (a % b) :=
  ⟨rfl, List.forall_mem_singleton.mpr hb⟩

theorem sound_naturalQuotient (a : ℕ) {b : ℕ} (hb : 0 < b) :
    Sound (naturalQuotient a b) (a / b) :=
  ⟨rfl, List.forall_mem_singleton.mpr (Int.natCast_ne_zero.mpr hb.ne')⟩

theorem sound_note {e : Event} (he : e.Sound) : Sound (note e) () :=
  ⟨rfl, List.forall_mem_singleton.mpr he⟩

end

end Traced

end Reckoner
