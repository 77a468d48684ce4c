import Reckoner.Proofs.Catalogue
import Reckoner.Proofs.Outcome
import Reckoner.Proofs.Reader.Grammar
import Reckoner.Proofs.Reader.Stepping

/-!
`Awaits` says which tokens the frames stand for, and which category the operand that they await
has. Every cursor that the reader reaches is a context followed by what is complete of its operand,
so that a list read to its end is derived as a sum.
-/
set_option autoImplicit false

namespace Reckoner

namespace Grammar

def room (frames : List Frame) : Nat := depthLimit - Frame.depth frames

/-- `Awaits c frames ts next`: after the tokens `ts` the frames await an operand of category `c`,
whose first token is of the kind `next`. -/
inductive Awaits : Category → List Frame → List Token.Kind → Option Token.Kind → Prop where
  | start (next : Option Token.Kind) : Awaits .sum [] [] next
  | group {c : Category} {frames : List Frame} {ts : List Token.Kind} (next : Option Token.Kind) :
    Awaits c frames ts (some .openParen) → Frame.depth frames < depthLimit →
    Awaits .sum (.group :: frames) (ts ++ [.openParen]) next
  | firstArgument {c : Category} {frames : List Frame} {ts : List Token.Kind} {f : Function}
    {w : String} (next : Option Token.Kind) :
    Function.named? w = some f → Awaits c frames ts (some (.word w)) →
    Frame.depth frames < depthLimit →
    Awaits .sum (.call f [] :: frames) (ts ++ [.word w, .openParen]) next
  | nextArgument {c : Category} {frames : List Frame} {ts us : List Token.Kind} {f : Function}
    {w : String} {done : List Expr} (next : Option Token.Kind) :
    Function.named? w = some f → Awaits c frames ts (some (.word w)) →
    Frame.depth frames < depthLimit →
    Derives .arguments (room (.call f done :: frames)) us done.reverse →
    Awaits .sum (.call f done :: frames) (ts ++ .word w :: .openParen :: us ++ [.comma]) next
  | operator {c : Category} {frames : List Frame} {ts us : List Token.Kind} {l : Expr}
    (op : Operator) (next : Option Token.Kind) :
    Awaits c frames ts us.head? → Derives op.leftCategory (room frames) us [l] →
    op.category.level ≤ c.level →
    Awaits op.rightCategory (.left l op :: frames) (ts ++ us ++ [op.kind]) next
  | factor {c : Category} {frames : List Frame} {ts us : List Token.Kind} {l : Expr}
    {next : Option Token.Kind} :
    Awaits c frames ts us.head? → Derives .product (room frames) us [l] →
    Category.product.level ≤ c.level → mayMeet us.getLast? next = true →
    Awaits .power (.left l .times :: frames) (ts ++ us) next
  | negative {c : Category} {frames : List Frame} {ts : List Token.Kind}
    (next : Option Token.Kind) :
    Awaits c frames ts (some .minus) → Category.signed.level ≤ c.level →
    Awaits .signed (.negate :: frames) (ts ++ [.minus]) next
  | positive {c : Category} {frames : List Frame} {ts : List Token.Kind}
    (next : Option Token.Kind) :
    Awaits c frames ts (some .plus) → Category.signed.level ≤ c.level →
    Awaits .signed frames (ts ++ [.plus]) next

/-- `Holds c b frames e read`: the tokens `read` are a context of the frames followed by an operand
of category `c` that writes `e`, where an operand of category `b` may stand. -/
def Holds (c b : Category) (frames : List Frame) (e : Expr) (read : List Token.Kind) : Prop :=
  ∃ a ts us, read = ts ++ us ∧ Awaits a frames ts us.head? ∧
    Derives c (room frames) us [e] ∧ b.level ≤ a.level

theorem Awaits.power_le {c : Category} {frames : List Frame} {ts : List Token.Kind}
    {next : Option Token.Kind} (h : Awaits c frames ts next) :
    Category.power.level ≤ c.level := by
  cases h with
  | operator op => cases op <;> decide
  | start | group | firstArgument | nextArgument | factor | negative | positive => decide

theorem leftCategory_eq {op : Operator} (h : op ≠ .power) : op.leftCategory = op.category := by
  cases op with
  | plus | minus | times | divide => rfl
  | power => exact absurd rfl h

theorem level_le_of_bindsTo {op o : Operator} {l : Expr}
    (hb : (Frame.left l o).bindsTo op = true) : o.category.level ≤ op.category.level := by
  cases op <;> cases o <;> first | decide | exact absurd hb Bool.false_ne_true

theorem level_le_of_not_bindsTo {op o : Operator} {l : Expr}
    (hb : ¬(Frame.left l o).bindsTo op = true) : op.category.level ≤ o.rightCategory.level := by
  cases op <;> cases o <;> first | decide | exact (hb rfl).elim

theorem holds_of_head {a c : Category} {frames : List Frame} {ts us : List Token.Kind} {e : Expr}
    {op : Operator} (h : Awaits a frames ts us.head?) (hd : Derives c (room frames) us [e])
    (hc : c.level ≤ op.leftCategory.level) (ha : op.category.level ≤ a.level)
    (hf : ∀ f ∈ frames.head?, f.bindsTo op = false) :
    Holds op.leftCategory op.category (Frame.foldFor op e frames).2
      (Frame.foldFor op e frames).1 (ts ++ us) := by
  rw [Frame.foldFor_of_head hf]
  exact ⟨a, ts, us, rfl, h, hd.lift hc, ha⟩

theorem Awaits.foldFor {a : Category} {frames : List Frame} {ts : List Token.Kind}
    {next : Option Token.Kind} {op : Operator} (hop : op ≠ .power) (h : Awaits a frames ts next) :
    ∀ {c : Category} (us : List Token.Kind) {e : Expr}, next = us.head? →
      Derives c (room frames) us [e] → c.level ≤ a.level → c.level ≤ op.category.level →
      Holds op.leftCategory op.category (Frame.foldFor op e frames).2
        (Frame.foldFor op e frames).1 (ts ++ us) := by
  have hsum : op.category.level ≤ Category.sum.level := by cases op <;> decide
  induction h with
  | start next =>
    intro c us e hn hd _ hc
    exact holds_of_head (.start _) hd (by rwa [leftCategory_eq hop]) hsum (by simp)
  | group next h hlt =>
    intro c us e hn hd _ hc
    exact holds_of_head (.group _ h hlt) hd (by rwa [leftCategory_eq hop]) hsum
      (by simp [Frame.bindsTo])
  | firstArgument next hw h hlt =>
    intro c us e hn hd _ hc
    exact holds_of_head (.firstArgument _ hw h hlt) hd (by rwa [leftCategory_eq hop]) hsum
      (by simp [Frame.bindsTo])
  | nextArgument next hw h hlt ha =>
    intro c us e hn hd _ hc
    exact holds_of_head (.nextArgument _ hw h hlt ha) hd (by rwa [leftCategory_eq hop]) hsum
      (by simp [Frame.bindsTo])
  | @operator a frames ts vs l o next h hl ha ih =>
    intro c us e hn hd hle hc
    by_cases hb : (Frame.left l o).bindsTo op = true
    · rw [Frame.foldFor_cons, if_pos hb]
      have hlast := ih (vs ++ o.kind :: us) (List.head?_append_of_ne_nil _ hl.ne_nil).symm
        (.binary o hl (hd.lift hle)) ha (level_le_of_bindsTo hb)
      simpa [Frame.absorb, List.append_assoc] using hlast
    · exact holds_of_head (.operator o _ h hl ha) hd (by rwa [leftCategory_eq hop])
        (level_le_of_not_bindsTo hb) (by simpa using hb)
  | @factor a frames ts vs l next h hl ha hm ih =>
    intro c us e hn hd hle hc
    have hb : (Frame.left l .times).bindsTo op = true := by
      cases op <;> first | rfl | exact absurd rfl hop
    rw [Frame.foldFor_cons, if_pos hb]
    have hlast := ih (vs ++ us) (List.head?_append_of_ne_nil _ hl.ne_nil).symm
      (.sideBySide hl (hd.lift hle) (hn ▸ hm)) ha (level_le_of_bindsTo hb)
    simpa [Frame.absorb, List.append_assoc] using hlast
  | negative next h ha ih =>
    intro c us e hn hd hle hc
    have hb : Frame.negate.bindsTo op = true := by
      cases op <;> first | rfl | exact absurd rfl hop
    rw [Frame.foldFor_cons, if_pos hb]
    have hlast := ih (.minus :: us) rfl (.negative (hd.lift hle)) ha
      (by cases op <;> first | decide | exact absurd rfl hop)
    simpa [Frame.absorb, List.append_assoc] using hlast
  | positive next h ha ih =>
    intro c us e hn hd hle hc
    have hlast := ih (.plus :: us) rfl (.positive (hd.lift hle)) ha
      (by cases op <;> first | decide | exact absurd rfl hop)
    simpa [Frame.absorb, List.append_assoc] using hlast

namespace Holds

variable {frames : List Frame} {e : Expr} {read : List Token.Kind} {f : Function}
  {done : List Expr}

theorem foldFor (op : Operator) (h : Holds .atom .atom frames e read) :
    Holds op.leftCategory op.category (Frame.foldFor op e frames).2
      (Frame.foldFor op e frames).1 read := by
  obtain ⟨a, ts, us, rfl, h, hd, ha⟩ := h
  by_cases hop : op = .power
  · subst hop
    exact holds_of_head h hd (Nat.zero_le _) h.power_le fun f _ => f.bindsTo_power
  · exact h.foldFor hop us rfl hd ha (Nat.zero_le _)

theorem foldAll (h : Holds .atom .atom frames e read) :
    Holds .sum .sum (Frame.foldAll e frames).2 (Frame.foldAll e frames).1 read := by
  rw [Frame.foldAll_eq_foldFor]
  exact h.foldFor .plus

theorem push_operator (op : Operator) (next : Option Token.Kind)
    (h : Holds .atom .atom frames e read) :
    Awaits op.rightCategory (Frame.push op e frames) (read ++ [op.kind]) next := by
  obtain ⟨a, ts, us, hread, h, hd, ha⟩ := h.foldFor op
  rw [hread]
  exact .operator op next h hd ha

theorem push_factor {next : Option Token.Kind} (h : Holds .atom .atom frames e read)
    (hm : mayMeet read.getLast? next = true) :
    Awaits .power (Frame.push .times e frames) read next := by
  obtain ⟨a, ts, us, hread, h, hd, ha⟩ := h.foldFor .times
  rw [hread, List.getLast?_append_of_ne_nil _ hd.ne_nil] at hm
  rw [hread]
  exact .factor h hd ha hm

theorem group (h : Holds .sum .sum (.group :: frames) e read) :
    Holds .atom .atom frames e (read ++ [.closeParen]) := by
  obtain ⟨a, ts, us, rfl, h, hd, ha⟩ := h
  cases h with
  | positive next h => exact absurd ha (by decide)
  | @group c _ ts _ h hlt =>
    have hroom : room frames = room (.group :: frames) + 1 := by
      simp only [room, Frame.depth_group]; omega
    refine ⟨c, ts, .openParen :: (us ++ [.closeParen]), by simp, h, ?_, Nat.zero_le _⟩
    rw [hroom]
    exact .group hd

theorem arguments (h : Holds .sum .sum (.call f done :: frames) e read) :
    ∃ c ts us w, read = ts ++ .word w :: .openParen :: us ∧ Function.named? w = some f ∧
      Awaits c frames ts (some (.word w)) ∧ Frame.depth frames < depthLimit ∧
      Derives .arguments (room (.call f done :: frames)) us (e :: done).reverse := by
  obtain ⟨a, ts, us, rfl, h, hd, ha⟩ := h
  cases h with
  | positive next h => exact absurd ha (by decide)
  | @firstArgument c _ ts _ w _ hw h hlt =>
    exact ⟨c, ts, us, w, by simp, hw, h, hlt, .oneArgument hd⟩
  | @nextArgument c _ ts vs _ w _ _ hw h hlt hargs =>
    refine ⟨c, ts, vs ++ .comma :: us, w, by simp, hw, h, hlt, ?_⟩
    rw [List.reverse_cons]
    exact .nextArgument hargs hd

theorem comma (next : Option Token.Kind) (h : Holds .sum .sum (.call f done :: frames) e read) :
    Awaits .sum (.call f (e :: done) :: frames) (read ++ [.comma]) next := by
  obtain ⟨c, ts, us, w, rfl, hw, h, hlt, hargs⟩ := h.arguments
  exact .nextArgument next hw h hlt hargs

theorem call (h : Holds .sum .sum (.call f done :: frames) e read) :
    Holds .atom .atom frames (.call f (e :: done).reverse) (read ++ [.closeParen]) := by
  obtain ⟨c, ts, us, w, rfl, hw, h, hlt, hargs⟩ := h.arguments
  have hroom : room frames = room (.call f done :: frames) + 1 := by
    simp only [room, Frame.depth_call]; omega
  refine ⟨c, ts, .word w :: .openParen :: (us ++ [.closeParen]), by simp, h, ?_, Nat.zero_le _⟩
  rw [hroom]
  exact .call hw hargs

end Holds

end Grammar

namespace Cursor

open Grammar

inductive Reached : Cursor → List Token.Kind → Prop where
  | operand {c : Category} {frames : List Frame} {read : List Token.Kind} :
    Category.signed.level ≤ c.level → (∀ next, Awaits c frames read next) →
    Reached (.operand frames) read
  | named {c : Category} {frames : List Frame} {ts : List Token.Kind} {f : Function} {w : String}
    (position : Nat) :
    Function.named? w = some f → Awaits c frames ts (some (.word w)) →
    Reached (.named f position frames) (ts ++ [.word w])
  | opened {c : Category} {frames : List Frame} {ts : List Token.Kind} {f : Function}
    {w : String} :
    Function.named? w = some f → Awaits c frames ts (some (.word w)) →
    Frame.depth frames < depthLimit →
    Reached (.opened f frames) (ts ++ [.word w, .openParen])
  | complete {frames : List Frame} {e : Expr} {ending : Ending} {read : List Token.Kind} :
    Holds .atom .atom frames e read → ending.Agrees read.getLast? →
    Reached (.complete e ending frames) read

variable {frames : List Frame} {read : List Token.Kind} {cursor cursor' : Cursor} {t : Token}

theorem malformed_ne_ok {α : Type} {cause : Malformation} {a : α} :
    (malformed cause : Except EvalError α) ≠ .ok a := nofun

theorem mayMeet_of_agrees {ending : Ending} {last : Option Token.Kind} {k : Token.Kind}
    (h : ending.Agrees last) (hl : ending = .literal → ∀ x, k ≠ .number x)
    (hc : ∀ c p, ending = .constant c p → k ≠ .openParen) :
    mayMeet last (some k) = true := by
  cases ending with
  | literal =>
    obtain ⟨x, rfl⟩ := h
    have hk := hl rfl
    cases k <;> first | rfl | exact absurd rfl (hk _)
  | constant c p =>
    obtain ⟨w, rfl, -⟩ := h
    have hk := hc c p rfl
    cases k <;> first | rfl | exact absurd rfl hk
  | other =>
    obtain rfl := h
    cases k <;> rfl

theorem reached_of_openBracket {position : Nat}
    (h : openBracket position frames cursor = .ok cursor')
    (hn : Frame.depth frames < depthLimit → Reached cursor read) : Reached cursor' read := by
  unfold openBracket at h
  split at h
  · exact absurd h malformed_ne_ok
  · next hlt =>
    cases h
    exact hn (Nat.lt_of_not_le hlt)

theorem reached_of_readWord {name : String} {position : Nat} {c : Category}
    (h : readWord name position frames = .ok cursor')
    (ha : Awaits c frames read (some (.word name))) : Reached cursor' (read ++ [.word name]) := by
  unfold readWord at h
  split at h
  · next f hf =>
    cases h
    exact .named position hf ha
  · split at h
    · next f hf c' hc =>
      cases h
      refine .complete ⟨c, read, [.word name], rfl, ha, .constant _ hc, Nat.zero_le _⟩ ?_
      exact ⟨name, by simp, hc⟩
    · cases h

theorem reached_number {c : Category} (x : Int)
    (ha : Awaits c frames read (some (.number x))) :
    Reached (.complete (.number x) .literal frames) (read ++ [.number x]) :=
  .complete ⟨c, read, [.number x], rfl, ha, .number _ x, Nat.zero_le _⟩ ⟨x, by simp⟩

theorem reached_group {c : Category} (ha : Awaits c frames read (some .openParen))
    (hlt : Frame.depth frames < depthLimit) :
    Reached (.operand (.group :: frames)) (read ++ [.openParen]) :=
  .operand (by decide : _ ≤ Category.sum.level) fun next => .group next ha hlt

theorem Reached.read_operand {c : Category} (hc : Category.signed.level ≤ c.level)
    (hx : cursor = .operand frames ∨ (∃ f, cursor = .opened f frames) ∧ t.kind ≠ .closeParen)
    (ha : ∀ next, Awaits c cursor.framesForOperand read next)
    (h : cursor.read t = .ok cursor') : Reached cursor' (read ++ [t.kind]) := by
  have hx' : cursor.operandExpected = true := by
    rcases hx with rfl | ⟨⟨f, rfl⟩, -⟩ <;> rfl
  unfold Cursor.read at h
  cases hkind : t.kind with
  | number x =>
    have hok : cursor' = .complete (.number x) .literal cursor.framesForOperand := by
      rcases hx with rfl | ⟨⟨f, rfl⟩, -⟩ <;> simpa [hkind] using h.symm
    rw [hok]
    exact reached_number x (ha _)
  | word name =>
    rw [hkind] at h
    exact reached_of_readWord h (ha _)
  | plus =>
    simp only [hkind, hx', if_true] at h
    cases h
    exact .operand (by decide) fun next => .positive next (ha _) hc
  | minus =>
    simp only [hkind, hx', if_true] at h
    cases h
    exact .operand (by decide) fun next => .negative next (ha _) hc
  | openParen =>
    have hok : openBracket t.position cursor.framesForOperand
        (.operand (.group :: cursor.framesForOperand)) = .ok cursor' := by
      rcases hx with rfl | ⟨⟨f, rfl⟩, -⟩ <;> simpa [hkind, readOpen] using h
    exact reached_of_openBracket hok (reached_group (ha _))
  | closeParen =>
    rcases hx with rfl | ⟨-, hne⟩
    · simp only [hkind, readClose] at h
      exact absurd h malformed_ne_ok
    · exact absurd hkind hne
  | star | slash | caret | comma =>
    rcases hx with rfl | ⟨⟨f, rfl⟩, -⟩ <;> simp only [hkind, readOperator, readComma] at h <;>
      exact absurd h malformed_ne_ok

theorem reached_of_readOperator {e : Expr} {ending : Ending} (op : Operator)
    (hh : Holds .atom .atom frames e read)
    (h : readOperator op t (.complete e ending frames) = .ok cursor') :
    Reached cursor' (read ++ [op.kind]) := by
  cases h
  have hsigned : Category.signed.level ≤ op.rightCategory.level := by cases op <;> decide
  exact .operand hsigned fun next => hh.push_operator op next

theorem reached_of_readComma {e : Expr} {ending : Ending} (hh : Holds .atom .atom frames e read)
    (h : readComma t (.complete e ending frames) = .ok cursor') :
    Reached cursor' (read ++ [.comma]) := by
  have hall := hh.foldAll
  simp only [readComma] at h
  split at h
  · next hf =>
    rw [hf] at hall
    cases h
    exact .operand (by decide : _ ≤ Category.sum.level) fun next => hall.comma next
  · exact absurd h malformed_ne_ok

theorem reached_of_readClose {e : Expr} {ending : Ending} (hh : Holds .atom .atom frames e read)
    (h : readClose t (.complete e ending frames) = .ok cursor') :
    Reached cursor' (read ++ [.closeParen]) := by
  have hall := hh.foldAll
  simp only [readClose] at h
  split at h
  · next hf =>
    rw [hf] at hall
    cases h
    exact .complete hall.group (by simp [Ending.Agrees])
  · next hf =>
    rw [hf] at hall
    cases h
    exact .complete hall.call (by simp [Ending.Agrees])
  · exact absurd h malformed_ne_ok

theorem Reached.read_complete {e : Expr} {ending : Ending} (hh : Holds .atom .atom frames e read)
    (hg : ending.Agrees read.getLast?)
    (h : (Cursor.complete e ending frames).read t = .ok cursor') :
    Reached cursor' (read ++ [t.kind]) := by
  unfold Cursor.read at h
  cases hkind : t.kind with
  | number x =>
    rw [hkind] at h
    have hl : ending ≠ .literal := by
      rintro rfl
      exact absurd h malformed_ne_ok
    have hm := mayMeet_of_agrees (k := .number x) hg (fun h => absurd h hl) fun _ _ _ => by simp
    have hok : cursor' = .complete (.number x) .literal (Frame.push .times e frames) := by
      cases ending with
      | literal => exact absurd rfl hl
      | constant | other => exact (Except.ok.inj h).symm
    rw [hok]
    exact reached_number x (hh.push_factor hm)
  | word name =>
    rw [hkind] at h
    have hm := mayMeet_of_agrees (k := .word name) hg (fun _ _ => by simp) fun _ _ _ => by simp
    exact reached_of_readWord h (hh.push_factor hm)
  | plus | minus | star | slash | caret =>
    simp only [hkind, operandExpected, Bool.false_eq_true, if_false] at h
    exact reached_of_readOperator _ hh h
  | comma =>
    rw [hkind] at h
    exact reached_of_readComma hh h
  | openParen =>
    rw [hkind] at h
    have hc : ∀ c p, ending ≠ .constant c p := by
      rintro c p rfl
      exact absurd h malformed_ne_ok
    have hm := mayMeet_of_agrees (k := .openParen) hg (fun _ _ => by simp)
      fun c p h => absurd h (hc c p)
    have hok : openBracket t.position (Frame.push .times e frames)
        (.operand (.group :: Frame.push .times e frames)) = .ok cursor' := by
      cases ending with
      | constant c p => exact absurd rfl (hc c p)
      | literal | other => exact h
    exact reached_of_openBracket hok (reached_group (hh.push_factor hm))
  | closeParen =>
    rw [hkind] at h
    exact reached_of_readClose hh h

theorem Reached.step (hr : Reached cursor read) (h : cursor.step t = .ok cursor') :
    Reached cursor' (read ++ [t.kind]) := by
  cases hr with
  | operand hc ha => exact read_operand hc (.inl rfl) ha h
  | named position hw ha =>
    simp only [Cursor.step] at h
    split at h
    · next hk =>
      rw [hk, List.append_assoc]
      exact reached_of_openBracket h (.opened hw ha)
    · exact absurd h malformed_ne_ok
  | @opened c frames ts f w hw ha hlt =>
    by_cases hk : t.kind = .closeParen
    · have hok : cursor' = .complete (.call f []) .other frames := by
        simp only [Cursor.step, Cursor.read, hk, readClose] at h
        exact (Except.ok.inj h).symm
      have hroom : room frames = room (.group :: frames) + 1 := by
        simp only [room, Frame.depth_group]; omega
      rw [hok, hk]
      refine .complete ⟨c, ts, [.word w, .openParen, .closeParen], by simp, ha, ?_, Nat.zero_le _⟩
        (by simp [Ending.Agrees])
      rw [hroom]
      exact .emptyCall _ hw
    · exact read_operand (by decide : _ ≤ Category.sum.level) (.inr ⟨⟨f, rfl⟩, hk⟩)
        (fun next => .firstArgument next hw ha hlt) h
  | complete hh hg => exact read_complete hh hg h

theorem Reached.steps (hr : Reached cursor read) {ts : List Token}
    (h : ts.foldlM Cursor.step cursor = .ok cursor') :
    Reached cursor' (read ++ ts.map Token.kind) := by
  induction ts generalizing cursor read with
  | nil =>
    cases h
    simpa using hr
  | cons t ts ih =>
    rw [List.foldlM_cons] at h
    obtain ⟨next, hs, hrest⟩ := bind_eq_ok_iff.mp h
    simpa using ih (hr.step hs) hrest

theorem reached_start : Reached (.operand []) [] :=
  .operand (by decide : _ ≤ Category.sum.level) .start

theorem Reached.finish {length : Nat} {e : Expr} (hr : Reached cursor read)
    (h : cursor.finish length = .ok e) : Derives .sum depthLimit read [e] := by
  cases hr with
  | operand | named | opened => exact absurd h malformed_ne_ok
  | complete hh hg =>
    have hall := hh.foldAll
    simp only [Cursor.finish] at h
    split at h
    · next hf =>
      rw [hf] at hall
      cases h
      obtain ⟨a, ts, us, rfl, ha, hd, hle⟩ := hall
      cases ha with
      | start => exact hd
      | positive => exact absurd hle (by decide)
    · exact absurd h malformed_ne_ok

end Cursor

theorem Expr.writes_of_ofTokens {ts : List Token} {length : Nat} {e : Expr}
    (h : ofTokens ts length = .ok e) : Grammar.Writes ts e := by
  obtain ⟨cursor, hs, hf⟩ := bind_eq_ok_iff.mp h
  exact (Cursor.reached_start.steps hs).finish hf

end Reckoner
