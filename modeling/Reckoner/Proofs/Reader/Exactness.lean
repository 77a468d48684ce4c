import Reckoner.Proofs.Outcome
import Reckoner.Proofs.Reader.Shunting
import Reckoner.Proofs.Reader.Soundness
import Reckoner.Proofs.Reader.Stepping

set_option autoImplicit false

namespace Reckoner.Cursor

open Grammar

variable {frames pending : List Frame} {e : Expr} {ending : Ending} {t : Token} {f : Function}
  {done : List Expr}

def Leads (ts : List Token) (a b : Cursor) : Prop := ts.foldlM Cursor.step a = .ok b

theorem Leads.cons {ts : List Token} {a b c : Cursor} (ha : step a t = .ok b) (hb : Leads ts b c) :
    Leads (t :: ts) a c := by
  rw [Leads, List.foldlM_cons, ha]
  exact hb

theorem Leads.single {a b : Cursor} (h : step a t = .ok b) : Leads [t] a b := .cons h rfl

theorem Leads.append {ts us : List Token} {a b c : Cursor} (ha : Leads ts a b)
    (hb : Leads us b c) : Leads (ts ++ us) a c := by
  rw [Leads, List.foldlM_append, ha]
  exact hb

theorem Leads.of_step_eq {ts : List Token} {a b c : Cursor} (h : step a t = step b t)
    (hb : Leads (t :: ts) b c) : Leads (t :: ts) a c := by
  rwa [Leads, List.foldlM_cons, h, ← List.foldlM_cons]

/-- The frames let an operand of the category be followed by operators of its own level. -/
def Admits : Category → List Frame → Prop
  | .sum, frames | .arguments, frames => ∀ f ∈ frames.head?, f.bindsTo .plus = false
  | .product, frames => ∀ f ∈ frames.head?, f.bindsTo .times = false
  | .signed, _ | .power, _ | .atom, _ => True

/-- The cursor stands at the end of an operand of category `c` that writes `e`. -/
def Completes (c : Category) (frames : List Frame) (e : Expr) (last : Option Token.Kind)
    (cursor : Cursor) : Prop :=
  ∃ top ending pending, cursor = .complete top ending (pending ++ frames) ∧
    (∀ f ∈ pending, f.bindsTo c.follower = true) ∧ pending.foldl Frame.absorb top = e ∧
    ending.Agrees last

def ReadsOne (c : Category) (d : Nat) (ks : List Token.Kind) (e : Expr) : Prop :=
  ∀ (ts : List Token) (frames : List Frame), ts.map Token.kind = ks → Admits c frames →
    Frame.depth frames + d ≤ depthLimit →
    ∃ cursor, Leads ts (.operand frames) cursor ∧ Completes c frames e ks.getLast? cursor

def ReadsAll (d : Nat) (ks : List Token.Kind) (es : List Expr) : Prop :=
  ∃ before e, es = before ++ [e] ∧ ∀ (ts : List Token) (f : Function) (done : List Expr)
    (frames : List Frame), ts.map Token.kind = ks → Frame.depth frames + (d + 1) ≤ depthLimit →
    ∃ cursor, Leads ts (.operand (.call f done :: frames)) cursor ∧
      Completes .sum (.call f (before.reverse ++ done) :: frames) e ks.getLast? cursor

section Operands

variable {b c : Category} {d : Nat} {ks us : List Token.Kind} {l r : Expr} {es : List Expr}

theorem bindsTo_follower_mono (h : b.level ≤ c.level) {g : Frame}
    (hg : g.bindsTo b.follower = true) : g.bindsTo c.follower = true := by
  have hp : g.bindsTo .power = true → g.bindsTo c.follower = true := by
    rw [g.bindsTo_power]
    exact nofun
  cases b <;> cases c <;>
    first
      | exact hg
      | exact hp hg
      | exact Frame.bindsTo_plus_of_times hg
      | exact absurd h (by decide)

theorem Admits.mono (h : b.level ≤ c.level) (ha : Admits c frames) : Admits b frames := by
  have hs : (∀ f ∈ frames.head?, f.bindsTo .plus = false) →
      ∀ f ∈ frames.head?, f.bindsTo .times = false := by
    intro hf g hg
    cases ht : g.bindsTo .times with
    | false => rfl
    | true => rw [← Frame.bindsTo_plus_of_times ht, hf g hg]
  cases b <;> cases c <;>
    first | exact ha | exact trivial | exact hs ha | exact absurd h (by decide)

theorem ReadsOne.lift (h : ReadsOne b d ks e) (hb : b.level ≤ c.level) : ReadsOne c d ks e := by
  intro ts frames hts ha hd
  obtain ⟨cursor, hl, top, ending, pending, hc, hp, he, hg⟩ := h ts frames hts (ha.mono hb) hd
  refine ⟨cursor, hl, top, ending, pending, hc, ?_, he, hg⟩
  exact fun f hf => bindsTo_follower_mono hb (hp f hf)

theorem readsOne_number (x : Int) : ReadsOne .atom d [.number x] (.number x) := by
  intro ts frames hts _ _
  obtain ⟨t, rfl, ht⟩ := List.map_eq_singleton_iff.mp hts
  exact ⟨_, .single (step_number ht), .number x, .literal, [], rfl, by simp, rfl, x, rfl⟩

theorem readsOne_constant {w : String} {k : Constant} (h : Constant.named? w = some k) :
    ReadsOne .atom d [.word w] (.constant k) := by
  intro ts frames hts _ _
  obtain ⟨t, rfl, ht⟩ := List.map_eq_singleton_iff.mp hts
  exact ⟨_, .single (step_constant ht h), .constant k, .constant k t.position, [], rfl, by simp,
    rfl, w, rfl, h⟩

theorem Completes.left {op : Operator} {last : Option Token.Kind} {cursor : Cursor}
    (hc : c.follower = .times) (h : Completes c (.left l op :: frames) r last cursor) :
    Completes op.category frames (.binary op l r) last cursor := by
  obtain ⟨top, ending, pending, rfl, hp, rfl, hg⟩ := h
  refine ⟨top, ending, pending ++ [.left l op], by simp, ?_, by simp [Frame.absorb], hg⟩
  intro g hgm
  rcases List.mem_append.mp hgm with hgm | hgm
  · have hg := hp g hgm
    rw [hc] at hg
    cases op <;> first | exact hg | exact Frame.bindsTo_plus_of_times hg
  · obtain rfl := List.mem_singleton.mp hgm
    cases op <;> rfl

theorem Completes.push (op : Operator) {last : Option Token.Kind} {cursor : Cursor}
    (ha : Admits op.category frames) (h : Completes op.leftCategory frames l last cursor) :
    ∃ top ending rest, cursor = .complete top ending rest ∧ ending.Agrees last ∧
      Frame.push op top rest = .left l op :: frames := by
  obtain ⟨top, ending, pending, rfl, hp, rfl, hg⟩ := h
  refine ⟨top, ending, _, rfl, hg, Frame.push_append ?_ ?_ top⟩
  · intro g hgm
    have hb := hp g hgm
    cases op with
    | plus | times | power => exact hb
    | minus => rwa [g.bindsTo_minus]
    | divide => rwa [g.bindsTo_divide]
  · intro g hgm
    cases op with
    | plus | times => exact ha g hgm
    | minus => rw [g.bindsTo_minus]; exact ha g hgm
    | divide => rw [g.bindsTo_divide]; exact ha g hgm
    | power => exact g.bindsTo_power

theorem admits_left (op : Operator) : Admits op.rightCategory (.left l op :: frames) := by
  cases op <;> simp [Operator.rightCategory, Admits, Frame.bindsTo, bindsBefore,
    Operator.precedence]

theorem ReadsOne.operator (op : Operator) (hl : ReadsOne op.leftCategory d ks l)
    (hr : ReadsOne op.rightCategory d us r) (hne : us ≠ []) :
    ReadsOne op.category d (ks ++ op.kind :: us) (.binary op l r) := by
  intro ts frames hts ha hd
  obtain ⟨before, after, rfl, hb, hafter⟩ := List.map_eq_append_iff.mp hts
  obtain ⟨t, rest, rfl, ht, hrest⟩ := List.map_eq_cons_iff.mp hafter
  obtain ⟨_, hlead, hcomplete⟩ := hl before frames hb (ha.mono (by cases op <;> decide)) hd
  obtain ⟨top, ending, pending, rfl, _, hpush⟩ := hcomplete.push op ha
  obtain ⟨cursor, hlead', hcomplete'⟩ := hr rest (.left l op :: frames) hrest (admits_left op) hd
  refine ⟨cursor, hlead.append (.cons (step_operator op ht) (hpush ▸ hlead')), ?_⟩
  rw [List.getLast?_append_cons, List.getLast?_cons_of_ne_nil hne]
  exact hcomplete'.left (by cases op <;> rfl)

theorem ReadsOne.beside (hl : ReadsOne .product d ks l) (hr : ReadsOne .power d us r)
    {k : Token.Kind} (hk : us.head? = some k) (ho : k.opensAtom = true)
    (hm : mayMeet ks.getLast? us.head? = true) :
    ReadsOne .product d (ks ++ us) (.binary .times l r) := by
  intro ts frames hts ha hd
  obtain ⟨before, after, rfl, hb, hafter⟩ := List.map_eq_append_iff.mp hts
  obtain ⟨_, hlead, hcomplete⟩ := hl before frames hb ha hd
  obtain ⟨top, ending, pending, rfl, hg, hpush⟩ := hcomplete.push .times ha
  obtain ⟨cursor, hlead', hcomplete'⟩ := hr after (.left l .times :: frames) hafter trivial hd
  cases after with
  | nil =>
    rw [← hafter] at hk
    exact absurd hk (by simp)
  | cons t rest =>
    have ht : t.kind = k := by
      rw [← hafter] at hk
      exact Option.some.inj hk
    rw [hk, ← ht] at hm
    have hstep : step (.complete top ending pending) t = _ := step_beside (by rwa [ht]) hg hm
    refine ⟨cursor, hlead.append (.of_step_eq hstep (hpush ▸ hlead')), ?_⟩
    rw [List.getLast?_append_of_ne_nil _ (by rintro rfl; exact absurd hk (by simp))]
    exact hcomplete'.left rfl

theorem ReadsOne.positive (h : ReadsOne .signed d ks e) (hne : ks ≠ []) :
    ReadsOne .signed d (.plus :: ks) e := by
  intro ts frames hts ha hd
  obtain ⟨t, rest, rfl, ht, hrest⟩ := List.map_eq_cons_iff.mp hts
  obtain ⟨cursor, hlead, hcomplete⟩ := h rest frames hrest ha hd
  rw [List.getLast?_cons_of_ne_nil hne]
  exact ⟨cursor, .cons (step_plus ht) hlead, hcomplete⟩

theorem ReadsOne.negative (h : ReadsOne .signed d ks e) (hne : ks ≠ []) :
    ReadsOne .signed d (.minus :: ks) (.negate e) := by
  intro ts frames hts ha hd
  obtain ⟨t, rest, rfl, ht, hrest⟩ := List.map_eq_cons_iff.mp hts
  obtain ⟨cursor, hlead, top, ending, pending, rfl, hp, rfl, hg⟩ :=
    h rest (.negate :: frames) hrest trivial hd
  rw [List.getLast?_cons_of_ne_nil hne]
  refine ⟨_, .cons (step_minus ht) hlead, top, ending, pending ++ [.negate], by simp, ?_,
    by simp [Frame.absorb], hg⟩
  intro g hgm
  rcases List.mem_append.mp hgm with hgm | hgm
  · exact hp g hgm
  · obtain rfl := List.mem_singleton.mp hgm
    rfl

theorem completes_atom :
    Completes .atom frames e (some .closeParen) (.complete e .other frames) :=
  ⟨e, .other, [], rfl, by simp, rfl, rfl⟩

theorem ReadsOne.group (h : ReadsOne .sum d ks e) :
    ReadsOne .atom (d + 1) (.openParen :: ks ++ [.closeParen]) e := by
  intro ts frames hts _ hd
  obtain ⟨t, rest, rfl, ht, hrest⟩ := List.map_eq_cons_iff.mp hts
  obtain ⟨inside, last, rfl, hinside, hlast⟩ := List.map_eq_append_iff.mp hrest
  obtain ⟨t', rfl, ht'⟩ := List.map_eq_singleton_iff.mp hlast
  obtain ⟨_, hlead, top, ending, pending, rfl, hp, rfl, _⟩ := h inside (.group :: frames) hinside
    (by simp [Admits, Frame.bindsTo]) (by rw [Frame.depth_group]; omega)
  rw [List.getLast?_append_of_ne_nil _ (by simp)]
  exact ⟨_, .cons (step_open ht (by omega)) (hlead.append (.single (step_close_group hp ht'))),
    completes_atom⟩

theorem readsOne_emptyCall {w : String} (hw : Function.named? w = some f) :
    ReadsOne .atom (d + 1) [.word w, .openParen, .closeParen] (.call f []) := by
  intro ts frames hts _ hd
  obtain ⟨t, rest, rfl, ht, hrest⟩ := List.map_eq_cons_iff.mp hts
  obtain ⟨t', last, rfl, ht', hlast⟩ := List.map_eq_cons_iff.mp hrest
  obtain ⟨t'', rfl, ht''⟩ := List.map_eq_singleton_iff.mp hlast
  exact ⟨_, .cons (step_function ht hw) (.cons (step_named ht' (by omega))
    (.single (step_emptyCall ht''))), completes_atom⟩

theorem leads_opened {ts : List Token} {b : Cursor} (hne : ts.map Token.kind ≠ [])
    (hk : ∀ k ∈ (ts.map Token.kind).head?, k ≠ .closeParen)
    (h : Leads ts (.operand (.call f [] :: frames)) b) : Leads ts (.opened f frames) b := by
  cases ts with
  | nil => exact absurd rfl hne
  | cons t rest => exact .of_step_eq (step_opened (hk t.kind rfl)) h

theorem ReadsAll.call {w : String} (hw : Function.named? w = some f) (h : ReadsAll d ks es)
    (hk : ∀ k ∈ ks.head?, k ≠ .closeParen) (hne : ks ≠ []) :
    ReadsOne .atom (d + 1) (.word w :: .openParen :: ks ++ [.closeParen]) (.call f es) := by
  intro ts frames hts _ hd
  obtain ⟨before, e, rfl, h⟩ := h
  obtain ⟨t, rest, rfl, ht, hrest⟩ := List.map_eq_cons_iff.mp hts
  obtain ⟨t', rest', rfl, ht', hrest'⟩ := List.map_eq_cons_iff.mp hrest
  obtain ⟨inside, last, rfl, hinside, hlast⟩ := List.map_eq_append_iff.mp hrest'
  obtain ⟨t'', rfl, ht''⟩ := List.map_eq_singleton_iff.mp hlast
  obtain ⟨_, hlead, top, ending, pending, rfl, hp, rfl, _⟩ := h inside f [] frames hinside hd
  have hopened := leads_opened (by rwa [hinside]) (by rwa [hinside]) hlead
  rw [List.getLast?_append_of_ne_nil _ (by simp)]
  refine ⟨_, .cons (step_function ht hw) (.cons (step_named ht' (by omega))
    (hopened.append (.single (step_close_call hp ht'')))), ?_⟩
  simpa using completes_atom

theorem ReadsOne.oneArgument (h : ReadsOne .sum d ks e) : ReadsAll d ks [e] :=
  ⟨[], e, rfl, fun ts f done frames hts hd =>
    h ts (.call f done :: frames) hts (by simp [Admits, Frame.bindsTo])
      (by rw [Frame.depth_call]; omega)⟩

theorem ReadsAll.nextArgument (h : ReadsAll d ks es) (hr : ReadsOne .sum d us e) (hne : us ≠ []) :
    ReadsAll d (ks ++ .comma :: us) (es ++ [e]) := by
  refine ⟨es, e, rfl, ?_⟩
  intro ts f done frames hts hd
  obtain ⟨init, last, rfl, h⟩ := h
  obtain ⟨before, after, rfl, hb, hafter⟩ := List.map_eq_append_iff.mp hts
  obtain ⟨t, rest, rfl, ht, hrest⟩ := List.map_eq_cons_iff.mp hafter
  obtain ⟨_, hlead, top, ending, pending, rfl, hp, rfl, _⟩ := h before f done frames hb hd
  obtain ⟨cursor, hlead', hcomplete⟩ := hr rest
    (.call f (pending.foldl Frame.absorb top :: (init.reverse ++ done)) :: frames) hrest
    (by simp [Admits, Frame.bindsTo]) (by rw [Frame.depth_call]; omega)
  rw [List.getLast?_append_cons, List.getLast?_cons_of_ne_nil hne]
  exact ⟨cursor, hlead.append (.cons (step_comma hp ht) hlead'), by simpa using hcomplete⟩

def Reads (d : Nat) (ks : List Token.Kind) : Category → List Expr → Prop
  | .arguments, es => ReadsAll d ks es
  | c, [e] => ReadsOne c d ks e
  | _, _ => False

theorem reads_of_derives (h : Derives c d ks es) : Reads d ks c es := by
  induction h with
  | number d x => exact readsOne_number x
  | constant d hw => exact readsOne_constant hw
  | group _ ih => exact ReadsOne.group ih
  | emptyCall d hw => exact readsOne_emptyCall hw
  | call hw h ih =>
    obtain ⟨k, hk, hc, _⟩ := h.head
    exact ReadsAll.call hw ih (by simp [hk, hc]) h.ne_nil
  | oneArgument _ ih => exact ReadsOne.oneArgument ih
  | nextArgument _ h ih ihs => exact ReadsAll.nextArgument ih ihs h.ne_nil
  | ofAtom _ ih | ofPower _ ih | ofSigned _ ih | ofProduct _ ih =>
    exact ReadsOne.lift ih (by decide)
  | positive h ih => exact ReadsOne.positive ih h.ne_nil
  | negative h ih => exact ReadsOne.negative ih h.ne_nil
  | raised _ h ihl ihr => exact ReadsOne.operator .power ihl ihr h.ne_nil
  | times _ h ihl ihr => exact ReadsOne.operator .times ihl ihr h.ne_nil
  | divided _ h ihl ihr => exact ReadsOne.operator .divide ihl ihr h.ne_nil
  | plus _ h ihl ihr => exact ReadsOne.operator .plus ihl ihr h.ne_nil
  | minus _ h ihl ihr => exact ReadsOne.operator .minus ihl ihr h.ne_nil
  | sideBySide _ h hm ihl ihr =>
    obtain ⟨k, hk, _, ho⟩ := h.head
    exact ReadsOne.beside ihl ihr hk (ho (by decide)) hm

end Operands

end Reckoner.Cursor

namespace Reckoner.Expr

theorem ofTokens_of_writes {ts : List Token} {e : Expr} (length : Nat)
    (h : Grammar.Writes ts e) : ofTokens ts length = .ok e := by
  have hr : Cursor.ReadsOne .sum depthLimit (ts.map Token.kind) e := Cursor.reads_of_derives h
  obtain ⟨_, hlead, top, ending, pending, rfl, hp, rfl, _⟩ :=
    hr ts [] rfl (by simp [Cursor.Admits]) (by simp [Frame.depth])
  refine bind_eq_ok_iff.mpr ⟨_, hlead, ?_⟩
  have hf := Frame.foldAll_append hp (by simp : ∀ f ∈ ([] : List Frame).head?, _) top
  simp only [Cursor.finish, hf]

end Reckoner.Expr

namespace Reckoner

theorem Expr.ofTokens_eq_ok_iff {ts : List Token} {length : Nat} {e : Expr} :
    ofTokens ts length = .ok e ↔ Grammar.Writes ts e :=
  ⟨writes_of_ofTokens, ofTokens_of_writes length⟩

namespace Program

variable {ts : List Token} {length : Nat} {p : Program}

theorem exists_writes_of_ofTokens (h : ofTokens ts length = .ok p) :
    ∃ e, Grammar.Writes ts e ∧ p = e.program := by
  rw [ofTokens_eq] at h
  obtain ⟨e, he, rfl⟩ := map_eq_ok_iff.mp h
  exact ⟨e, Expr.writes_of_ofTokens he, rfl⟩

theorem ofTokens_of_writes {e : Expr} (h : Grammar.Writes ts e) :
    ofTokens ts length = .ok e.program := by
  rw [ofTokens_eq, Expr.ofTokens_of_writes length h]
  rfl

/-- A token list is accepted exactly when the grammar derives it. Then it writes one tree, and the
program is that tree in reverse Polish order. -/
theorem ofTokens_iff_writes (ts : List Token) (length : Nat) :
    (∀ p, ofTokens ts length = .ok p ↔ ∃ e, Grammar.Writes ts e ∧ p = e.reversePolish) ∧
      ∀ e e', Grammar.Writes ts e → Grammar.Writes ts e' → e = e' := by
  refine ⟨fun p => ⟨fun h => ?_, ?_⟩, fun e e' h h' => ?_⟩
  · obtain ⟨e, he, rfl⟩ := exists_writes_of_ofTokens h
    exact ⟨e, he, e.program_eq_reversePolish⟩
  · rintro ⟨e, he, rfl⟩
    rw [← e.program_eq_reversePolish]
    exact ofTokens_of_writes he
  · have hread := Expr.ofTokens_of_writes length h
    rw [Expr.ofTokens_of_writes length h'] at hread
    cases hread
    rfl

example : ofTokens [⟨.minus, 0, "-"⟩, ⟨.number 2, 1, "2"⟩, ⟨.caret, 2, "^"⟩, ⟨.number 2, 3, "2"⟩] 4 =
    .ok [.number 2, .number 2, .binary .power, .negate] := by
  rfl

end Program

end Reckoner
