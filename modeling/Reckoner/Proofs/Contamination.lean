import Reckoner.Proofs.Number.Extremum
import Reckoner.Proofs.Program.Execution

set_option autoImplicit false

namespace Reckoner

variable {ε α : Type}

/-- NaN or an error. -/
def Contaminated (r : Except ε Number) : Prop := r = .ok .nan ∨ ∃ e, r = .error e

theorem Contaminated.eq_nan {r : Except ε Number} {v : Number} (h : Contaminated r)
    (hv : r = .ok v) : v = .nan := by
  rcases h with h | ⟨e, h⟩
  · exact Except.ok.inj (hv.symm.trans h)
  · cases hv.symm.trans h

theorem contaminated_nan : Contaminated (.ok .nan : Except ε Number) := .inl rfl

theorem contaminated_error (e : ε) : Contaminated (.error e) := .inr ⟨e, rfl⟩

theorem contaminated_bind {x : Except ε α} {f : α → Except ε Number}
    (h : ∀ a, x = .ok a → Contaminated (f a)) : Contaminated (x >>= f) := by
  cases x with
  | ok a => exact h a rfl
  | error e => exact contaminated_error e

theorem Contaminated.mapError {ε' : Type} {r : Except ε Number} (h : Contaminated r) (f : ε → ε') :
    Contaminated (r.mapError f) := by
  rcases h with rfl | ⟨e, rfl⟩
  · exact contaminated_nan
  · exact contaminated_error (f e)

namespace Number

variable {a b : Number}

theorem add_nan (a : Number) : a.add .nan = .nan := by
  cases a <;> rfl

theorem nan_add (b : Number) : nan.add b = .nan := by
  rw [Number.add_comm, add_nan]

theorem mul_nan (a : Number) : a.mul .nan = .nan := by
  cases a <;> rfl

theorem nan_mul (b : Number) : nan.mul b = .nan := by
  rw [Number.mul_comm, mul_nan]

theorem div_nan (a : Number) : a.div .nan = .nan := by
  cases a <;> rfl

theorem nan_div (b : Number) : nan.div b = .nan := by
  cases b <;> rfl

/-- A base that is NaN is saved by the exponent 0, an exponent that is NaN by nothing. -/
theorem pow_eq_nan (h : b = .nan ∨ a = .nan ∧ b ≠ .zero) : a.pow b = .ok .nan := by
  rcases h with rfl | ⟨rfl, hb⟩
  · cases a <;> rfl
  · cases b with
    | finite y =>
      have hy : y ≠ 0 := fun hy => hb (congrArg finite hy)
      exact congrArg Except.ok (if_neg hy)
    | posInf | negInf | nan => rfl

theorem contaminated_logBase (h : a = .nan ∨ b = .nan) : Contaminated (a.logBase b) := by
  have hboth : a.logBase b = do return (← Unary.ln.apply a).div (← Unary.ln.apply b) := by
    rcases h with rfl | rfl
    · rfl
    · cases a <;> rfl
  rw [hboth]
  refine contaminated_bind fun l hl => contaminated_bind fun m hm => ?_
  rcases h with rfl | rfl
  · obtain rfl := Except.ok.inj hl
    rw [nan_div]
    exact contaminated_nan
  · obtain rfl := Except.ok.inj hm
    rw [div_nan]
    exact contaminated_nan

end Number

namespace Operator

variable {op : Operator} {a b : Number}

theorem contaminated_apply (h : b = .nan ∨ a = .nan ∧ (op = .power → b ≠ .zero)) :
    Contaminated (op.apply a b) := by
  have heither : a = .nan ∨ b = .nan := h.symm.imp_left And.left
  cases op with
  | plus =>
    rcases heither with rfl | rfl
    · exact .inl (congrArg Except.ok (Number.nan_add b))
    · exact .inl (congrArg Except.ok (Number.add_nan a))
  | minus =>
    rcases heither with rfl | rfl
    · exact .inl (congrArg Except.ok (Number.nan_add b.neg))
    · exact .inl (congrArg Except.ok (Number.add_nan a))
  | times =>
    rcases heither with rfl | rfl
    · exact .inl (congrArg Except.ok (Number.nan_mul b))
    · exact .inl (congrArg Except.ok (Number.mul_nan a))
  | divide =>
    rcases heither with rfl | rfl
    · exact .inl (congrArg Except.ok (Number.nan_div b))
    · exact .inl (congrArg Except.ok (Number.div_nan a))
  | power =>
    rw [apply, Number.pow_eq_nan (h.imp_right fun ha => ⟨ha.1, ha.2 rfl⟩)]
    exact contaminated_nan

end Operator

namespace Function

variable {f : Function} {args : List Number}

theorem contaminated_apply (hnan : .nan ∈ args) (hpow : f = .pow → args ≠ [.nan, .zero]) :
    Contaminated (f.apply args) := by
  unfold apply
  -- One argument is NaN itself; of two, either may be, and `round` refuses it as the second.
  split
  · obtain rfl := List.mem_singleton.mp hnan
    exact contaminated_nan
  · obtain rfl := List.mem_singleton.mp hnan
    exact contaminated_nan
  · next x b =>
    refine (Number.contaminated_logBase ?_).mapError _
    simpa [eq_comm] using hnan
  · obtain rfl := List.mem_singleton.mp hnan
    exact contaminated_nan
  · next x n =>
    split
    · next k hk =>
      have hx : x = .nan := by
        rcases List.mem_cons.mp hnan with hx | hn
        · exact hx.symm
        · obtain rfl := List.mem_singleton.mp hn
          cases hk
      rw [hx]
      exact contaminated_nan
    · exact contaminated_error _
  · next x y =>
    have hcase : y = .nan ∨ x = .nan ∧ y ≠ .zero := by
      rcases List.mem_cons.mp hnan with rfl | hy
      · refine .inr ⟨rfl, ?_⟩
        rintro rfl
        exact hpow rfl rfl
      · exact .inl (List.mem_singleton.mp hy).symm
    rw [Number.pow_eq_nan hcase]
    exact contaminated_nan
  · exact .inl (congrArg Except.ok (Number.extremum_of_nan hnan))
  · exact .inl (congrArg Except.ok (Number.extremum_of_nan hnan))
  · exact contaminated_error _

end Function

theorem Catalogue.contaminated_apply {name : String} {args : List Number} (hnan : .nan ∈ args)
    (hname : name ≠ "pow") : Contaminated (Catalogue.apply name args) := by
  unfold Catalogue.apply
  split
  · next f hf =>
    refine Function.contaminated_apply hnan ?_
    rintro rfl
    exact absurd (Function.name_of_named? hf).symm hname
  · exact contaminated_error _

namespace Expr

variable {e sub : Expr}

/-- At some place in the tree that is in no base of a power whose exponent evaluates to zero. -/
inductive Exposed (sub : Expr) : Expr → Prop where
  | here : Exposed sub sub
  | negate {e : Expr} (h : Exposed sub e) : Exposed sub (.negate e)
  | left {op : Operator} {l r : Expr} (h : Exposed sub l)
    (hbase : op = .power → r.eval ≠ .ok .zero) : Exposed sub (.binary op l r)
  | right {op : Operator} {l r : Expr} (h : Exposed sub r) : Exposed sub (.binary op l r)
  | argument {f : Function} {before after : List Expr} {a : Expr} (h : Exposed sub a)
    (hbase : ∀ y, f = .pow → before = [] → after = [y] → y.eval ≠ .ok .zero) :
    Exposed sub (.call f (before ++ a :: after))

theorem evalAll_eq_ok_iff {es : List Expr} {vs : List Number} :
    evalAll es = .ok vs ↔ List.Forall₂ (fun e v => e.eval = .ok v) es vs := by
  induction es generalizing vs with
  | nil =>
    rw [evalAll, List.forall₂_nil_left_iff]
    exact ⟨fun h => (Except.ok.inj h).symm, fun h => h ▸ rfl⟩
  | cons e es ih =>
    rw [evalAll, bind_eq_ok_iff, List.forall₂_cons_left_iff]
    constructor
    · rintro ⟨v, hv, h⟩
      obtain ⟨ws, hws, h⟩ := bind_eq_ok_iff.mp h
      exact ⟨v, ws, hv, ih.mp hws, (Except.ok.inj h).symm⟩
    · rintro ⟨v, ws, hv, hws, rfl⟩
      exact ⟨v, hv, bind_eq_ok_iff.mpr ⟨ws, ih.mpr hws, rfl⟩⟩

theorem exists_value {es : List Expr} {vs : List Number}
    (h : List.Forall₂ (fun e v => e.eval = .ok v) es vs) (he : e ∈ es) :
    ∃ v ∈ vs, e.eval = .ok v := by
  induction h with
  | nil => cases he
  | cons hv _ ih =>
    rcases List.mem_cons.mp he with rfl | he
    · exact ⟨_, List.mem_cons_self, hv⟩
    · obtain ⟨v, hmem, hv⟩ := ih he
      exact ⟨v, List.mem_cons_of_mem _ hmem, hv⟩

theorem first_or_last {R : Expr → Number → Prop} {before after : List Expr} {v w : Number}
    (h : List.Forall₂ R (before ++ e :: after) [v, w]) :
    (before = [] ∧ ∃ y, after = [y] ∧ R y w) ∨ R e w := by
  cases before with
  | nil =>
    obtain ⟨-, hafter⟩ := List.forall₂_cons.mp h
    obtain ⟨y, rest, hy, hrest, rfl⟩ := List.forall₂_cons_right_iff.mp hafter
    obtain rfl := List.forall₂_nil_right_iff.mp hrest
    exact .inl ⟨rfl, y, rfl, hy⟩
  | cons x before =>
    obtain ⟨-, hrest⟩ := List.forall₂_cons.mp h
    cases before with
    | nil => exact .inr (List.forall₂_cons.mp hrest).1
    | cons z before =>
      have hnil := List.forall₂_nil_right_iff.mp (List.forall₂_cons.mp hrest).2
      cases before <;> cases hnil

/-- One case for each kind of place: what is evaluated there is handed on to the operation around
it, unless something else fails before. -/
theorem Exposed.contaminated (h : Exposed sub e) (hsub : sub.eval = .ok .nan) :
    Contaminated e.eval := by
  induction h with
  | here => exact .inl hsub
  | negate _ ih =>
    rw [eval]
    refine contaminated_bind fun v hv => ?_
    rw [ih.eq_nan hv]
    exact contaminated_nan
  | left _ hbase ih =>
    rw [eval]
    refine contaminated_bind fun v hv => contaminated_bind fun w hw => ?_
    refine Operator.contaminated_apply (.inr ⟨ih.eq_nan hv, ?_⟩)
    rintro hop rfl
    exact hbase hop hw
  | right _ ih =>
    rw [eval]
    refine contaminated_bind fun v _ => contaminated_bind fun w hw => ?_
    exact Operator.contaminated_apply (.inl (ih.eq_nan hw))
  | @argument f before after a _ hbase ih =>
    rw [eval]
    refine contaminated_bind fun vs hvs => ?_
    have hvalues := evalAll_eq_ok_iff.mp hvs
    obtain ⟨v, hv, ha⟩ := exists_value hvalues (List.mem_append_right before List.mem_cons_self)
    refine Function.contaminated_apply (ih.eq_nan ha ▸ hv) ?_
    rintro hf rfl
    -- The arguments NaN and 0 of a power: the subtree is the first, or else it would be the 0.
    rcases first_or_last hvalues with ⟨hbefore, y, hafter, hy⟩ | ha
    · exact hbase y hf hbefore hafter hy
    · cases ih.eq_nan ha

/-- A tree with a subtree that evaluates to NaN ends in NaN or in an error, as does its program,
unless the subtree is in the base of a power whose exponent evaluates to zero. Of the operations and
functions only the power gives a number where an operand or an argument is NaN. -/
theorem nan_contaminates :
    (∀ e sub : Expr, Exposed sub e → sub.eval = .ok .nan →
      Contaminated e.eval ∧ Contaminated e.program.run) ∧
    (∀ v : Number, v.add .nan = .nan ∧ Number.nan.add v = .nan ∧ v.sub .nan = .nan ∧
      Number.nan.sub v = .nan ∧ v.mul .nan = .nan ∧ Number.nan.mul v = .nan ∧ v.div .nan = .nan ∧
      Number.nan.div v = .nan ∧ Number.nan.neg = .nan) ∧
    ∀ (name : String) (args : List Number), .nan ∈ args → name ≠ "pow" →
      Contaminated (Catalogue.apply name args) := by
  refine ⟨fun e sub hexposed hsub => ?_, fun v => ?_, fun _ _ => Catalogue.contaminated_apply⟩
  · rw [run_program]
    exact ⟨hexposed.contaminated hsub, hexposed.contaminated hsub⟩
  · exact ⟨Number.add_nan v, Number.nan_add v, Number.add_nan v, Number.nan_add v.neg,
      Number.mul_nan v, Number.nan_mul v, Number.div_nan v, Number.nan_div v, rfl⟩

def zeroOverZero : Expr := .binary .divide (.number 0) (.number 0)

theorem nan_contaminates_power :
    Contaminated (Expr.call .max [.number 1, .binary .power zeroOverZero (.number 1)]).eval ∧
      (Expr.binary .power zeroOverZero (.number 0)).eval = .ok .one := by
  have hexponent : (Expr.number 1).eval ≠ .ok .zero := nofun
  have hexposed : Exposed zeroOverZero
      (.call .max ([.number 1] ++ .binary .power zeroOverZero (.number 1) :: [])) :=
    .argument (.left .here fun _ => hexponent) nofun
  exact ⟨(nan_contaminates.1 _ _ hexposed rfl).1, rfl⟩

end Expr

end Reckoner
