import Reckoner.Proofs.Allowlist
import Reckoner.Proofs.Binary64.Rounding

set_option autoImplicit false

namespace Reckoner

def rounded (v : Int) (places : Nat) : ℚ :=
  (Decimal.rescale v Decimal.places places : ℤ) / 10 ^ places

/-- The answer that belongs to what a program left, with so many decimals. -/
structure Classified (places : Nat) (run : Except EvalError Number)
    (answer : Except EvalError Binary64) : Prop where
  exists_ok : ∀ v, run = .ok (.finite v) → |rounded v places| < Binary64.overflow →
    ∃ x, answer = .ok x
  ok_iff : ∀ x, answer = .ok x ↔ ∃ v, run = .ok (.finite v) ∧
    |rounded v places| < Binary64.overflow ∧ Binary64.IsNearest (rounded v places) x ∧
      x ≠ .zero true
  divisionByZero_iff : answer = .error .divisionByZero ↔ run = .ok .posInf ∨ run = .ok .negInf ∨
    ∃ v, run = .ok (.finite v) ∧ Binary64.overflow ≤ |rounded v places|
  nan_iff : answer = .error .nan ↔ run = .ok .nan
  failure : ∀ e, run = .error e → answer = .error e

namespace Evaluator

variable {ev : Evaluator} {expression normal : String} {precision : Nat} {tokens : List Token}
  {program : Program} {v : Int} {e : EvalError}

theorem classify_of_overflow
    (h : Binary64.overflow ≤ |rounded v (min precision precisionLimit)|) :
    classify precision (.finite v) = .error .divisionByZero := by
  have hplaces : min precision precisionLimit ≤ 64 := min_le_right _ _
  rcases Binary64.ofDecimal_spec (Decimal.rescale v Decimal.places _) hplaces with
    ⟨-, hinf⟩ | ⟨hsmall, -⟩
  · rw [classify, Number.toBinary64, hinf]
    rfl
  · exact absurd h hsmall.not_ge

theorem classify_of_lt (h : |rounded v (min precision precisionLimit)| < Binary64.overflow) :
    ∃ x, classify precision (.finite v) = .ok x ∧ ∀ y, x = y ↔
      Binary64.IsNearest (rounded v (min precision precisionLimit)) y ∧ y ≠ .zero true := by
  have hplaces : min precision precisionLimit ≤ 64 := min_le_right _ _
  rcases Binary64.ofDecimal_spec (Decimal.rescale v Decimal.places _) hplaces with
    ⟨hover, -⟩ | ⟨-, hiff⟩
  · exact absurd hover h.not_ge
  · refine ⟨_, ?_, hiff⟩
    have hfinite := ((hiff _).mp rfl).1.canonical
    rw [classify, Number.toBinary64]
    generalize Binary64.ofDecimal _ _ = x at hfinite
    cases x with
    | finite => rfl
    | infinite | nan => exact hfinite.elim

theorem classified_of_error (h : e.OfOperation) (places : Nat) :
    Classified places (.error e) (.error e) := by
  constructor
  case exists_ok | ok_iff => simp
  case divisionByZero_iff =>
    cases h <;> simp
  case nan_iff =>
    cases h <;> simp
  case failure =>
    rintro _ ⟨⟩
    rfl

theorem classified_classify (precision : Nat) (v : Number) :
    Classified (min precision precisionLimit) (.ok v) (classify precision v) := by
  cases v with
  | finite v =>
    rcases lt_or_ge |rounded v (min precision precisionLimit)| Binary64.overflow with hlt | hge
    · obtain ⟨x, hx, hiff⟩ := classify_of_lt hlt
      rw [hx]
      constructor
      case exists_ok => exact fun _ _ _ => ⟨x, rfl⟩
      case ok_iff => simpa [hlt] using hiff
      case divisionByZero_iff => simpa using hlt
      case nan_iff | failure => simp
    · rw [classify_of_overflow hge]
      constructor
      case exists_ok | ok_iff => simp [hge]
      case divisionByZero_iff => simpa using hge
      case nan_iff | failure => simp
  | posInf | negInf | nan =>
    simp only [classify, Number.toBinary64, Binary64.nonFiniteError?]
    constructor <;> simp

theorem evaluate_of_normalize_error (h : ev.normalize expression = .error e) :
    ev.evaluate expression precision = .error e := by
  rw [evaluate, h]
  rfl

theorem evaluate_of_compile_error (h : ev.normalize expression = .ok normal)
    (hcompile : compile normal = .error e) : ev.evaluate expression precision = .error e := by
  rw [evaluate, h]
  change compile normal >>= _ = _
  rw [hcompile]
  rfl

theorem evaluate_of_compile (h : ev.normalize expression = .ok normal)
    (hcompile : compile normal = .ok (tokens, program)) :
    ev.evaluate expression precision = program.run >>= classify precision := by
  rw [evaluate, h]
  change compile normal >>= _ = _
  rw [hcompile]
  rfl

theorem ofOperation_of_compile (hcompile : compile normal = .ok (tokens, program))
    (hrun : program.run = .error e) : e.OfOperation := by
  obtain ⟨-, e, -, rfl⟩ := compile_eq_ok_iff.mp hcompile
  exact Program.ofOperation_of_run hrun

/-- Every result is a number of the format. -/
theorem canonical_of_evaluate {x : Binary64} (h : ev.evaluate expression precision = .ok x) :
    x.Canonical := by
  obtain ⟨normal, -, h⟩ := bind_eq_ok_iff.mp h
  obtain ⟨⟨tokens, program⟩, -, h⟩ := bind_eq_ok_iff.mp h
  obtain ⟨v, -, hclassify⟩ := bind_eq_ok_iff.mp h
  obtain ⟨_, -, -, hnearest, -⟩ := ((classified_classify precision v).ok_iff x).mp hclassify
  exact hnearest.canonical

/-- What fails to be prepared or compiled fails with that error and is not run. For the rest the
final value decides: a finite one within the format gives the nearest number, never a negative zero,
and every other end gives its own error. -/
theorem evaluate_classified (ev : Evaluator) (expression : String) (precision : Nat) :
    (∀ e, ev.normalize expression = .error e → ev.evaluate expression precision = .error e) ∧
      (∀ normal, ev.normalize expression = .ok normal →
        (∀ e, compile normal = .error e → ev.evaluate expression precision = .error e) ∧
          ∀ tokens program, compile normal = .ok (tokens, program) →
            Classified (min precision 64) program.run (ev.evaluate expression precision)) ∧
      EvalError.nan.message = "Result is NaN" := by
  refine ⟨fun e => evaluate_of_normalize_error, fun normal h =>
    ⟨fun e => evaluate_of_compile_error h, fun tokens program hcompile => ?_⟩, rfl⟩
  rw [evaluate_of_compile h hcompile]
  cases hrun : program.run with
  | error e => exact classified_of_error (ofOperation_of_compile hcompile hrun) _
  | ok v => exact classified_classify precision v

def tinyTokens : List Token :=
  [⟨.minus, 0, "-"⟩, ⟨.number (10 * Decimal.one), 1, "10"⟩, ⟨.caret, 3, "^"⟩, ⟨.minus, 4, "-"⟩,
    ⟨.number (6 * Decimal.one), 5, "6"⟩]

def tinyProgram : Program :=
  [.number (10 * Decimal.one), .number (6 * Decimal.one), .negate, .binary .power, .negate]

theorem evaluate_tiny_negative :
    Classified 5 tinyProgram.run (evaluate {} "-10^-6" 5) ∧
      evaluate {} "-10^-6" 5 = .ok (.zero false) := by
  have hnormal : normalize {} "-10^-6" = .ok "-10^-6" := by decide +kernel
  have hcompile : compile "-10^-6" = .ok (tinyTokens, tinyProgram) := by decide +kernel
  exact ⟨((evaluate_classified {} "-10^-6" 5).2.1 _ hnormal).2 _ _ hcompile, by decide +kernel⟩

end Evaluator

end Reckoner
