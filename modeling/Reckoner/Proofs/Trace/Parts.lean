import Reckoner.Proofs.Trace.Kernel
import Reckoner.Proofs.Trace.Operations

set_option autoImplicit false

namespace Reckoner.Traced

open Decimal

variable {x : ℤ}

def lnKernels : Number → List Kernel
  | .finite x => if hx : 0 < x then [.logarithm (raise x) (mul_pos hx guardFactor_pos)] else []
  | _ => []

/-- The second logarithm is taken where the first has a value. -/
def logKernels (x b : Number) : List Kernel :=
  lnKernels x ++ if x.sign < 0 then [] else lnKernels b

def arcsineKernels (x : ℤ) : List Kernel :=
  let square := fineOne * fineOne - x * x
  if |x| < fineOne then
    [.root square.toNat, .arctangent (Decimal.fineQuotient x (Decimal.fineRoot square))]
  else if |x| = fineOne then [.pi]
  else []

def finiteKernels (x : ℤ) : Unary → List Kernel
  | .sin | .cos | .tan => [.circular (raise x)]
  | .asin => arcsineKernels (raise x)
  | .acos => arcsineKernels (raise x) ++ if |raise x| ≤ fineOne then [.pi] else []
  | .atan => [.arctangent (raise x)]
  | .sinh | .cosh => [.exponential (raise x), .exponential (-raise x)]
  | .tanh => if |x| ≤ ofInt 100 then [.exponential (raise x * 2)] else []
  | .log10 => logKernels (.finite x) (.finite (ofInt 10))
  | .log2 => logKernels (.finite x) (.finite (ofInt 2))
  | .ln => lnKernels (.finite x)
  | .sqrt => if 0 ≤ x then [.root (x * one).toNat] else []
  | .exp => [.exponential (raise x)]
  | .abs | .ceil | .floor | .trunc | .sign => []

def unaryKernels (u : Unary) : Number → List Kernel
  | .finite x => finiteKernels x u
  | .posInf | .negInf => if u = .atan then [.pi] else []
  | .nan => []

def realPowerKernels (x y : ℤ) : List Kernel :=
  if hx : 0 < x then
    [.logarithm (raise x) (mul_pos hx guardFactor_pos),
      .exponential (Decimal.fineProduct (raise y) (Decimal.fineLn (raise x)))]
  else []

/-- An exponent that is no word, or is not whole, goes by the exponential. -/
def powerKernels : Number → Number → List Kernel
  | .finite x, .finite y =>
    if Decimal.isWhole y then
      if (Decimal.wholeWord? y).isSome then [] else realPowerKernels |x| y
    else realPowerKernels x y
  | _, _ => []

/-- The kernels that a function runs. -/
def functionKernels (f : Function) (args : List Number) : List Kernel :=
  match f, args with
  | .unary u, [x] => unaryKernels u x
  | .log, [x] => lnKernels x
  | .log, [x, b] => logKernels x b
  | .pow, [x, y] => powerKernels x y
  | _, _ => []

def operatorKernels (op : Operator) (a b : Number) : List Kernel :=
  if op = .power then powerKernels a b else []

def Runs (kernels : List Kernel) (events : List Event) : Prop := ∀ k ∈ kernels, k.events ⊆ events

theorem Runs.mono {kernels : List Kernel} {events events' : List Event} (h : Runs kernels events)
    (hsubset : events ⊆ events') : Runs kernels events' :=
  fun k hk => List.Subset.trans (h k hk) hsubset

theorem runs_nil (events : List Event) : Runs [] events := fun _ hk => nomatch hk

theorem runs_singleton {k : Kernel} {events : List Event} (h : k.events ⊆ events) :
    Runs [k] events := List.forall_mem_singleton.mpr h

theorem runs_append {ks ks' : List Kernel} {events : List Event} (h : Runs ks events)
    (h' : Runs ks' events) : Runs (ks ++ ks') events := List.forall_mem_append.mpr ⟨h, h'⟩

section

variable {ε α β : Type} {r : Traced (Except ε α)} {f : α → Traced (Except ε β)} {v : α}

theorem subset_andThen_left : r.events ⊆ (r.andThen f).events := subset_bind_left

theorem subset_andThen_right (hr : Sound r (.ok v)) : (f v).events ⊆ (r.andThen f).events :=
  fun _ he => mem_bind_right hr he

end

theorem runs_checkedLn (x : ℤ) : Runs (lnKernels (.finite x)) (checkedLn x).events := by
  by_cases hx : 0 < x
  · rw [lnKernels, dif_pos hx, checkedLn, if_neg hx.not_gt, if_neg hx.ne']
    exact runs_singleton subset_bind_left
  · rw [lnKernels, dif_neg hx]
    exact runs_nil _

theorem runs_ln (a : Number) : Runs (lnKernels a) (unary .ln a).events := by
  cases a with
  | finite x => exact (runs_checkedLn x).mono subset_andThen_left
  | posInf | negInf | nan => exact runs_nil _

theorem sign_neg (hx : x < 0) : (Number.finite x).sign < 0 := by
  change x.sign < 0
  rw [Int.sign_eq_neg_one_of_neg hx]
  decide

theorem exists_checkedLn (hx : ¬x < 0) : ∃ l, Decimal.checkedLn x = .ok l := by
  rw [Decimal.checkedLn, if_neg hx]
  split
  · exact ⟨_, rfl⟩
  · exact ⟨_, rfl⟩

theorem exists_ln {a : Number} (ha : ¬a.sign < 0) : ∃ l, Unary.ln.apply a = .ok l := by
  cases a with
  | finite x =>
    have hx : ¬x < 0 := fun h => ha (sign_neg h)
    obtain ⟨_ | l, hl⟩ := exists_checkedLn hx
    · exact ⟨.negInf, by simp [Unary.apply, Unary.onFinite, Decimal.ln, hl]; rfl⟩
    · exact ⟨.finite (Decimal.lower l), by simp [Unary.apply, Unary.onFinite, Decimal.ln, hl]; rfl⟩
  | posInf => exact ⟨_, rfl⟩
  | negInf => exact absurd (by decide) ha
  | nan => exact ⟨_, rfl⟩

theorem runs_logBase (x b : ℤ) :
    Runs (logKernels (.finite x) (.finite b)) (logBase x b).events := by
  refine runs_append ((runs_checkedLn x).mono subset_andThen_left) ?_
  split
  · exact runs_nil _
  · next hsign =>
    have hx : ¬x < 0 := fun h => hsign (sign_neg h)
    obtain ⟨l, hl⟩ := exists_checkedLn hx
    exact (runs_checkedLn b).mono fun _ he =>
      subset_andThen_right (hl ▸ sound_checkedLn x) (subset_andThen_left he)

theorem runs_extendedLogBase (x b : Number) :
    Runs (logKernels x b) (extendedLogBase x b).events := by
  have hgeneral : Runs (logKernels x b) ((unary .ln x).andThen fun lx =>
      (unary .ln b).andThen fun lb => do return .ok (← div lx lb)).events := by
    refine runs_append ((runs_ln x).mono subset_andThen_left) ?_
    split
    · exact runs_nil _
    · next hsign =>
      obtain ⟨l, hl⟩ := exists_ln hsign
      exact (runs_ln b).mono fun _ he =>
        subset_andThen_right (hl ▸ sound_unary .ln x) (subset_andThen_left he)
  cases x with
  | finite x =>
    cases b with
    | finite b => exact runs_logBase x b
    | posInf | negInf | nan => exact hgeneral
  | posInf | negInf | nan => exact hgeneral

theorem runs_fineArcsin (x : ℤ) : Runs (arcsineKernels x) (fineArcsin? x).events := by
  unfold arcsineKernels fineArcsin?
  rw [Int.natCast_natAbs]
  rcases lt_trichotomy |x| fineOne with hin | hedge | hout
  · rw [if_pos hin, if_neg hin.le.not_gt, if_neg hin.ne]
    refine List.forall_mem_cons.mpr ⟨fun _ he => mem_bind_left (subset_fineRoot _ he),
      List.forall_mem_singleton.mpr fun _ he => ?_⟩
    exact mem_bind_right (sound_fineRoot _)
      (mem_bind_right (sound_fineQuotient x (arcsineRoot_pos hin).ne') (mem_bind_left he))
  · rw [if_neg hedge.not_lt, if_pos hedge, if_neg hedge.not_gt, if_pos hedge]
    exact runs_singleton fun _ he => mem_bind_left (subset_fineHalfPi he)
  · rw [if_neg hout.le.not_gt, if_neg hout.ne']
    exact runs_nil _

theorem exists_fineArcsin (hx : |x| ≤ fineOne) : ∃ a, Decimal.fineArcsin? x = some a := by
  rw [Decimal.fineArcsin?, Int.natCast_natAbs, if_neg hx.not_gt]
  split
  · exact ⟨_, rfl⟩
  · exact ⟨_, rfl⟩

theorem runs_acos (x : ℤ) : Runs (finiteKernels x .acos) (acos? x).events := by
  refine runs_append ((runs_fineArcsin _).mono subset_bind_left) ?_
  split
  · next hx =>
    obtain ⟨a, ha⟩ := exists_fineArcsin hx
    refine runs_singleton fun _ he => mem_bind_right (sound_fineArcsin? _) ?_
    rw [ha]
    exact mem_bind_left (subset_fineHalfPi he)
  · exact runs_nil _

theorem runs_onFinite (x : ℤ) (u : Unary) : Runs (finiteKernels x u) (onFinite x u).events := by
  cases u with
  | sin | cos => exact runs_singleton fun _ he => mem_bind_left (mem_bind_left he)
  | tan => exact runs_singleton fun _ he => mem_bind_left (mem_bind_left he)
  | asin => exact (runs_fineArcsin _).mono fun _ he => mem_bind_left (mem_bind_left he)
  | acos => exact (runs_acos x).mono subset_bind_left
  | atan => exact runs_singleton fun _ he => mem_bind_left (mem_bind_left he)
  | sinh | cosh =>
    refine List.forall_mem_cons.mpr ⟨fun _ he => mem_bind_left (mem_bind_left he),
      List.forall_mem_singleton.mpr fun _ he => ?_⟩
    exact mem_bind_left (mem_bind_right (sound_fineExp _) (mem_bind_left he))
  | tanh =>
    change Runs (if |x| ≤ ofInt 100 then _ else _) _
    split
    · next hx =>
      refine runs_singleton fun _ he => mem_bind_left ?_
      rw [tanh, Int.natCast_natAbs, if_neg hx.not_gt]
      exact mem_bind_left he
    · exact runs_nil _
  | log10 | log2 => exact runs_logBase x _
  | ln => exact (runs_checkedLn x).mono subset_andThen_left
  | sqrt =>
    change Runs (if 0 ≤ x then _ else _) _
    split
    · next hx =>
      refine runs_singleton fun _ he => mem_bind_left ?_
      rw [sqrt?, if_neg hx.not_gt]
      exact mem_bind_left he
    · exact runs_nil _
  | exp => exact runs_singleton fun _ he => mem_bind_left (mem_bind_left he)
  | abs | ceil | floor | trunc | sign => exact runs_nil _

theorem runs_unary (u : Unary) (a : Number) : Runs (unaryKernels u a) (unary u a).events := by
  cases a with
  | finite x => exact runs_onFinite x u
  | posInf | negInf =>
    cases u with
    | atan => exact runs_singleton fun _ he => mem_bind_left (mem_bind_left he)
    | _ => exact runs_nil _
  | nan => exact runs_nil _

theorem runs_realPower (x y : ℤ) : Runs (realPowerKernels x y) (realPower x y).events := by
  unfold realPowerKernels
  split
  · next hx =>
    rw [realPower, if_neg hx.ne']
    refine List.forall_mem_cons.mpr ⟨subset_bind_left, List.forall_mem_singleton.mpr fun _ he => ?_⟩
    exact mem_bind_right (sound_fineLn (mul_pos hx guardFactor_pos))
      (mem_bind_right (sound_fineProduct _ _) (mem_bind_left he))
  · exact runs_nil _

theorem subset_hugePower (x : ℤ) {y : ℤ} (hwhole : Decimal.isWhole y = true)
    (hword : Decimal.wholeWord? y = none) : (realPower |x| y).events ⊆ (pow x y).events := by
  intro event he
  refine mem_bind_right (sound_isWhole y) ?_
  rw [if_pos hwhole]
  refine mem_bind_right (sound_wholeWord? y) ?_
  rw [hword]
  change _ ∈ Traced.events (if x < 0 then _ else _)
  split
  · next hx =>
    rw [abs_of_neg hx] at he
    exact mem_bind_left he
  · next hx =>
    rw [abs_of_nonneg (not_lt.mp hx)] at he
    exact mem_bind_left he

theorem subset_brokenPower {x y : ℤ} (hwhole : ¬Decimal.isWhole y = true) (hx : ¬x < 0) :
    (realPower x y).events ⊆ (pow x y).events := by
  refine fun _ he => mem_bind_right (sound_isWhole y) ?_
  rw [if_neg hwhole, if_neg hx]
  exact mem_bind_left he

theorem runs_pow (x y : ℤ) : Runs (powerKernels (.finite x) (.finite y)) (pow x y).events := by
  change Runs (if Decimal.isWhole y then _ else _) _
  split
  · next hwhole =>
    split
    · exact runs_nil _
    · next hword =>
      exact (runs_realPower |x| y).mono
        (subset_hugePower x hwhole (Option.not_isSome_iff_eq_none.mp hword))
  · next hwhole =>
    by_cases hx : 0 < x
    · exact (runs_realPower x y).mono (subset_brokenPower hwhole hx.not_gt)
    · rw [realPowerKernels, dif_neg hx]
      exact runs_nil _

theorem runs_extendedPow (a b : Number) : Runs (powerKernels a b) (extendedPow a b).events := by
  cases a with
  | finite x =>
    cases b with
    | finite y => exact runs_pow x y
    | posInf | negInf | nan => exact runs_nil _
  | posInf | negInf | nan => exact runs_nil _

theorem runs_function (f : Function) (args : List Number) :
    Runs (functionKernels f args) (function f args).events := by
  cases f with
  | unary u =>
    rcases args with _ | ⟨x, _ | ⟨y, rest⟩⟩
    case cons.nil => exact (runs_unary u x).mono subset_bind_left
    all_goals exact runs_nil _
  | log =>
    rcases args with _ | ⟨x, _ | ⟨b, _ | ⟨c, rest⟩⟩⟩
    case cons.nil => exact (runs_ln x).mono subset_bind_left
    case cons.cons.nil => exact (runs_extendedLogBase x b).mono subset_bind_left
    all_goals exact runs_nil _
  | pow =>
    rcases args with _ | ⟨x, _ | ⟨y, _ | ⟨c, rest⟩⟩⟩
    case cons.cons.nil => exact (runs_extendedPow x y).mono subset_bind_left
    all_goals exact runs_nil _
  | round | min | max => exact runs_nil _

theorem runs_operator (op : Operator) (a b : Number) :
    Runs (operatorKernels op a b) (operator op a b).events := by
  cases op with
  | power => exact (runs_extendedPow a b).mono subset_bind_left
  | plus | minus | times | divide => exact runs_nil _

end Reckoner.Traced
