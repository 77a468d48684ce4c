import Reckoner.Proofs.Trace.Parts

/-!
The record of a run holds the loops and the divisors that the arithmetic is made of, so that its
soundness is a statement about them: no divisor is zero, and no loop takes more than a few turns.
-/
set_option autoImplicit false

namespace Reckoner.Traced

open Decimal

variable {x y n a acc b e l p : ℤ} {m turn : ℕ} {event : Event}

theorem subset_saturateLowered (v : ℤ) : [.division guardFactor] ⊆ (saturateLowered v).events :=
  List.Subset.refl _

theorem subset_lower {α : Type} (t : Traced α) (f : α → ℤ) :
    [.division guardFactor] ⊆ (t >>= fun v => lower (f v)).events := List.subset_append_right _ _

theorem subset_lowerQuotient (a b : ℤ) :
    [.division b, .division guardFactor] ⊆ (fineQuotient a b >>= saturateLowered).events :=
  List.Subset.refl _

theorem subset_div (x : ℤ) (hy : y ≠ 0) :
    [.division y] ⊆ (div (.finite x) (.finite y)).events := by
  rw [div, if_neg hy]
  exact List.Subset.refl _

theorem subset_exp (he : Decimal.fineExp (raise x) = some e) :
    [.division guardFactor] ⊆ (exp x).events := by
  refine List.Subset.trans ?_ (subset_bind_right (sound_fineExp _))
  rw [he]
  exact subset_saturateLowered e

theorem subset_sinh {ep em : ℤ} (hp : Decimal.fineExp (raise x) = some ep)
    (hm : Decimal.fineExp (-raise x) = some em) :
    [.division 2, .division guardFactor] ⊆ (sinh x).events := by
  refine List.Subset.trans ?_ (subset_bind_right (sound_fineExp _))
  refine List.Subset.trans ?_ (subset_bind_right (sound_fineExp _))
  rw [hp, hm]
  exact List.Subset.refl _

theorem subset_cosh {ep em : ℤ} (hp : Decimal.fineExp (raise x) = some ep)
    (hm : Decimal.fineExp (-raise x) = some em) :
    [.division 2, .division guardFactor] ⊆ (cosh x).events := by
  refine List.Subset.trans ?_ (subset_bind_right (sound_fineExp _))
  refine List.Subset.trans ?_ (subset_bind_right (sound_fineExp _))
  rw [hp, hm]
  exact List.Subset.refl _

theorem subset_tanh (hx : |x| ≤ ofInt 100) (he : Decimal.fineExp (raise x * 2) = some e) :
    [.division (e + fineOne), .division guardFactor] ⊆ (tanh x).events := by
  rw [← Int.natCast_natAbs] at hx
  rw [tanh, if_neg hx.not_gt]
  refine List.Subset.trans ?_ (subset_bind_right (sound_fineExp _))
  rw [he]
  exact List.Subset.refl _

theorem subset_tan (hc : (Decimal.fineSinCos (raise x)).2 ≠ 0) :
    [.division (Decimal.fineSinCos (raise x)).2, .division guardFactor] ⊆ (tan x).events := by
  refine List.Subset.trans ?_ (subset_bind_right (sound_fineSinCos _))
  change _ ⊆ Traced.events (if (Decimal.fineSinCos (raise x)).2 = 0 then _ else _)
  rw [if_neg hc]
  exact subset_lowerQuotient _ _

theorem subset_ln (hx : 0 < x) : [.division guardFactor] ⊆ (ln x).events := by
  refine List.Subset.trans ?_ (subset_bind_right (sound_checkedLn x))
  rw [Decimal.checkedLn, if_neg hx.not_gt, if_neg hx.ne']
  exact List.Subset.refl _

theorem subset_logBase (hx : Decimal.checkedLn x = .ok (some a))
    (hb : Decimal.checkedLn b = .ok (some l)) (hl : l ≠ 0) :
    [.division l, .division guardFactor] ⊆ (logBase x b).events := by
  refine List.Subset.trans ?_ (subset_andThen_right (hx ▸ sound_checkedLn x))
  refine List.Subset.trans ?_ (subset_andThen_right (hb ▸ sound_checkedLn b))
  change _ ⊆ Traced.events (if l = 0 then _ else _)
  rw [if_neg hl]
  exact List.Subset.refl _

theorem subset_fineArcsin (hx : |x| < fineOne) :
    [.division (Decimal.fineRoot (fineOne * fineOne - x * x))] ⊆ (fineArcsin? x).events := by
  rw [← Int.natCast_natAbs] at hx
  rw [fineArcsin?, if_neg hx.le.not_gt, if_neg hx.ne]
  exact fun _ he => mem_bind_right (sound_fineRoot _) (mem_bind_left he)

theorem subset_lowered_asin (hx : |raise x| ≤ fineOne) :
    [.division guardFactor] ⊆ (asin? x).events := by
  obtain ⟨a, ha⟩ := exists_fineArcsin hx
  refine List.Subset.trans ?_ (subset_bind_right (sound_fineArcsin? _))
  rw [ha]
  exact List.Subset.refl _

theorem subset_lowered_acos (hx : |raise x| ≤ fineOne) :
    [.division guardFactor] ⊆ (acos? x).events := by
  obtain ⟨a, ha⟩ := exists_fineArcsin hx
  refine List.Subset.trans ?_ (subset_bind_right (sound_fineArcsin? _))
  rw [ha]
  exact List.cons_subset.mpr
    ⟨mem_bind_right sound_fineHalfPi (mem_bind_left (mem_divide _ _)), List.nil_subset _⟩

theorem subset_roundNumber {k : ℕ} (x : ℤ) (hk : k < places) :
    [.division (tenPow (places - k))] ⊆ (roundNumber k (.finite x)).events := by
  have hkept : Nat.min k places = k := Nat.min_eq_left hk.le
  have hrescale : [.division (tenPow (places - k))] ⊆
      (rescale x places (Nat.min k places)).events := by
    rw [hkept, rescale, if_neg hk.not_ge]
    exact subset_bind_left (t := divide x _)
  exact List.Subset.trans hrescale (List.Subset.trans subset_bind_left subset_bind_left)

theorem mem_binaryPower (turn : ℕ) (acc b : ℤ) (m : ℕ) :
    .squaring turn ∈ (binaryPower turn acc b m).events := by
  rw [binaryPower]
  exact mem_bind_left (List.mem_singleton_self _)

/-- A power that comes out has not overflowed on the way. -/
theorem binaryPower_turned (hp : Decimal.binaryPower acc b m = some p) (hmore : m / 2 ≠ 0) :
    ¬(m % 2 = 1 ∧ fineOverflow (Decimal.accumulate acc b m) = true) ∧
    ¬fineOverflow (Decimal.fineProduct b b) = true ∧
    Decimal.binaryPower (Decimal.accumulate acc b m) (Decimal.fineProduct b b) (m / 2) =
      some p := by
  rw [binaryPower_eq, if_neg hmore] at hp
  split at hp
  · cases hp
  · next hacc =>
    split at hp
    · cases hp
    · next hsquare => exact ⟨hacc, hsquare, hp⟩

/-- The number of the last turn is that of the binary digits of the exponent. -/
theorem mem_binaryPower_last (hm : m ≠ 0) (hturn : turn + m.log2 ≤ 64)
    (hp : Decimal.binaryPower acc b m = some p) :
    .squaring (turn + m.log2) ∈ (binaryPower turn acc b m).events := by
  induction m using Nat.strong_induction_on generalizing turn acc b with
  | _ m ih =>
    by_cases hlast : m / 2 = 0
    · obtain rfl : m = 1 := by omega
      exact mem_binaryPower turn acc b 1
    · have hlog : turn + m.log2 = turn + 1 + (m / 2).log2 := by
        rw [Nat.log2_def, if_pos (by omega)]
        omega
      obtain ⟨hacc, hsquare, hrest⟩ := binaryPower_turned hp hlast
      have hsound : Sound (note (.squaring turn)) () := sound_note (by
        change turn ≤ 64
        omega)
      rw [binaryPower]
      refine mem_bind_right hsound (mem_bind_right (sound_accumulate acc b m) ?_)
      rw [if_neg hacc, if_neg hlast]
      refine mem_bind_right (sound_fineProduct b b) ?_
      rw [if_neg hsquare, hlog]
      exact ih (m / 2) (by omega) hlast (by omega) hrest

theorem mem_wholePower (hx : x ≠ 0) (hn : n ≠ 0) (hsure : surelyInfinite x n = false)
    (h : ∀ negative, event ∈ (powerOfNonzero negative x n).events) :
    event ∈ (wholePower x n).events := by
  rw [wholePower, if_neg hn, if_neg hx]
  refine mem_bind_right (sound_remainder n two_ne_zero) ?_
  rw [if_neg (Bool.eq_false_iff.mp hsure)]
  exact h _

theorem subset_wholePower (hx : x ≠ 0) (hn : n ≠ 0) :
    [.division 2] ⊆ (wholePower x n).events := by
  rw [wholePower, if_neg hn, if_neg hx]
  exact subset_bind_left (t := remainder n 2)

def powerBase (x n : ℤ) : ℤ :=
  if n < 0 ∧ raise x.natAbs < fineOne then (fineOne * fineOne).tdiv (raise x.natAbs)
  else raise x.natAbs

theorem sound_powerBase (hx : x ≠ 0) (n : ℤ) :
    Sound (invertedIf (n < 0 ∧ raise x.natAbs < fineOne) (raise x.natAbs)) (powerBase x n) := by
  have hsound := sound_invertedIf (c := decide (n < 0 ∧ raise x.natAbs < fineOne))
    fun _ => (raise_natAbs_pos hx).ne'
  rw [powerBase]
  simpa only [decide_eq_true_eq] using hsound

theorem mem_powerOfNonzero_turns (negative : Bool) (hx : x ≠ 0) (hn : n ≠ 0)
    (hword : n.natAbs < 2 ^ 64)
    (hp : Decimal.binaryPower fineOne (powerBase x n) n.natAbs = some p) :
    .squaring (1 + n.natAbs.log2) ∈ (powerOfNonzero negative x n).events := by
  have hzero : n.natAbs ≠ 0 := Int.natAbs_ne_zero.mpr hn
  have hlog : n.natAbs.log2 < 64 := (Nat.log2_lt hzero).mpr hword
  exact mem_bind_right (sound_powerBase hx n)
    (mem_bind_left (mem_binaryPower_last hzero (by omega) hp))

theorem mem_powerOfNonzero_base (negative : Bool) (hn : n < 0)
    (hsmall : raise x.natAbs < fineOne) :
    .division (raise x.natAbs) ∈ (powerOfNonzero negative x n).events := by
  refine mem_bind_left ?_
  rw [invertedIf, if_pos (decide_eq_true ⟨hn, hsmall⟩)]
  exact mem_divide _ _

theorem mem_powerOfNonzero_power (negative : Bool) (hx : x ≠ 0) (hn : n < 0)
    (hword : n.natAbs < 2 ^ 64) (hlarge : fineOne ≤ raise x.natAbs)
    (hp : Decimal.binaryPower fineOne (powerBase x n) n.natAbs = some p) :
    .division p ∈ (powerOfNonzero negative x n).events := by
  have hsmall : ¬decide (n < 0 ∧ raise x.natAbs < fineOne) = true :=
    fun h => (of_decide_eq_true h).2.not_ge hlarge
  refine mem_bind_right (sound_powerBase hx n)
    (mem_bind_right (sound_binaryPower (by norm_num) hword) ?_)
  rw [hp]
  refine mem_bind_left ?_
  rw [invertedIf, if_pos (decide_eq_true ⟨hn, hsmall⟩)]
  exact mem_divide _ _

theorem mem_powerOfNonzero_lowered (negative : Bool) (hx : x ≠ 0) (hword : n.natAbs < 2 ^ 64)
    (hp : Decimal.binaryPower fineOne (powerBase x n) n.natAbs = some p) :
    .division guardFactor ∈ (powerOfNonzero negative x n).events := by
  refine mem_bind_right (sound_powerBase hx n)
    (mem_bind_right (sound_binaryPower (by norm_num) hword) ?_)
  rw [hp]
  exact List.mem_append_right _ (mem_bind_left (mem_divide _ _))

theorem subset_realPower (hx : 0 < x)
    (he : Decimal.fineExp (Decimal.fineProduct (raise y) (Decimal.fineLn (raise x))) = some e) :
    [.division guardFactor] ⊆ (realPower x y).events := by
  rw [realPower, if_neg hx.ne']
  refine List.Subset.trans ?_ (subset_bind_right (sound_fineLn (mul_pos hx guardFactor_pos)))
  refine List.Subset.trans ?_ (subset_bind_right (sound_fineProduct _ _))
  refine List.Subset.trans ?_ (subset_bind_right (sound_fineExp _))
  rw [he]
  exact subset_saturateLowered e

theorem subset_isOddWhole (hy : Decimal.isWhole y = true) :
    [.division one, .division 2] ⊆ (isOddWhole y).events := by
  refine List.Subset.trans ?_ (subset_bind_right (sound_isWhole y))
  rw [if_pos hy]
  exact List.Subset.refl _

theorem subset_oddness (hx : x < 0) (hy : Decimal.isWhole y = true)
    (hword : Decimal.wholeWord? y = none) :
    [.division one, .division 2] ⊆ (pow x y).events := by
  intro event he
  refine mem_bind_right (sound_isWhole y) ?_
  rw [if_pos hy]
  refine mem_bind_right (sound_wholeWord? y) ?_
  rw [hword]
  change _ ∈ Traced.events (if x < 0 then _ else _)
  rw [if_pos hx]
  exact mem_bind_right (sound_realPower (neg_nonneg.mpr hx.le) y)
    (mem_bind_left (subset_isOddWhole hy he))

theorem subset_infinityPow (negative : Bool) (hy : 0 < y) (hwhole : Decimal.isWhole y = true) :
    [.division one, .division 2] ⊆ (infinityPow negative y).events := by
  rw [infinityPow, if_neg hy.ne', powerOfInfinity, if_neg hy.not_gt]
  exact List.Subset.trans (subset_isOddWhole hwhole) subset_bind_left

theorem subset_pow (x y : ℤ) : [.division one] ⊆ (pow x y).events :=
  List.Subset.trans (List.Subset.refl _) (subset_bind_left (t := isWhole y))

theorem mem_pow (hlow : -2 ^ 63 ≤ n) (hhigh : n < 2 ^ 63)
    (h : event ∈ (wholePower x n).events) : event ∈ (pow x (ofInt n)).events := by
  refine mem_bind_right (sound_isWhole _) ?_
  rw [ofInt, if_pos (isWhole_mul_one n), ← ofInt]
  refine mem_bind_right (sound_wholeWord? _) ?_
  rw [wholeWord?_ofInt hlow hhigh]
  exact mem_bind_left h

/-- Some functions are others under a second name, and so are their records. -/
structure SharedRecords : Prop where
  pow : ∀ a b, function .pow [a, b] = operator .power a b
  ln : ∀ a, function .log [a] = function (.unary .ln) [a]
  log10 : ∀ x, function (.unary .log10) [.finite x] =
    function .log [.finite x, .finite (ofInt 10)]
  log2 : ∀ x, function (.unary .log2) [.finite x] = function .log [.finite x, .finite (ofInt 2)]

theorem sharedRecords : SharedRecords where
  pow _ _ := rfl
  ln _ := rfl
  log10 _ := rfl
  log2 _ := rfl

/-- The loops that the functions are made of are on their records. -/
structure LoopsRecorded : Prop extends SharedRecords where
  ofFunction : ∀ f args, ∀ k ∈ functionKernels f args, ∀ l ∈ k.loops,
    .series l.series ∈ (function f args).events
  ofOperator : ∀ op a b, ∀ k ∈ operatorKernels op a b, ∀ l ∈ k.loops,
    .series l.series ∈ (operator op a b).events
  power : ∀ x n p, x ≠ 0 → n ≠ 0 → -2 ^ 63 ≤ n → n < 2 ^ 63 → surelyInfinite x n = false →
    Decimal.binaryPower fineOne (powerBase x n) n.natAbs = some p →
      .squaring (1 + n.natAbs.log2) ∈ (operator .power (.finite x) (.finite (ofInt n))).events

theorem loopsRecorded : LoopsRecorded where
  toSharedRecords := sharedRecords
  ofFunction f args k hk l hl := runs_function f args k hk (k.within_loops l hl).1
  ofOperator op a b k hk l hl := runs_operator op a b k hk (k.within_loops l hl).1
  power x n p hx hn hlow hhigh hsure hp :=
    mem_bind_left (mem_pow hlow hhigh (mem_wholePower hx hn hsure fun negative =>
      mem_powerOfNonzero_turns negative hx hn (by omega) hp))

/-- What is divided by is on the records: in the kernels, and in the operations around them. -/
structure DivisorsRecorded : Prop extends SharedRecords where
  ofFunction : ∀ f args k d, k ∈ functionKernels f args → k.Divides d →
    .division d ∈ (function f args).events
  ofOperator : ∀ op a b k d, k ∈ operatorKernels op a b → k.Divides d →
    .division d ∈ (operator op a b).events
  product : ∀ x y, [.division one] ⊆ (operator .times (.finite x) (.finite y)).events
  quotient : ∀ x y, y ≠ 0 → [.division y] ⊆ (operator .divide (.finite x) (.finite y)).events
  exp : ∀ x e, Decimal.fineExp (raise x) = some e →
    [.division guardFactor] ⊆ (function (.unary .exp) [.finite x]).events
  hyperbolic : ∀ x ep em, Decimal.fineExp (raise x) = some ep →
    Decimal.fineExp (-raise x) = some em → ∀ u ∈ [Unary.sinh, Unary.cosh],
      [.division 2, .division guardFactor] ⊆ (function (.unary u) [.finite x]).events
  tanh : ∀ x e, |x| ≤ ofInt 100 → Decimal.fineExp (raise x * 2) = some e →
    [.division (e + fineOne), .division guardFactor] ⊆
      (function (.unary .tanh) [.finite x]).events
  lowered : ∀ x, 0 < x → [.division guardFactor] ⊆ (function (.unary .ln) [.finite x]).events
  log : ∀ x b a l, Decimal.checkedLn x = .ok (some a) → Decimal.checkedLn b = .ok (some l) →
    l ≠ 0 → [.division l, .division guardFactor] ⊆
      (function .log [.finite x, .finite b]).events
  circular : ∀ x, ∀ u ∈ [Unary.sin, Unary.cos, Unary.atan],
    [.division guardFactor] ⊆ (function (.unary u) [.finite x]).events
  tan : ∀ x, (Decimal.fineSinCos (raise x)).2 ≠ 0 →
    [.division (Decimal.fineSinCos (raise x)).2, .division guardFactor] ⊆
      (function (.unary .tan) [.finite x]).events
  arcsine : ∀ x, ∀ u ∈ [Unary.asin, Unary.acos],
    (|raise x| < fineOne → [.division (Decimal.fineRoot (fineOne * fineOne - raise x * raise x))] ⊆
      (function (.unary u) [.finite x]).events) ∧
    (|raise x| ≤ fineOne → [.division guardFactor] ⊆ (function (.unary u) [.finite x]).events)
  infinity : ∀ a ∈ [Number.posInf, .negInf],
    [.division guardFactor, .division 2] ⊆ (function (.unary .atan) [a]).events
  rounding : ∀ x n k, n.roundPlaces? = some k → k < places →
    [.division (tenPow (places - k))] ⊆ (function .round [.finite x, n]).events
  asked : ∀ a x, [.division one] ⊆ (function .round [a, .finite x]).events
  nearest : ∀ x, [.division (tenPow places)] ⊆ (function .round [.finite x]).events
  whole : ∀ x, ∀ u ∈ [Unary.ceil, Unary.floor, Unary.trunc],
    [.division one] ⊆ (function (.unary u) [.finite x]).events
  exponent : ∀ x y, [.division one] ⊆ (operator .power (.finite x) (.finite y)).events
  parity : ∀ x n, x ≠ 0 → n ≠ 0 → -2 ^ 63 ≤ n → n < 2 ^ 63 →
    [.division 2] ⊆ (operator .power (.finite x) (.finite (ofInt n))).events
  base : ∀ x n, x ≠ 0 → n < 0 → -2 ^ 63 ≤ n → surelyInfinite x n = false →
    raise x.natAbs < fineOne →
      [.division (raise x.natAbs)] ⊆ (operator .power (.finite x) (.finite (ofInt n))).events
  power : ∀ x n p, x ≠ 0 → n < 0 → -2 ^ 63 ≤ n → surelyInfinite x n = false →
    fineOne ≤ raise x.natAbs →
      Decimal.binaryPower fineOne (powerBase x n) n.natAbs = some p →
        [.division p] ⊆ (operator .power (.finite x) (.finite (ofInt n))).events
  wholePower : ∀ x n p, x ≠ 0 → n ≠ 0 → -2 ^ 63 ≤ n → n < 2 ^ 63 →
    surelyInfinite x n = false →
      Decimal.binaryPower fineOne (powerBase x n) n.natAbs = some p →
        [.division guardFactor] ⊆ (operator .power (.finite x) (.finite (ofInt n))).events
  hugePower : ∀ x y, Decimal.isWhole y = true → Decimal.wholeWord? y = none →
    (∀ e, x ≠ 0 →
      Decimal.fineExp (Decimal.fineProduct (raise y) (Decimal.fineLn (raise |x|))) = some e →
        [.division guardFactor] ⊆ (operator .power (.finite x) (.finite y)).events) ∧
    (x < 0 → [.division one, .division 2] ⊆ (operator .power (.finite x) (.finite y)).events)
  brokenPower : ∀ x y e, ¬Decimal.isWhole y = true → 0 < x →
    Decimal.fineExp (Decimal.fineProduct (raise y) (Decimal.fineLn (raise x))) = some e →
      [.division guardFactor] ⊆ (operator .power (.finite x) (.finite y)).events
  infinitePower : ∀ a ∈ [Number.posInf, .negInf], ∀ y, 0 < y → Decimal.isWhole y = true →
    [.division one, .division 2] ⊆ (operator .power a (.finite y)).events

theorem subset_function (u : Unary) (x : ℤ) :
    (onFinite x u).events ⊆ (function (.unary u) [.finite x]).events := subset_bind_left

theorem subset_power (x y : ℤ) :
    (Traced.pow x y).events ⊆ (operator .power (.finite x) (.finite y)).events := subset_bind_left

theorem divisorsRecorded : DivisorsRecorded where
  toSharedRecords := sharedRecords
  ofFunction f args k d hk hd := runs_function f args k hk (k.mem_events hd)
  ofOperator op a b k d hk hd := runs_operator op a b k hk (k.mem_events hd)
  product x y := subset_bind_left (t := mul (.finite x) (.finite y))
  quotient x y hy := List.Subset.trans (subset_div x hy) subset_bind_left
  exp x e he :=
    List.Subset.trans (List.Subset.trans (subset_exp he) subset_bind_left) (subset_function .exp x)
  hyperbolic x ep em hp hm := List.forall_mem_cons.mpr
    ⟨List.Subset.trans (List.Subset.trans (subset_sinh hp hm) subset_bind_left)
        (subset_function .sinh x),
      List.forall_mem_singleton.mpr
        (List.Subset.trans (List.Subset.trans (subset_cosh hp hm) subset_bind_left)
          (subset_function .cosh x))⟩
  tanh x e hx he := List.Subset.trans (List.Subset.trans (subset_tanh hx he) subset_bind_left)
    (subset_function .tanh x)
  lowered x hx := List.Subset.trans (subset_ln hx) (subset_function .ln x)
  log x b a l ha hl hne := List.Subset.trans (subset_logBase ha hl hne) subset_bind_left
  circular x u hu := by
    refine List.Subset.trans ?_ (subset_function u x)
    simp only [List.mem_cons, List.not_mem_nil, or_false] at hu
    rcases hu with rfl | rfl | rfl
    · exact List.Subset.trans (subset_lower _ _) subset_bind_left
    · exact List.Subset.trans (subset_lower _ _) subset_bind_left
    · exact List.Subset.trans (subset_lower _ _) subset_bind_left
  tan x hc := List.Subset.trans (List.Subset.trans (subset_tan hc) subset_bind_left)
    (subset_function .tan x)
  arcsine x u hu := by
    have hfunction := subset_function u x
    rcases List.mem_pair.mp hu with rfl | rfl
    · refine ⟨fun hx => ?_, fun hx => ?_⟩
      · exact fun _ he => hfunction (mem_bind_left (mem_bind_left (subset_fineArcsin hx he)))
      · exact fun _ he => hfunction (mem_bind_left (subset_lowered_asin hx he))
    · refine ⟨fun hx => ?_, fun hx => ?_⟩
      · exact fun _ he => hfunction (mem_bind_left (mem_bind_left (subset_fineArcsin hx he)))
      · exact fun _ he => hfunction (mem_bind_left (subset_lowered_acos hx he))
  infinity a ha := by
    have hpi : .division guardFactor ∈ pi.events := mem_bind_right sound_finePi (mem_divide _ _)
    have hhalf (negative : Bool) : [.division guardFactor, .division 2] ⊆
        (onInfinity negative .atan).events :=
      List.cons_subset.mpr ⟨mem_bind_left hpi,
        List.cons_subset.mpr ⟨mem_bind_right sound_pi (mem_bind_left (mem_divide _ _)),
          List.nil_subset _⟩⟩
    rcases List.mem_pair.mp ha with rfl | rfl
    · exact List.Subset.trans (hhalf false) subset_bind_left
    · exact List.Subset.trans (hhalf true) subset_bind_left
  rounding x n k hn hk := by
    refine List.Subset.trans (subset_roundNumber x hk) ?_
    refine List.Subset.trans ?_ (subset_bind_right (sound_roundPlaces? n))
    rw [hn]
    exact subset_bind_left
  asked a x := by
    have hplaces : [.division one] ⊆ (roundPlaces? (.finite x)).events :=
      subset_bind_left (t := isWhole x)
    exact List.Subset.trans hplaces subset_bind_left
  nearest x := List.Subset.trans (subset_roundNumber (k := 0) x (by decide)) subset_bind_left
  whole x u hu := by
    refine List.Subset.trans ?_ (subset_function u x)
    simp only [List.mem_cons, List.not_mem_nil, or_false] at hu
    rcases hu with rfl | rfl | rfl
    · exact subset_bind_left (t := ceil x)
    · exact subset_bind_left (t := floor x)
    · exact subset_bind_left (t := trunc x)
  exponent x y := List.Subset.trans (subset_pow x y) (subset_power x y)
  parity x n hx hn hlow hhigh := fun _ he =>
    subset_power x _ (mem_pow hlow hhigh (subset_wholePower hx hn he))
  base x n hx hn hlow hsure hsmall := List.cons_subset.mpr ⟨subset_power x _
    (mem_pow hlow (by omega) (mem_wholePower hx hn.ne hsure fun negative =>
      mem_powerOfNonzero_base negative hn hsmall)), List.nil_subset _⟩
  power x n p hx hn hlow hsure hlarge hp := List.cons_subset.mpr ⟨subset_power x _
    (mem_pow hlow (by omega) (mem_wholePower hx hn.ne hsure fun negative =>
      mem_powerOfNonzero_power negative hx hn (by omega) hlarge hp)), List.nil_subset _⟩
  wholePower x n p hx hn hlow hhigh hsure hp := List.cons_subset.mpr ⟨subset_power x _
    (mem_pow hlow hhigh (mem_wholePower hx hn hsure fun negative =>
      mem_powerOfNonzero_lowered negative hx (by omega) hp)), List.nil_subset _⟩
  hugePower x y hwhole hword :=
    ⟨fun _ hx he => List.Subset.trans (subset_realPower (abs_pos.mpr hx) he)
        (List.Subset.trans (subset_hugePower x hwhole hword) (subset_power x y)),
      fun hx => List.Subset.trans (subset_oddness hx hwhole hword) (subset_power x y)⟩
  brokenPower x y e hwhole hx he := List.Subset.trans (subset_realPower hx he)
    (List.Subset.trans (subset_brokenPower hwhole hx.not_gt) (subset_power x y))
  infinitePower a ha y hy hwhole := by
    rcases List.mem_pair.mp ha with rfl | rfl
    · exact List.Subset.trans (List.Subset.trans (subset_infinityPow false hy hwhole)
        subset_bind_left) subset_bind_left
    · exact List.Subset.trans (List.Subset.trans (subset_infinityPow true hy hwhole)
        subset_bind_left) subset_bind_left

/-- No operator and no function divides by zero, whatever it is applied to: the traced run gives
the value of the untraced one, and no divisor on its record is zero. The computed divisors are all
on the records. -/
theorem divisors_ne_zero :
    (∀ (op : Operator) (a b : Number), (operator op a b).value = op.apply a b ∧
      ∀ d, .division d ∈ (operator op a b).events → d ≠ 0) ∧
    (∀ (f : Function) (args : List Number), (function f args).value = f.apply args ∧
      ∀ d, .division d ∈ (function f args).events → d ≠ 0) ∧ DivisorsRecorded := by
  refine ⟨fun op a b => ?_, fun f args => ?_, divisorsRecorded⟩
  · have hsound := sound_operator op a b
    exact ⟨hsound.value_eq, fun d hd => hsound.events _ hd⟩
  · have hsound := sound_function f args
    exact ⟨hsound.value_eq, fun d hd => hsound.events _ hd⟩

example : (operator .divide (.finite one) (.finite (ofInt 3))).events = [.division (ofInt 3)] :=
  rfl

/-- Every loop on the record is over soon: a series is spent within 100 turns, so that no higher
limit would change its sum, and the repeated squaring takes at most 64. -/
structure LoopsEnd (events : List Event) : Prop where
  series : ∀ S : Series, .series S ∈ events → S.EndsWithin 100 ∧
    ∀ turns, 100 ≤ turns → S.sumFrom turns S.start = S.sum
  squaring : ∀ turn, .squaring turn ∈ events → turn ≤ 64

theorem Sound.loopsEnd {α : Type} {t : Traced α} {v : α} (h : Sound t v) :
    LoopsEnd t.events where
  series _ hS := ⟨h.events _ hS, fun _ => (h.events _ hS).sumFrom_eq (by decide)⟩
  squaring _ hturn := h.events _ hturn

/-- Whatever the arguments of an operator or a function, its loops end after a few turns. -/
theorem loops_end :
    (∀ (op : Operator) (a b : Number), (operator op a b).value = op.apply a b ∧
      LoopsEnd (operator op a b).events) ∧
    (∀ (f : Function) (args : List Number), (function f args).value = f.apply args ∧
      LoopsEnd (function f args).events) ∧ LoopsRecorded := by
  refine ⟨fun op a b => ?_, fun f args => ?_, loopsRecorded⟩
  · exact ⟨(sound_operator op a b).value_eq, (sound_operator op a b).loopsEnd⟩
  · exact ⟨(sound_function f args).value_eq, (sound_function f args).loopsEnd⟩

end Reckoner.Traced
