import Reckoner.Proofs.Accuracy.Exponential
import Reckoner.Proofs.Accuracy.Pi
import Reckoner.Proofs.Accuracy.Trigonometry
import Reckoner.Proofs.Accuracy.Arctangent
import Reckoner.Proofs.Trace.Basic

set_option autoImplicit false

namespace Reckoner

open Decimal

namespace Decimal

variable {S : Series} {x z r : ℤ}

theorem Series.Vanishes.endsWithin (h : S.Vanishes) {n : ℕ} (hn : n ≤ 100)
    (hzero : (S.term n).power = 0) : S.EndsWithin 100 :=
  ⟨n, hn, (h.spent _).trans (decide_eq_true hzero)⟩

theorem endsWithin_artanhSeries (hz : |(fineRat z : ℝ)| ≤ 1 / 3) :
    (artanhSeries z).EndsWithin 100 :=
  (vanishes_artanhSeries z).endsWithin (by norm_num) (artanh_power_eq_zero hz)

theorem endsWithin_arctanSeries (hz : |(fineRat z : ℝ)| ≤ 1 / 3) :
    (arctanSeries z).EndsWithin 100 :=
  (vanishes_arctanSeries z).endsWithin (n := 78) (by norm_num) (artanh_power_eq_zero hz)

theorem endsWithin_expSeries (hr : |(fineRat r : ℝ)| ≤ 3 / 4) : (expSeries r).EndsWithin 100 :=
  (vanishes_expSeries r).endsWithin (by norm_num) (exp_power_eq_zero hr)

theorem Circular.endsWithin {s : ℕ} (h : Circular S x s) (hs : s ≤ 1)
    (hx : |(fineRat x : ℝ)| ≤ 8 / 5) : S.EndsWithin 100 :=
  h.vanishes.endsWithin (by norm_num) (h.power_eq_zero hx hs)

theorem endsWithin_arctanInverseSeries {q unit : ℤ} {n : ℕ} (hq : 0 < q) (hunit : 0 ≤ unit)
    (hn : n ≤ 100) (hlt : unit < reciprocalDivisor q n) :
    (arctanInverseSeries q unit).EndsWithin 100 :=
  ⟨n, hn, (arctanInverse_spent_iff hq hunit n).mpr hlt⟩

end Decimal

namespace Traced

structure Steps where
  spent : Term → Traced Bool
  addend : Term → Traced ℤ
  next : Term → Traced Term

def Steps.sumFrom (steps : Steps) : ℕ → Term → Traced ℤ
  | 0, _ => pure 0
  | turns + 1, t => do
    if ← steps.spent t then return 0
    else
      let a ← steps.addend t
      let rest ← steps.sumFrom turns (← steps.next t)
      return a + rest

def sum (S : Series) (steps : Steps) : Traced ℤ := do
  note (.series S)
  steps.sumFrom Series.turnLimit S.start

/-- The steps are those of the series, and sound for each term that keeps an invariant. -/
structure Steps.Follow (steps : Steps) (S : Series) (Kept : Term → Prop) : Prop where
  start : Kept S.start
  kept : ∀ t, Kept t → Kept (S.next t)
  spent : ∀ t, Kept t → Sound (steps.spent t) (S.spent t)
  addend : ∀ t, Kept t → Sound (steps.addend t) (S.addend t)
  next : ∀ t, Kept t → Sound (steps.next t) (S.next t)

variable {S : Series} {steps : Steps} {Kept : Term → Prop} {x z r : ℤ}

theorem Steps.Follow.sound_sumFrom (h : steps.Follow S Kept) (turns : ℕ) {t : Term}
    (ht : Kept t) : Sound (steps.sumFrom turns t) (S.sumFrom turns t) := by
  induction turns generalizing t with
  | zero => exact .pure 0
  | succ turns ih =>
    refine (h.spent t ht).bind (.ite (fun _ => .pure 0) fun _ => ?_)
    exact (h.addend t ht).bind ((h.next t ht).bind ((ih (h.kept t ht)).bind (.pure _)))

theorem Steps.Follow.sound_sum (h : steps.Follow S Kept) (hends : S.EndsWithin 100) :
    Sound (sum S steps) S.sum :=
  (sound_note (e := .series S) hends).bind (h.sound_sumFrom _ h.start)

def fineProduct (a b : ℤ) : Traced ℤ := divide (a * b) fineOne

theorem sound_fineProduct (a b : ℤ) : Sound (fineProduct a b) (Decimal.fineProduct a b) :=
  sound_divide _ fineOne_pos.ne'

def divided (t : Term) : Traced ℤ := divide t.power t.index

theorem sound_divided {t : Term} (ht : 0 < t.index) : Sound (divided t) t.divided :=
  sound_divide _ (Int.natCast_ne_zero.mpr ht.ne')

def alternating (t : Term) : Traced ℤ := do
  let a ← divided t
  return if t.index % 4 = 1 then a else -a

theorem sound_alternating {t : Term} (ht : 0 < t.index) : Sound (alternating t) t.alternating :=
  (sound_divided ht).bind (.pure _)

def oddSteps (addend : Term → Traced ℤ) (square : ℤ) : Steps where
  spent t := pure t.isZero
  addend := addend
  next t := do return ⟨t.index + 2, ← fineProduct t.power square⟩

theorem follow_oddSteps {addend : Term → Traced ℤ} {square : ℤ} (hstart : 0 < S.start.index)
    (hspent : S.spent = Term.isZero) (hnext : S.next = oddNext square)
    (haddend : ∀ t : Term, 0 < t.index → Sound (addend t) (S.addend t)) :
    (oddSteps addend square).Follow S (fun t => 0 < t.index) where
  start := hstart
  kept t _ := by
    rw [hnext]
    exact Nat.add_pos_right t.index two_pos
  spent t _ := by
    rw [hspent]
    exact .pure _
  addend := haddend
  next t _ := by
    rw [hnext]
    exact (sound_fineProduct _ _).bind (.pure _)

def artanhSum (z : ℤ) : Traced ℤ := do
  sum (artanhSeries z) (oddSteps divided (← fineProduct z z))

theorem sound_artanhSum (hz : |(fineRat z : ℝ)| ≤ 1 / 3) :
    Sound (artanhSum z) (artanhSeries z).sum :=
  (sound_fineProduct z z).bind
    ((follow_oddSteps Nat.one_pos rfl rfl fun _ => sound_divided).sound_sum
      (endsWithin_artanhSeries hz))

def arctanSum (z : ℤ) : Traced ℤ := do
  sum (arctanSeries z) (oddSteps alternating (← fineProduct z z))

theorem sound_arctanSum (hz : |(fineRat z : ℝ)| ≤ 1 / 3) :
    Sound (arctanSum z) (arctanSeries z).sum :=
  (sound_fineProduct z z).bind
    ((follow_oddSteps Nat.one_pos rfl rfl fun _ => sound_alternating).sound_sum
      (endsWithin_arctanSeries hz))

def expSteps (r : ℤ) : Steps where
  spent t := pure t.isZero
  addend t := pure t.power
  next t := do return ⟨t.index + 1, ← divide (t.power * r) (fineOne * t.index)⟩

theorem follow_expSteps (r : ℤ) : (expSteps r).Follow (expSeries r) (fun t => 0 < t.index) where
  start := Nat.one_pos
  kept t _ := t.index.succ_pos
  spent _ _ := .pure _
  addend _ _ := .pure _
  next t ht :=
    have hdivisor : 0 < fineOne * (t.index : ℤ) := mul_pos fineOne_pos (Int.natCast_pos.mpr ht)
    (sound_divide _ hdivisor.ne').bind (.pure _)

def expSum (r : ℤ) : Traced ℤ := sum (expSeries r) (expSteps r)

theorem sound_expSum (hr : |(fineRat r : ℝ)| ≤ 3 / 4) : Sound (expSum r) (expSeries r).sum :=
  (follow_expSteps r).sound_sum (endsWithin_expSeries hr)

def circularSteps (square : ℤ) : Steps where
  spent t := pure t.isZero
  addend t := pure t.power
  next t := do
    let power ← divide (-(t.power * square)) (fineOne * ((t.index + 1) * (t.index + 2) : ℕ))
    return ⟨t.index + 2, power⟩

theorem follow_circularSteps {s : ℕ} (h : Circular S x s) :
    (circularSteps (Decimal.fineProduct x x)).Follow S (fun _ => True) where
  start := trivial
  kept _ _ := trivial
  spent t _ := by
    rw [h.spent]
    exact .pure _
  addend t _ := by
    rw [h.addend]
    exact .pure _
  next t _ := by
    have hdivisor : 0 < fineOne * ((t.index + 1) * (t.index + 2) : ℕ) :=
      mul_pos fineOne_pos (Int.natCast_pos.mpr (circularDivisor_pos t.index))
    rw [h.next]
    exact (sound_divide _ hdivisor.ne').bind (.pure _)

def circularSum (series : ℤ → Series) (x : ℤ) : Traced ℤ := do
  sum (series x) (circularSteps (← fineProduct x x))

theorem sound_circularSum {series : ℤ → Series} {s : ℕ} (h : Circular (series x) x s)
    (hs : s ≤ 1) (hx : |(fineRat x : ℝ)| ≤ 8 / 5) :
    Sound (circularSum series x) (series x).sum :=
  (sound_fineProduct x x).bind ((follow_circularSteps h).sound_sum (h.endsWithin hs hx))

def arctanInverseSteps (q unit : ℤ) : Steps where
  spent t := do return (← divide unit (t.power * t.index)) = 0
  addend t := do
    let a ← divide unit (t.power * t.index)
    return if t.index % 4 = 1 then a else -a
  next t := pure ⟨t.index + 2, t.power * q * q⟩

theorem follow_arctanInverseSteps {q : ℤ} (hq : 0 < q) (unit : ℤ) :
    (arctanInverseSteps q unit).Follow (arctanInverseSeries q unit)
      (fun t => 0 < t.index ∧ 0 < t.power) := by
  have hdivisor {t : Term} (ht : 0 < t.index ∧ 0 < t.power) : t.power * (t.index : ℤ) ≠ 0 :=
    (mul_pos ht.2 (Int.natCast_pos.mpr ht.1)).ne'
  exact {
    start := ⟨Nat.one_pos, hq⟩
    kept := fun t ht => ⟨Nat.add_pos_right t.index two_pos, mul_pos (mul_pos ht.2 hq) hq⟩
    spent := fun t ht => (sound_divide unit (hdivisor ht)).bind (.pure _)
    addend := fun t ht => (sound_divide unit (hdivisor ht)).bind (.pure _)
    next := fun t _ => .pure _ }

def arctanInverseSum (q unit : ℤ) : Traced ℤ :=
  sum (arctanInverseSeries q unit) (arctanInverseSteps q unit)

theorem sound_arctanInverseSum {q unit : ℤ} (hq : 0 < q)
    (hends : (arctanInverseSeries q unit).EndsWithin 100) :
    Sound (arctanInverseSum q unit) (arctanInverseSeries q unit).sum :=
  (follow_arctanInverseSteps hq unit).sound_sum hends

end Traced

end Reckoner
