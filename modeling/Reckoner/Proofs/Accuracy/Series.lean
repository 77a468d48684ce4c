import Reckoner.Proofs.Accuracy.Truncation

set_option autoImplicit false

namespace Reckoner.Decimal

/-- Within `d` units of a real number. -/
def Near (x : ℤ) (a d : ℝ) : Prop := |(fineRat x : ℝ) - a| ≤ d * fineUnit

theorem cast_fineUnit : (fineUnit : ℝ) = 1 / 10 ^ 74 := by
  rw [fineUnit_eq]
  push_cast
  rfl

theorem cast_fineUnit_pos : (0 : ℝ) < fineUnit := by exact_mod_cast fineUnit_pos

theorem cast_fineRat (x : ℤ) : (fineRat x : ℝ) = x / fineOne := by
  rw [fineRat]
  push_cast
  rfl

theorem abs_fineRat_sub_tdiv_mul_le (x : ℤ) {b : ℤ} (hb : 0 < b) :
    |(fineRat (x - x.tdiv b * b) : ℝ)| ≤ fineRat b := by
  have hfine : |fineRat (x - x.tdiv b * b)| ≤ fineRat b := by
    rw [abs_fineRat, fineRat]
    exact div_le_div_of_nonneg_right (by exact_mod_cast (abs_sub_tdiv_mul_lt x hb).le)
      cast_fineOne_pos.le
  exact_mod_cast hfine

theorem near_self (x : ℤ) : Near x (fineRat x) 0 := by
  rw [Near, sub_self, abs_zero, zero_mul]

theorem near_of_rat {x : ℤ} {a : ℚ} (h : |fineRat x - a| ≤ fineUnit) : Near x a 1 := by
  rw [Near, one_mul]
  exact_mod_cast h

theorem eq_zero_of_abs_lt {x : ℤ} (h : |(fineRat x : ℝ)| < fineUnit) : x = 0 := by
  have hrat : |fineRat x| < fineUnit := by exact_mod_cast h
  rw [abs_fineRat, fineUnit, div_lt_div_iff_of_pos_right cast_fineOne_pos] at hrat
  exact Int.abs_lt_one_iff.mp (by exact_mod_cast hrat)

namespace Near

variable {p q : ℤ} {a b c d e : ℝ}

theorem mono (h : Near p a d) (hde : d ≤ e) : Near p a e :=
  h.trans (mul_le_mul_of_nonneg_right hde cast_fineUnit_pos.le)

theorem trans (h : Near p a d) (hab : |a - b| ≤ e * fineUnit) : Near p b (d + e) := by
  have htriangle := abs_sub_le (fineRat p : ℝ) a b
  rw [Near] at h ⊢
  rw [add_mul]
  linarith

theorem add (hp : Near p a d) (hq : Near q b e) : Near (p + q) (a + b) (d + e) := by
  have htriangle := abs_add_le ((fineRat p : ℝ) - a) ((fineRat q : ℝ) - b)
  rw [Near] at hp hq ⊢
  rw [fineRat_add, Rat.cast_add, add_sub_add_comm, add_mul]
  linarith

theorem mul_int (hp : Near p a d) (k : ℤ) : Near (p * k) (a * k) (d * |k|) := by
  rw [Near] at hp ⊢
  rw [fineRat_mul_int, Rat.cast_mul, Rat.cast_intCast, ← sub_mul, abs_mul, mul_right_comm,
    Int.cast_abs]
  exact mul_le_mul_of_nonneg_right hp (abs_nonneg _)

theorem divided (hp : Near p a d) {k : ℤ} (hk : 0 < k) : Near (p.tdiv k) (a / k) (1 + d / k) := by
  have hpos : (0 : ℝ) < k := by exact_mod_cast hk
  have htrunc : Near (p.tdiv k) (fineRat p / k : ℚ) 1 := near_of_rat (abs_fineRat_tdiv_sub p hk)
  refine htrunc.trans ?_
  rw [Near] at hp
  rw [Rat.cast_div, Rat.cast_intCast, ← sub_div, abs_div, abs_of_pos hpos, div_mul_eq_mul_div]
  exact div_le_div_of_nonneg_right hp hpos.le

theorem product (hp : Near p a d) (hq : Near q b e) :
    Near (fineProduct p q) (a * b) (1 + (d * |(fineRat q : ℝ)| + |a| * e)) := by
  have htrunc : Near (fineProduct p q) (fineRat p * fineRat q : ℚ) 1 :=
    near_of_rat (abs_fineProduct_sub p q)
  refine htrunc.trans ?_
  rw [Near] at hp hq
  have hsplit : ((fineRat p * fineRat q : ℚ) : ℝ) - a * b =
      (fineRat p - a) * fineRat q + a * (fineRat q - b) := by
    push_cast
    ring
  rw [hsplit, add_mul]
  refine (abs_add_le _ _).trans (add_le_add ?_ ?_)
  · rw [abs_mul, mul_right_comm]
    exact mul_le_mul_of_nonneg_right hp (abs_nonneg _)
  · rw [abs_mul, mul_assoc]
    exact mul_le_mul_of_nonneg_left hq (abs_nonneg _)

theorem product_divided (hp : Near p a d) (q : ℤ) {k : ℤ} (hk : 0 < k) :
    Near ((p * q).tdiv (fineOne * k)) (a * fineRat q / k) (1 + d * |(fineRat q : ℝ)| / k) := by
  have hpos : (0 : ℝ) < k := by exact_mod_cast hk
  have htrunc : Near ((p * q).tdiv (fineOne * k)) (fineRat p * fineRat q / k : ℚ) 1 :=
    near_of_rat (abs_fineRat_product_tdiv_sub p q hk)
  refine htrunc.trans ?_
  rw [Near] at hp
  push_cast
  rw [← sub_div, ← sub_mul, abs_div, abs_mul, abs_of_pos hpos, div_mul_eq_mul_div, mul_right_comm]
  exact div_le_div_of_nonneg_right (mul_le_mul_of_nonneg_right hp (abs_nonneg _)) hpos.le

theorem neg (hp : Near p a d) : Near (-p) (-a) d := by
  rw [Near, abs_sub_comm] at hp
  rwa [Near, fineRat_neg, Rat.cast_neg, neg_sub_neg]

theorem sub (hp : Near p a d) (hq : Near q b e) : Near (p - q) (a - b) (d + e) := by
  rw [sub_eq_add_neg, sub_eq_add_neg]
  exact hp.add hq.neg

end Near

section Lower

variable {x : ℤ} {a d : ℝ}

theorem abs_toRat_lower_sub_le {e : ℝ} (h : |(fineRat x : ℝ) - a| ≤ e) :
    |(toRat (lower x) : ℝ) - a| ≤ 1 / 10 ^ 64 + e := by
  have hlower := (Rat.cast_le (K := ℝ)).mpr (abs_toRat_lower_sub x)
  push_cast at hlower
  exact (abs_sub_le _ _ _).trans (add_le_add hlower h)

theorem Near.abs_toRat_lower_sub_le (h : Near x a d) :
    |(toRat (lower x) : ℝ) - a| ≤ 1 / 10 ^ 64 + d / 10 ^ 74 := by
  rw [Near, cast_fineUnit, mul_one_div] at h
  exact Decimal.abs_toRat_lower_sub_le h

theorem Near.lower_nonneg (h : Near x a d) (hd : d < 10 ^ 10) (ha : 0 ≤ a) : 0 ≤ lower x := by
  rcases le_total 0 x with hx | hx
  · exact Decimal.lower_nonneg hx
  · have hunit := mul_lt_mul_of_pos_right hd cast_fineUnit_pos
    have hguard : fineRat (-x) < fineRat guardFactor := by
      rw [fineRat_guardFactor, ← Rat.cast_lt (K := ℝ), fineRat_neg]
      push_cast
      linarith [(abs_le.mp h).1]
    have hzero : (-x).tdiv guardFactor = 0 :=
      Int.tdiv_eq_zero_of_lt (by omega) (fineRat_lt_fineRat.mp hguard)
    rw [Int.neg_tdiv, neg_eq_zero] at hzero
    exact hzero.ge

theorem Near.lower_nonpos (h : Near x a d) (hd : d < 10 ^ 10) (ha : a ≤ 0) : lower x ≤ 0 := by
  have hneg := h.neg.lower_nonneg hd (neg_nonneg.mpr ha)
  rw [lower, Int.neg_tdiv] at hneg
  exact neg_nonneg.mp hneg

end Lower

namespace Series

open Finset

variable {S : Series} {n : ℕ}

def term (S : Series) (n : ℕ) : Term := S.next^[n] S.start

theorem term_succ (S : Series) (n : ℕ) : S.term (n + 1) = S.next (S.term n) :=
  Function.iterate_succ_apply' _ _ _

def Ends (S : Series) : Prop :=
  ∀ i j, i ≤ j → S.spent (S.term i) = true → S.addend (S.term j) = 0

theorem Ends.sumFrom_eq (h : S.Ends) (turns k : ℕ) :
    S.sumFrom turns (S.term k) = ∑ i ∈ range turns, S.addend (S.term (k + i)) := by
  induction turns generalizing k with
  | zero => rfl
  | succ turns ih =>
    rw [sumFrom]
    split
    · next hspent => exact (sum_eq_zero fun i _ => h k (k + i) (Nat.le_add_right k i) hspent).symm
    · rw [← term_succ, ih, sum_range_succ', add_comm]
      simp only [add_assoc, add_comm 1, add_zero]

/-- The sum goes no further than the first term at which the series is spent. -/
theorem Ends.sum_eq (h : S.Ends) (hn : n ≤ turnLimit) (hspent : S.spent (S.term n) = true) :
    S.sum = ∑ i ∈ range n, S.addend (S.term i) := by
  have hsum := h.sumFrom_eq turnLimit 0
  rw [← sum_range_add_sum_Ico _ hn] at hsum
  simp only [zero_add] at hsum
  refine hsum.trans (add_eq_left.mpr (sum_eq_zero fun i hi => ?_))
  exact h n i (mem_Ico.mp hi).1 hspent

/-- Spent exactly at a zero power, which adds nothing and stays zero. -/
structure Vanishes (S : Series) : Prop where
  spent : ∀ t, S.spent t = t.isZero
  addend : ∀ t, t.power = 0 → S.addend t = 0
  next : ∀ t, t.power = 0 → (S.next t).power = 0

theorem Vanishes.power_eq_zero (h : S.Vanishes) {i j : ℕ} (hij : i ≤ j)
    (hi : (S.term i).power = 0) : (S.term j).power = 0 := by
  induction j, hij using Nat.le_induction with
  | base => exact hi
  | succ j _ ih =>
    rw [term_succ]
    exact h.next _ ih

theorem Vanishes.ends (h : S.Vanishes) : S.Ends := fun _ _ hij hspent =>
  h.addend _ (h.power_eq_zero hij (of_decide_eq_true ((h.spent _).symm.trans hspent)))

theorem near_sum {x : ℕ → ℤ} {f : ℕ → ℝ} {d : ℝ} (h : ∀ i < n, Near (x i) (f i) d) :
    Near (∑ i ∈ range n, x i) (∑ i ∈ range n, f i) (n * d) := by
  induction n with
  | zero => simpa [fineRat_zero] using near_self 0
  | succ n ih =>
    rw [sum_range_succ, sum_range_succ]
    have hfirst := ih fun i hi => h i (hi.trans n.lt_succ_self)
    refine (hfirst.add (h n n.lt_succ_self)).mono (le_of_eq ?_)
    push_cast
    ring

/-- The error of the sum: that of `n` terms and the tail behind them. -/
theorem Vanishes.near_sum (h : S.Vanishes) (hn : n ≤ turnLimit) (hzero : (S.term n).power = 0)
    {f : ℕ → ℝ} {total d e : ℝ} (hterm : ∀ i < n, Near (S.addend (S.term i)) (f i) d)
    (htail : |∑ i ∈ range n, f i - total| ≤ e * fineUnit) : Near S.sum total (n * d + e) := by
  have hspent : S.spent (S.term n) = true := (h.spent _).trans (decide_eq_true hzero)
  rw [h.ends.sum_eq hn hspent]
  exact (Series.near_sum hterm).trans htail

end Series

theorem abs_sum_range_sub_le {f : ℕ → ℝ} {total c : ℝ} (h : HasSum f total) (n : ℕ)
    (htail : ∀ i, |f (i + n)| ≤ c * (1 / 2) ^ i) : |∑ i ∈ Finset.range n, f i - total| ≤ 2 * c := by
  have hrest := (hasSum_nat_add_iff' n).mpr h
  have hbound := norm_sub_le_of_geometric_bound_of_hasSum (by norm_num) htail hrest 0
  rw [Finset.sum_range_zero, zero_sub, neg_sub, Real.norm_eq_abs] at hbound
  exact hbound.trans (le_of_eq (by ring))

theorem vanishes_artanhSeries (z : ℤ) : (artanhSeries z).Vanishes where
  spent _ := rfl
  addend t ht := by simp [artanhSeries, Term.divided, ht]
  next t ht := by simp [artanhSeries, oddNext, fineProduct, ht]

theorem vanishes_expSeries (r : ℤ) : (expSeries r).Vanishes where
  spent _ := rfl
  addend _ ht := ht
  next t ht := by simp [expSeries, ht]

end Reckoner.Decimal
