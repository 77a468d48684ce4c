import Reckoner.Proofs.Accuracy.Series

set_option autoImplicit false

namespace Reckoner.Decimal

variable {S : Series} {x : ℤ} {a d z : ℝ} {i n s : ℕ}

/-- A term of sine where `s` is 1 and of cosine where it is 0. -/
noncomputable def circularTerm (z : ℝ) (s n : ℕ) : ℝ :=
  (-1) ^ n * z ^ (2 * n + s) / (2 * n + s).factorial

def circularDivisor (i : ℕ) : ℕ := (i + 1) * (i + 2)

theorem circularDivisor_pos (i : ℕ) : 0 < circularDivisor i :=
  Nat.mul_pos i.succ_pos (i + 1).succ_pos

theorem twelve_le_circularDivisor (hi : 2 ≤ i) : 12 ≤ circularDivisor i :=
  Nat.mul_le_mul (by omega : 3 ≤ i + 1) (by omega : 4 ≤ i + 2)

theorem circularTerm_succ (z : ℝ) (s n : ℕ) : circularTerm z s (n + 1) =
    circularTerm z s n * -(z ^ 2) / circularDivisor (2 * n + s) := by
  rw [circularTerm, circularTerm, show 2 * (n + 1) + s = 2 * n + s + 1 + 1 by ring,
    Nat.factorial_succ, Nat.factorial_succ, circularDivisor]
  push_cast
  field_simp
  ring

theorem abs_circularTerm (z : ℝ) (s n : ℕ) :
    |circularTerm z s n| = |z| ^ (2 * n + s) / (2 * n + s).factorial := by
  rw [circularTerm, abs_div, abs_mul, abs_pow, abs_neg, abs_one, one_pow, one_mul, abs_pow,
    Nat.abs_cast]

section Range

variable (hz : |z| ≤ 8 / 5)

include hz

theorem sq_le_of_abs_le : z ^ 2 ≤ 64 / 25 := by
  rw [← sq_abs]
  exact (pow_le_pow_left₀ (abs_nonneg z) hz 2).trans (by norm_num)

theorem abs_circularTerm_le (s n : ℕ) : |circularTerm z s n| ≤ 8 := by
  rw [abs_circularTerm]
  refine (Real.pow_div_factorial_le_exp |z| (abs_nonneg z) _).trans ?_
  calc Real.exp |z| ≤ Real.exp (1 + 1) := Real.exp_le_exp.mpr (by linarith)
    _ = Real.exp 1 * Real.exp 1 := Real.exp_add 1 1
    _ ≤ 2.8 * 2.8 := by
        have h := Real.exp_one_lt_d9
        exact mul_le_mul (by linarith) (by linarith) (Real.exp_pos 1).le (by norm_num)
    _ ≤ 8 := by norm_num

theorem abs_circularTerm_succ_le (s : ℕ) (hn : 1 ≤ n) :
    |circularTerm z s (n + 1)| ≤ |circularTerm z s n| / 2 := by
  have hdivisor : (12 : ℝ) ≤ circularDivisor (2 * n + s) := by
    exact_mod_cast twelve_le_circularDivisor (by omega : 2 ≤ 2 * n + s)
  rw [circularTerm_succ, abs_div, abs_mul, abs_neg, abs_of_nonneg (sq_nonneg z), Nat.abs_cast,
    mul_div_assoc, div_eq_mul_one_div _ (2 : ℝ)]
  refine mul_le_mul_of_nonneg_left ?_ (abs_nonneg _)
  rw [div_le_iff₀ (by linarith)]
  linarith [sq_le_of_abs_le hz]

theorem abs_circularTerm_add_le (s : ℕ) (hn : 1 ≤ n) (i : ℕ) :
    |circularTerm z s (i + n)| ≤ |circularTerm z s n| * (1 / 2) ^ i := by
  induction i with
  | zero => simp
  | succ i ih =>
    have hstep := abs_circularTerm_succ_le hz s (show 1 ≤ i + n by omega)
    rw [add_right_comm, pow_succ]
    linarith

theorem abs_circularTerm_last_le (hs : s ≤ 1) : |circularTerm z s 32| ≤ 1 / 100 * fineUnit := by
  have hpower : |z| ^ (2 * 32 + s) ≤ (8 / 5) ^ (2 * 32 + s) := pow_le_pow_left₀ (abs_nonneg z) hz _
  rw [abs_circularTerm, cast_fineUnit]
  refine (div_le_div_of_nonneg_right hpower (by positivity)).trans ?_
  obtain rfl | rfl : s = 0 ∨ s = 1 := by omega
  · norm_num [Nat.factorial]
  · norm_num [Nat.factorial]

end Range

theorem abs_fineProduct_self_sub_sq (x : ℤ) :
    |(fineRat (fineProduct x x) : ℝ) - (fineRat x : ℝ) ^ 2| ≤ fineUnit := by
  have h := (Rat.cast_le (K := ℝ)).mpr (abs_fineProduct_sub x x)
  rw [Rat.cast_abs, Rat.cast_sub, Rat.cast_mul, ← sq] at h
  exact h

theorem fineProduct_self_bounds (x : ℤ) : 0 ≤ (fineRat (fineProduct x x) : ℝ) ∧
    (fineRat (fineProduct x x) : ℝ) ≤ (fineRat x : ℝ) ^ 2 := by
  have hnonneg : 0 ≤ fineProduct x x := Int.tdiv_nonneg (mul_self_nonneg x) fineOne_pos.le
  have hle := (Rat.cast_le (K := ℝ)).mpr (abs_fineProduct_le_mul x x)
  rw [Rat.cast_abs, Rat.cast_mul, Rat.cast_abs, abs_mul_abs_self, ← sq] at hle
  exact ⟨by exact_mod_cast fineRat_nonneg hnonneg, (le_abs_self _).trans hle⟩

theorem circularNext_power (square : ℤ) (t : Term) : (circularNext square t).power =
    (t.power * -square).tdiv (fineOne * (circularDivisor t.index : ℕ)) := by
  rw [mul_neg]
  rfl

theorem near_circularNext {t : Term} (hp : Near t.power a d) (x : ℤ) :
    Near (circularNext (fineProduct x x) t).power
      (a * -(fineRat x : ℝ) ^ 2 / circularDivisor t.index)
      (1 + (d * (fineRat x : ℝ) ^ 2 + |a|) / circularDivisor t.index) := by
  have hpos : (0 : ℝ) < circularDivisor t.index := by exact_mod_cast circularDivisor_pos t.index
  have hd : 0 ≤ d := by
    rw [Near] at hp
    exact nonneg_of_mul_nonneg_left ((abs_nonneg _).trans hp) cast_fineUnit_pos
  obtain ⟨hnonneg, hle⟩ := fineProduct_self_bounds x
  have hstep := hp.product_divided (-fineProduct x x)
    (k := (circularDivisor t.index : ℕ)) (by exact_mod_cast circularDivisor_pos t.index)
  rw [Int.cast_natCast, fineRat_neg, Rat.cast_neg, abs_neg, abs_of_nonneg hnonneg] at hstep
  have hsquare : |a * -(fineRat (fineProduct x x) : ℝ) / circularDivisor t.index -
      a * -(fineRat x : ℝ) ^ 2 / circularDivisor t.index| ≤
        |a| / circularDivisor t.index * fineUnit := by
    have hsplit : a * -(fineRat (fineProduct x x) : ℝ) / circularDivisor t.index -
        a * -(fineRat x : ℝ) ^ 2 / circularDivisor t.index =
          a / circularDivisor t.index * ((fineRat x : ℝ) ^ 2 - fineRat (fineProduct x x)) := by
      ring
    rw [hsplit, abs_mul, abs_div, Nat.abs_cast, abs_sub_comm]
    exact mul_le_mul_of_nonneg_left (abs_fineProduct_self_sub_sq x) (by positivity)
  rw [circularNext_power]
  refine (hstep.trans hsquare).mono ?_
  have hfirst : d * (fineRat (fineProduct x x) : ℝ) ≤ d * (fineRat x : ℝ) ^ 2 :=
    mul_le_mul_of_nonneg_left hle hd
  rw [add_assoc, ← add_div]
  exact add_le_add_right (div_le_div_of_nonneg_right (by linarith) hpos.le) 1

theorem abs_fineRat_circularNext_le {t : Term} (hp : |(fineRat t.power : ℝ)| ≤ a) (x : ℤ) :
    |(fineRat (circularNext (fineProduct x x) t).power : ℝ)| ≤
      a * (fineRat x : ℝ) ^ 2 / circularDivisor t.index := by
  have hstep := (Rat.cast_le (K := ℝ)).mpr (abs_fineRat_product_tdiv_le t.power
    (-fineProduct x x) (k := (circularDivisor t.index : ℕ))
      (by exact_mod_cast circularDivisor_pos t.index))
  obtain ⟨hnonneg, hle⟩ := fineProduct_self_bounds x
  rw [← circularNext_power, fineRat_neg, abs_neg] at hstep
  push_cast at hstep
  rw [abs_of_nonneg hnonneg] at hstep
  exact hstep.trans (div_le_div_of_nonneg_right
    (mul_le_mul hp hle hnonneg ((abs_nonneg _).trans hp)) (by positivity))

/-- A series that takes the circular step of `x` from the true term at the index `s`. -/
structure Circular (S : Series) (x : ℤ) (s : ℕ) : Prop where
  next : S.next = circularNext (fineProduct x x)
  addend : S.addend = Term.power
  spent : S.spent = Term.isZero
  index : S.start.index = s
  power : (fineRat S.start.power : ℝ) = circularTerm (fineRat x) s 0

theorem circular_sinSeries (x : ℤ) : Circular (sinSeries x) x 1 where
  next := rfl
  addend := rfl
  spent := rfl
  index := rfl
  power := by simp [sinSeries, circularTerm]

theorem circular_cosSeries (x : ℤ) : Circular (cosSeries x) x 0 where
  next := rfl
  addend := rfl
  spent := rfl
  index := rfl
  power := by simp [cosSeries, circularTerm, fineRat_fineOne]

namespace Circular

theorem vanishes (h : Circular S x s) : S.Vanishes where
  spent t := by rw [h.spent]
  addend t ht := by rw [h.addend, ht]
  next t ht := by rw [h.next, circularNext_power, ht, zero_mul, Int.zero_tdiv]

theorem term_index (h : Circular S x s) (n : ℕ) : (S.term n).index = 2 * n + s := by
  induction n with
  | zero => exact h.index.trans (by omega)
  | succ n ih =>
    rw [Series.term_succ, h.next]
    change (S.term n).index + 2 = _
    omega

theorem abs_power_le (h : Circular S x s) (n : ℕ) :
    |(fineRat (S.term n).power : ℝ)| ≤ |circularTerm (fineRat x) s n| := by
  induction n with
  | zero => exact (congrArg _ h.power).le
  | succ n ih =>
    have hstep := abs_fineRat_circularNext_le ih x
    rw [h.term_index] at hstep
    rw [Series.term_succ, h.next, circularTerm_succ, abs_div, abs_mul, abs_neg, abs_sq,
      Nat.abs_cast]
    exact hstep

variable (hx : |(fineRat x : ℝ)| ≤ 8 / 5)

include hx

theorem near_power_succ (h : Circular S x s) (n : ℕ) :
    Near (S.term (n + 1)).power (circularTerm (fineRat x) s (n + 1)) 5 := by
  induction n with
  | zero =>
    have hstart : Near (S.term 0).power (circularTerm (fineRat x) s 0) 0 := by
      rw [← h.power]
      exact near_self _
    have hstep := near_circularNext hstart x
    rw [h.term_index] at hstep
    rw [Series.term_succ, h.next, circularTerm_succ]
    refine hstep.mono ?_
    have hdivisor : (2 : ℝ) ≤ circularDivisor (2 * 0 + s) := by
      exact_mod_cast Nat.mul_le_mul (by omega : 1 ≤ 2 * 0 + s + 1) (by omega : 2 ≤ 2 * 0 + s + 2)
    have hfirst := abs_circularTerm_le hx s 0
    rw [zero_mul, zero_add]
    have hquotient : |circularTerm (fineRat x) s 0| / circularDivisor (2 * 0 + s) ≤ 4 := by
      rw [div_le_iff₀ (by linarith)]
      linarith
    linarith
  | succ n ih =>
    have hstep := near_circularNext ih x
    rw [h.term_index] at hstep
    rw [Series.term_succ, h.next, circularTerm_succ]
    refine hstep.mono ?_
    have hdivisor : (12 : ℝ) ≤ circularDivisor (2 * (n + 1) + s) := by
      exact_mod_cast twelve_le_circularDivisor (by omega : 2 ≤ 2 * (n + 1) + s)
    have hlast := abs_circularTerm_le hx s (n + 1)
    have hsquare := sq_le_of_abs_le hx
    have hquotient : (5 * (fineRat x : ℝ) ^ 2 + |circularTerm (fineRat x) s (n + 1)|) /
        circularDivisor (2 * (n + 1) + s) ≤ 4 := by
      rw [div_le_iff₀ (by linarith)]
      linarith
    linarith

theorem near_power (h : Circular S x s) (n : ℕ) :
    Near (S.term n).power (circularTerm (fineRat x) s n) 5 := by
  cases n with
  | zero =>
    rw [← h.power]
    exact (near_self _).mono (by norm_num)
  | succ n => exact h.near_power_succ hx n

theorem power_eq_zero (h : Circular S x s) (hs : s ≤ 1) : (S.term 32).power = 0 := by
  have hunit := cast_fineUnit_pos
  exact eq_zero_of_abs_lt
    (((h.abs_power_le 32).trans (abs_circularTerm_last_le hx hs)).trans_lt (by linarith))

/-- The series is off by no more than 161 units. -/
theorem near_sum (h : Circular S x s) (hs : s ≤ 1) {total : ℝ}
    (htotal : HasSum (circularTerm (fineRat x) s) total) : Near S.sum total 161 := by
  have hlast := abs_circularTerm_last_le hx hs
  have hunit := cast_fineUnit_pos
  have htail := abs_sum_range_sub_le htotal 32 (abs_circularTerm_add_le hx s (by norm_num))
  have hterm : ∀ i < 32, Near (S.addend (S.term i)) (circularTerm (fineRat x) s i) 5 := by
    intro i _
    rw [h.addend]
    exact h.near_power hx i
  refine (h.vanishes.near_sum (n := 32) (e := 1) (by decide) (h.power_eq_zero hx hs) hterm
    (htail.trans (by linarith))).mono ?_
  norm_num

end Circular

theorem near_sinSeries (hx : |(fineRat x : ℝ)| ≤ 8 / 5) :
    Near (sinSeries x).sum (Real.sin (fineRat x)) 161 :=
  (circular_sinSeries x).near_sum hx le_rfl (Real.hasSum_sin _)

theorem near_cosSeries (hx : |(fineRat x : ℝ)| ≤ 8 / 5) :
    Near (cosSeries x).sum (Real.cos (fineRat x)) 161 :=
  (circular_cosSeries x).near_sum hx zero_le_one (Real.hasSum_cos _)

end Reckoner.Decimal
