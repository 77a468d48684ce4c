import Reckoner.Application
import Reckoner.Proofs.Exact.Rational

set_option autoImplicit false

namespace Reckoner.Decimal

variable {n y : ℕ}

theorem newtonStep_pos (hn : 0 < n) (hy : 0 < y) : 0 < newtonStep n y := by
  unfold newtonStep
  rcases Nat.lt_or_ge y 2 with hsmall | hlarge
  · obtain rfl : y = 1 := by omega
    rw [Nat.div_one]
    omega
  · exact Nat.div_pos (hlarge.trans (Nat.le_add_right y _)) two_pos

theorem lt_newtonStep_succ_sq (n : ℕ) (hy : 0 < y) : n < (newtonStep n y + 1) ^ 2 := by
  have hquotient : n < y * (n / y + 1) := Nat.lt_mul_div_succ n hy
  have hmean : y + (n / y + 1) ≤ 2 * (newtonStep n y + 1) := by
    unfold newtonStep
    omega
  generalize n / y + 1 = q at hquotient hmean
  generalize newtonStep n y + 1 = s at hmean ⊢
  have hsquare : (y + q) ^ 2 ≤ (2 * s) ^ 2 := Nat.pow_le_pow_left hmean 2
  have hmeans : 4 * (y * q) ≤ (y + q) ^ 2 := by
    zify
    linarith [sq_nonneg ((y : ℤ) - q)]
  linarith

theorem sq_le_of_le_newtonStep (h : y ≤ newtonStep n y) : y ^ 2 ≤ n := by
  have hquotient : y ≤ n / y := by
    unfold newtonStep at h
    omega
  calc y ^ 2 = y * y := sq y
    _ ≤ n / y * y := Nat.mul_le_mul_right y hquotient
    _ ≤ n := Nat.div_mul_le_self n y

/-- A run of `k` steps from `y` that divides by no zero, goes down at each step and arrives at `r`,
from where the next step would not go down. -/
structure Descent (n y k r : ℕ) : Prop where
  positive : ∀ i ≤ k, 0 < (newtonStep n)^[i] y
  down : ∀ i < k, (newtonStep n)^[i + 1] y < (newtonStep n)^[i] y
  arrives : (newtonStep n)^[k] y = r
  stops : r ≤ newtonStep n r

theorem iterate_newtonStep_pos (hn : 0 < n) (hy : 0 < y) (i : ℕ) :
    0 < (newtonStep n)^[i] y := by
  induction i with
  | zero => exact hy
  | succ i ih =>
    rw [Function.iterate_succ_apply']
    exact newtonStep_pos hn ih

theorem exists_descent (hn : 0 < n) (hy : 0 < y) : ∃ k, Descent n y k (descend n y) := by
  fun_induction descend n y with
  | case1 y hlt ih =>
    obtain ⟨k, hk⟩ := ih (newtonStep_pos hn hy)
    refine ⟨k + 1, fun i _ => iterate_newtonStep_pos hn hy i, fun i hi => ?_, hk.arrives, hk.stops⟩
    cases i with
    | zero => exact hlt
    | succ i => exact hk.down i (by omega)
  | case2 y hge =>
    exact ⟨0, fun i _ => iterate_newtonStep_pos hn hy i, nofun, rfl, not_lt.mp hge⟩

/-- The invariant of the run is that the root is below the next number. -/
theorem descend_bounds (hy : 0 < y) (hn : 0 < n) (h : n < (y + 1) ^ 2) :
    descend n y ^ 2 ≤ n ∧ n < (descend n y + 1) ^ 2 := by
  fun_induction descend n y with
  | case1 y hlt ih => exact ih (newtonStep_pos hn hy) (lt_newtonStep_succ_sq n hy)
  | case2 y hge => exact ⟨sq_le_of_le_newtonStep (not_lt.mp hge), h⟩

theorem rootStart_pos (n : ℕ) : 0 < rootStart n := Nat.two_pow_pos _

theorem lt_rootStart_sq (n : ℕ) : n < rootStart n ^ 2 := by
  calc n < 2 ^ (n.log2 + 1) := Nat.lt_log2_self
    _ ≤ 2 ^ ((n.log2 + 2) / 2 * 2) := Nat.pow_le_pow_right Nat.two_pos (by omega)
    _ = rootStart n ^ 2 := pow_mul _ _ _

theorem isqrt_bounds (n : ℕ) : isqrt n ^ 2 ≤ n ∧ n < (isqrt n + 1) ^ 2 := by
  unfold isqrt
  split
  · next hn => simp [hn]
  · next hn =>
    have hstart : n < (rootStart n + 1) ^ 2 :=
      (lt_rootStart_sq n).trans (Nat.pow_lt_pow_left (Nat.lt_succ_self _) two_ne_zero)
    exact descend_bounds (rootStart_pos n) (Nat.pos_of_ne_zero hn) hstart

theorem isqrt_eq_sqrt (n : ℕ) : isqrt n = n.sqrt := Nat.eq_sqrt'.mpr (isqrt_bounds n)

theorem exists_descent_isqrt (hn : n ≠ 0) : ∃ k, Descent n (rootStart n) k (isqrt n) := by
  rw [isqrt, if_neg hn]
  exact exists_descent (Nat.pos_of_ne_zero hn) (rootStart_pos n)

section Grid

variable {x z r s : ℤ}

theorem sqrt?_of_nonneg (hx : 0 ≤ x) : sqrt? x = some (isqrt (x * one).toNat) :=
  if_neg (not_lt.mpr hx)

theorem toNat_mul_one (hx : 0 ≤ x) : ((x * one).toNat : ℤ) = x * one :=
  Int.toNat_of_nonneg (mul_nonneg hx one_pos.le)

theorem isGreatest_isqrt (hx : 0 ≤ x) :
    IsGreatest {s : ℤ | s ^ 2 ≤ x * one} (isqrt (x * one).toNat) := by
  obtain ⟨hlow, hhigh⟩ := isqrt_bounds (x * one).toNat
  zify [toNat_mul_one hx] at hlow hhigh
  refine ⟨hlow, fun s hs => ?_⟩
  have hlt : s ^ 2 < ((isqrt (x * one).toNat : ℤ) + 1) ^ 2 := hs.trans_lt hhigh
  have hroot := lt_of_pow_lt_pow_left₀ 2 (by positivity) hlt
  omega

theorem isqrt_eq_floor (hx : 0 ≤ x) :
    (isqrt (x * one).toNat : ℤ) = ⌊√(toRat x : ℝ) * one⌋ := by
  have hone : (0 : ℝ) < one := by exact_mod_cast one_pos
  have hproduct : √(toRat x : ℝ) * one = √((x * one).toNat : ℝ) := by
    have hcast : ((x * one).toNat : ℝ) = toRat x * one * one := by
      have hmul : ((x * one : ℤ) : ℝ) = toRat x * one * one := by
        rw [← Rat.cast_intCast one, ← Rat.cast_mul, toRat_mul_one]
        push_cast
        rfl
      rw [← hmul]
      exact_mod_cast toNat_mul_one hx
    rw [hcast, mul_assoc, Real.sqrt_mul' _ (mul_self_nonneg _), Real.sqrt_mul_self hone.le]
  rw [hproduct, Real.floor_real_sqrt_eq_nat_sqrt, isqrt_eq_sqrt]

theorem sqrt_mono (hxz : x ≤ z) (hr : sqrt? x = some r) (hs : sqrt? z = some s) : r ≤ s := by
  have hx : 0 ≤ x := by
    by_contra hneg
    rw [sqrt?, if_pos (not_le.mp hneg)] at hr
    cases hr
  obtain rfl := Option.some.inj ((sqrt?_of_nonneg hx).symm.trans hr)
  obtain rfl := Option.some.inj ((sqrt?_of_nonneg (hx.trans hxz)).symm.trans hs)
  refine (isGreatest_isqrt (hx.trans hxz)).2 ?_
  exact (isGreatest_isqrt hx).1.trans (mul_le_mul_of_nonneg_right hxz one_pos.le)

theorem onFinite_sqrt_of_nonneg (hx : 0 ≤ x) :
    Unary.sqrt.onFinite x = .ok (.finite (isqrt (x * one).toNat)) := by
  rw [Unary.onFinite, sqrt?_of_nonneg hx]
  rfl

theorem onFinite_sqrt_eq_error_iff : Unary.sqrt.onFinite x = .error .notReal ↔ x < 0 := by
  rcases lt_or_ge x 0 with hneg | hnonneg
  · rw [Unary.onFinite, sqrt?, if_pos hneg]
    exact iff_of_true rfl hneg
  · rw [onFinite_sqrt_of_nonneg hnonneg]
    exact iff_of_false nofun (not_lt.mpr hnonneg)

end Grid

/-- The iteration stops, without a division by zero on its way, at the largest number whose square
is not above `n`. The square root of a decimal from 0 on is the largest decimal whose square is not
above it, the true root cut off behind its last place; it does not decrease, and exactly the
negative decimals have none. -/
theorem sqrt_exact :
    (∀ n : ℕ, n ≠ 0 → ∃ k, Descent n (rootStart n) k (isqrt n)) ∧
    (∀ n : ℕ, isqrt n ^ 2 ≤ n ∧ n < (isqrt n + 1) ^ 2) ∧
    (∀ x : ℤ, 0 ≤ x → ∃ r, Unary.sqrt.onFinite x = .ok (.finite r) ∧ sqrt? x = some r ∧
      IsGreatest {s : ℤ | s ^ 2 ≤ x * one} r ∧ r = ⌊√(toRat x : ℝ) * one⌋) ∧
    (∀ x z r s : ℤ, x ≤ z → sqrt? x = some r → sqrt? z = some s → r ≤ s) ∧
    ∀ x : ℤ, Unary.sqrt.onFinite x = .error .notReal ↔ x < 0 := by
  refine ⟨fun n hn => exists_descent_isqrt hn, isqrt_bounds, fun x hx => ?_,
    fun x z r s => sqrt_mono, fun x => onFinite_sqrt_eq_error_iff⟩
  exact ⟨_, onFinite_sqrt_of_nonneg hx, sqrt?_of_nonneg hx, isGreatest_isqrt hx, isqrt_eq_floor hx⟩

theorem sqrt_exact_ten :
    (10 ≠ 0 ∧ ∃ k, Descent 10 (rootStart 10) k (isqrt 10)) ∧
    (0 ≤ ofInt 2 ∧ ∃ r, Unary.sqrt.onFinite (ofInt 2) = .ok (.finite r) ∧
      IsGreatest {s : ℤ | s ^ 2 ≤ ofInt 2 * one} r) ∧
    one.tdiv 4 ≤ ofInt 2 ∧ sqrt? (one.tdiv 4) = some (one.tdiv 2) ∧
      ∃ s, sqrt? (ofInt 2) = some s ∧ one.tdiv 2 ≤ s := by
  obtain ⟨hrun, -, hroot, hmono, -⟩ := sqrt_exact
  have hquarter : one.tdiv 4 ≤ ofInt 2 := by decide
  have hhalf : sqrt? (one.tdiv 4) = some (one.tdiv 2) := by decide +kernel
  obtain ⟨r, hfinite, hr, hgreatest, -⟩ := hroot (ofInt 2) (by decide)
  exact ⟨⟨by decide, hrun 10 (by decide)⟩, ⟨by decide, r, hfinite, hgreatest⟩, hquarter, hhalf,
    r, hr, hmono _ _ _ _ hquarter hhalf hr⟩

end Reckoner.Decimal
