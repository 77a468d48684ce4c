import Mathlib.Tactic
import Reckoner.Decimal.Scale

set_option autoImplicit false

namespace Reckoner.Decimal

theorem foldl_digits (n : Nat) (ds : List Char) :
    ds.foldl (fun m d => 10 * m + digitValue d) n = n * 10 ^ ds.length + digitsValue ds := by
  unfold digitsValue
  induction ds generalizing n with
  | nil => simp
  | cons d ds ih =>
    rw [List.foldl_cons, List.foldl_cons, ih, ih (10 * 0 + _), List.length_cons]
    ring

theorem digitsValue_append (ds fs : List Char) :
    digitsValue (ds ++ fs) = digitsValue ds * 10 ^ fs.length + digitsValue fs := by
  rw [digitsValue, List.foldl_append, foldl_digits]
  rfl

theorem digitsValue_lt {ds : List Char} (h : ∀ d ∈ ds, d.isDigit = true) :
    digitsValue ds < 10 ^ ds.length := by
  induction ds with
  | nil => exact Nat.one_pos
  | cons d ds ih =>
    have hd : digitValue d ≤ 9 := by
      have hdigit := h d List.mem_cons_self
      simp only [Char.isDigit, Bool.and_eq_true, decide_eq_true_eq] at hdigit
      have hle : d.toNat ≤ 57 := hdigit.2
      rw [digitValue]
      omega
    have hds := ih fun e he => h e (List.mem_cons_of_mem d he)
    rw [digitsValue, List.foldl_cons, foldl_digits, mul_zero, zero_add, List.length_cons, pow_succ]
    have hscaled := Nat.mul_le_mul_right (10 ^ ds.length) hd
    omega

theorem digitsValue_toDigits (n : Nat) : digitsValue (Nat.toDigits 10 n) = n := by
  induction n using Nat.strong_induction_on with
  | _ n ih =>
    have hlast (d : Nat) (hd : d < 10) : digitsValue [d.digitChar] = d := by
      interval_cases d <;> rfl
    by_cases hn : n < 10
    · rw [Nat.toDigits_of_lt_base hn, hlast n hn]
    · rw [Nat.toDigits_of_base_le (by norm_num) (not_lt.mp hn), digitsValue_append,
        ih (n / 10) (by omega), hlast (n % 10) (by omega), List.length_singleton]
      omega

theorem digitsValue_replicate_zero (n : Nat) : digitsValue (List.replicate n '0') = 0 := by
  induction n with
  | zero => rfl
  | succ n ih =>
    rw [List.replicate_succ', digitsValue_append, ih, Nat.zero_mul]
    rfl

end Reckoner.Decimal
