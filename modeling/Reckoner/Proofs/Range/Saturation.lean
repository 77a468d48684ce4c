import Reckoner.Proofs.Exact.Evaluation
import Reckoner.Proofs.Range.Literal
import Reckoner.Proofs.Range.Operations

set_option autoImplicit false

namespace Reckoner

open Decimal

variable {b x : Int} {v : Number} {stack stack' : List Number} {p : Program} {i : Instr}

namespace Decimal

def rangeEnd : Int := twoPow bitLimit - 1

def wholeEnd : Int := (twoPow bitLimit / one + 1) * one

theorem twoPow_eq (k : Nat) : twoPow k = ((2 ^ k : ℕ) : ℤ) := rfl

theorem abs_le_rangeEnd_iff : |x| ≤ rangeEnd ↔ bitLength x ≤ bitLimit := by
  rw [bitLength_le_iff, rangeEnd, twoPow_eq, Int.abs_eq_natAbs, Int.le_sub_one_iff]
  exact Int.ofNat_lt

theorem cap_rangeEnd : Cap rangeEnd := by
  refine ⟨fun x hx => abs_le_rangeEnd_iff.mpr (bitLength_le_iff.mpr hx), ?_⟩
  have hpos : 0 ≤ rangeEnd := Int.sub_nonneg.mpr (one_le_twoPow _)
  exact (abs_le_rangeEnd_iff.mp (abs_of_nonneg hpos).le).trans (Nat.le_succ _)

theorem wholeEnd_bounds : twoPow bitLimit ≤ wholeEnd ∧ wholeEnd ≤ twoPow bitLimit + one := by
  have hle := Int.ediv_mul_le (twoPow bitLimit) one_pos.ne'
  have hlt := Int.lt_ediv_add_one_mul_self (twoPow bitLimit) one_pos
  rw [wholeEnd]
  exact ⟨hlt.le, by rw [add_mul, one_mul]; omega⟩

theorem cap_wholeEnd : Cap wholeEnd := by
  obtain ⟨hlow, hhigh⟩ := wholeEnd_bounds
  refine ⟨fun x hx => ?_, bitLength_le_iff.mpr ?_⟩
  · have hx' := abs_le_rangeEnd_iff.mpr (bitLength_le_iff.mpr hx)
    rw [rangeEnd] at hx'
    omega
  · have hone : one < twoPow bitLimit := by decide +kernel
    rw [twoPow_eq] at hlow hhigh hone
    rw [pow_succ]
    omega

end Decimal

namespace Instr

/-- Whether the instruction can put a given value on a stack. -/
def Yields (stack : List Number) (v : Number) : Instr → Prop
  | .number x => v = .finite x
  | .constant c => v = c.value
  | .negate => ∃ a ∈ stack, v = a.neg
  | .binary op => ∃ a ∈ stack, ∃ b ∈ stack, op.apply a b = .ok v
  | .call f _ => ∃ args, (∀ a ∈ args, a ∈ stack) ∧ f.apply args = .ok v

/-- Whether the value is not compared with the range although it may lie beyond. -/
def unchecked : Instr → Bool
  | .number _ => true
  | .call f _ => f.rounds
  | .constant _ | .negate | .binary _ => false

theorem within_of_yields (hb : Cap b) (hnumber : ∀ x, i = .number x → |x| ≤ b)
    (hrounds : ∀ f n, i = .call f n → f.rounds = true → one ∣ b)
    (hstack : ∀ a ∈ stack, a.Within b) (h : i.Yields stack v) : v.Within b := by
  cases i with
  | number x =>
    rw [show v = .finite x from h]
    exact Number.within_finite_iff.mpr (hnumber x rfl)
  | constant c =>
    rw [show v = c.value from h]
    exact c.within_value hb
  | negate =>
    obtain ⟨a, ha, rfl⟩ := h
    exact Number.within_neg (hstack a ha)
  | binary op =>
    obtain ⟨a, -, c, -, happly⟩ := h
    exact Operator.within_apply hb happly
  | call f n =>
    obtain ⟨args, hargs, happly⟩ := h
    exact Function.within_apply hb (hrounds f n rfl) (fun a ha => hstack a (hargs a ha)) happly

end Instr

namespace Program

theorem yields_of_step (h : step stack i = .ok stack') :
    ∃ v, i.Yields stack v ∧ stack' = v :: stack.drop i.operands := by
  unfold step at h
  split at h
  · obtain rfl := Except.ok.inj h
    exact ⟨_, rfl, rfl⟩
  · obtain rfl := Except.ok.inj h
    exact ⟨_, rfl, rfl⟩
  · obtain rfl := Except.ok.inj h
    exact ⟨_, ⟨_, List.mem_cons_self, rfl⟩, rfl⟩
  · next op c a rest =>
    obtain ⟨v, hv, rfl⟩ := map_eq_ok_iff.mp h
    exact ⟨v, ⟨a, List.mem_cons_of_mem c List.mem_cons_self, c, List.mem_cons_self, hv⟩, rfl⟩
  · split at h
    · cases h
    · obtain ⟨v, hv, rfl⟩ := map_eq_ok_iff.mp h
      exact ⟨v, ⟨_, fun a ha => List.mem_of_mem_take (List.mem_reverse.mp ha), hv⟩, rfl⟩
  · cases h

/-- A stack at some time of the run. -/
def Reaches (p : Program) (stack : List Number) : Prop :=
  ∃ before after, p = before ++ after ∧ runFrom [] before = .ok stack

theorem runFrom_concat (s : List Number) (p : Program) (i : Instr) :
    runFrom s (p ++ [i]) = runFrom s p >>= fun t => step t i := by
  induction p generalizing s with
  | nil =>
    change (step s i >>= fun t => .ok t) = step s i
    cases step s i <;> rfl
  | cons j rest ih =>
    change (step s j >>= fun t => runFrom t (rest ++ [i])) =
      (step s j >>= fun t => runFrom t rest) >>= fun t => step t i
    cases step s j with
    | error e => rfl
    | ok t => exact ih t

theorem Reaches.induction {P : List Number → Prop} (hempty : P [])
    (hstep : ∀ before i after stack v, p = before ++ i :: after → i.Yields stack v →
      runFrom [] (before ++ [i]) = .ok (v :: stack.drop i.operands) → P stack →
      P (v :: stack.drop i.operands)) (h : p.Reaches stack) : P stack := by
  obtain ⟨before, after, hp, hrun⟩ := h
  induction before using List.reverseRecOn generalizing after stack with
  | nil =>
    obtain rfl := Except.ok.inj hrun
    exact hempty
  | append_singleton before i ih =>
    have hsplit : p = before ++ i :: after := by simpa using hp
    have hconcat := hrun
    rw [runFrom_concat] at hconcat
    obtain ⟨middle, hmiddle, hlast⟩ := bind_eq_ok_iff.mp hconcat
    obtain ⟨v, hyields, rfl⟩ := yields_of_step hlast
    exact hstep before i after middle v hsplit hyields hrun (ih (i :: after) hsplit hmiddle)

theorem forall_within_step (hv : v.Within b) (hstack : ∀ a ∈ stack, a.Within b) (k : Nat) :
    ∀ a ∈ v :: stack.drop k, a.Within b := by
  intro a ha
  rcases List.mem_cons.mp ha with rfl | ha
  · exact hv
  · exact hstack a (List.mem_of_mem_drop ha)

/-- The stack leaves the range at no time exactly when no literal and no rounding does. -/
theorem reaches_inRange_iff (p : Program) :
    (∀ stack, p.Reaches stack → ∀ x, .finite x ∈ stack → bitLength x ≤ bitLimit) ↔
      ∀ before i after x stack, p = before ++ i :: after → i.unchecked = true →
        runFrom [] (before ++ [i]) = .ok (.finite x :: stack) → bitLength x ≤ bitLimit := by
  constructor
  · intro h before i after x stack hp _ hrun
    exact h _ ⟨before ++ [i], after, by simpa using hp, hrun⟩ x List.mem_cons_self
  · intro h stack hreach
    suffices hwithin : ∀ a ∈ stack, a.Within rangeEnd from
      fun x hx => abs_le_rangeEnd_iff.mp (hwithin _ hx x rfl)
    refine Reaches.induction (P := fun s => ∀ a ∈ s, a.Within rangeEnd) nofun ?_ hreach
    intro before i after stack v hp hyields hrun hstack
    refine forall_within_step ?_ hstack _
    cases hi : i.unchecked with
    | true =>
      rintro x rfl
      exact abs_le_rangeEnd_iff.mpr (h before i after x _ hp hi hrun)
    | false =>
      refine Instr.within_of_yields cap_rangeEnd ?_ ?_ hstack hyields
      · rintro x rfl
        cases hi
      · rintro f n rfl hrounds
        rw [Instr.unchecked, hrounds] at hi
        cases hi

theorem within_wholeEnd (hnumbers : ∀ x, .number x ∈ p → bitLength x ≤ bitLimit)
    (hreach : p.Reaches stack) : ∀ a ∈ stack, a.Within wholeEnd := by
  refine hreach.induction (P := fun s => ∀ a ∈ s, a.Within wholeEnd) nofun ?_
  intro before i after stack v hp hyields _ hstack
  refine forall_within_step (Instr.within_of_yields cap_wholeEnd ?_ ?_ hstack hyields) hstack _
  · rintro x rfl
    have hmem : .number x ∈ p := by
      rw [hp]
      exact List.mem_append_right _ List.mem_cons_self
    exact cap_wholeEnd.inRange x (bitLength_le_iff.mp (hnumbers x hmem))
  · exact fun _ _ _ _ => ⟨_, mul_comm _ _⟩

end Program

/-- Every finite value that is ever on the stack has at most `bitLimit` binary digits, exactly when
the literals and the results of `ceil`, `floor` and `round` have. While no more than 10000 characters
are allowed, literals have, and no value is beyond the range by more than the number 1. -/
theorem Evaluator.saturation (ev : Evaluator) (expression normal : String) (tokens : List Token)
    (program : Program) (hnormal : ev.normalize expression = .ok normal)
    (hcompile : Evaluator.compile normal = .ok (tokens, program)) :
    ((∀ stack, program.Reaches stack → ∀ x, .finite x ∈ stack → bitLength x ≤ bitLimit) ↔
        ∀ before i after x stack, program = before ++ i :: after → i.unchecked = true →
          Program.runFrom [] (before ++ [i]) = .ok (.finite x :: stack) →
          bitLength x ≤ bitLimit) ∧
      (ev.maxLength ≤ 10000 → (∀ x, .number x ∈ program → bitLength x ≤ bitLimit) ∧
        ∀ stack, program.Reaches stack → ∀ x, .finite x ∈ stack →
          |x| ≤ twoPow bitLimit + one ∧ bitLength x ≤ bitLimit + 1) := by
  refine ⟨program.reaches_inRange_iff, fun hlimit => ?_⟩
  have hnumbers : ∀ x, .number x ∈ program → bitLength x ≤ bitLimit :=
    fun x hx => Evaluator.bitLength_number_le hlimit hnormal hcompile hx
  refine ⟨hnumbers, fun stack hreach x hx => ?_⟩
  have hwithin := Program.within_wholeEnd hnumbers hreach _ hx x rfl
  exact ⟨hwithin.trans wholeEnd_bounds.2, cap_wholeEnd.bitLength_le hwithin⟩

theorem inRange_twoPow {k : Nat} (h : k < bitLimit) : InRange (twoPow k) :=
  inRange_of_abs_le h (abs_of_pos (zero_lt_one.trans_le (one_le_twoPow k))).le

theorem inRange_twoPow_mul_one {k : Nat} (h : k + 1 + 213 < bitLimit) :
    InRange (twoPow k * one) := by
  have hone : one.natAbs < 2 ^ 213 := by decide
  have hpow : (twoPow k).natAbs < 2 ^ (k + 1) := Nat.pow_lt_pow_right one_lt_two k.lt_succ_self
  have hlimit : 2 ^ (k + 1 + 213) < 2 ^ bitLimit := Nat.pow_lt_pow_right one_lt_two h
  exact (natAbs_mul_lt hpow hone).trans hlimit

theorem toRat_twoPow_mul_one (k : Nat) : toRat (twoPow k * one) = 2 ^ k := by
  rw [toRat_ofInt, twoPow_eq]
  push_cast
  rfl

theorem toRat_twoPow (k : Nat) : toRat (twoPow k) = 2 ^ k / one := by
  rw [toRat, twoPow_eq]
  push_cast
  rfl

namespace Operator

theorem apply_two_power {k : Nat} (h : k + 1 + 213 < bitLimit) :
    power.apply (.finite (2 * one)) (.finite (k * one)) = .ok (.finite (twoPow k * one)) := by
  refine apply_exact ?_ (inRange_twoPow_mul_one h)
  have hk : toRat (k * one) = k := toRat_ofInt k
  have htwo : toRat (2 * one) = 2 := toRat_ofInt 2
  rw [onRationals?, hk, htwo, toRat_twoPow_mul_one, exactPower?, if_pos ⟨Rat.den_natCast k, by positivity⟩,
    Rat.num_natCast, Int.toNat_natCast]

theorem apply_divide_five {k : Nat} (h : k + 64 < bitLimit) :
    divide.apply (.finite (twoPow k * one)) (.finite (5 ^ 64 * one)) =
      .ok (.finite (twoPow (k + 64))) := by
  refine apply_exact ?_ (inRange_twoPow h)
  have hfive : toRat (5 ^ 64 * one) = 5 ^ 64 := by
    rw [toRat_ofInt]
    norm_num
  have hone : (one : ℚ) = 2 ^ 64 * 5 ^ 64 := by
    rw [one, cast_tenPow (by decide)]
    norm_num [places]
  rw [onRationals?, hfive, if_neg (by positivity), toRat_twoPow_mul_one, toRat_twoPow, hone, pow_add]
  congr 1
  field_simp

theorem apply_times_two {j k : Nat} (h : j + k < bitLimit) :
    times.apply (.finite (twoPow j)) (.finite (twoPow k * one)) =
      .ok (.finite (twoPow (j + k))) := by
  refine apply_exact ?_ (inRange_twoPow h)
  rw [onRationals?, toRat_twoPow, toRat_twoPow_mul_one, toRat_twoPow, pow_add, div_mul_eq_mul_div]

end Operator

namespace Program

theorem runFrom_number (x : Int) (s : List Number) (p : Program) :
    runFrom s (.number x :: p) = runFrom (.finite x :: s) p := rfl

theorem runFrom_binary {op : Operator} {a c : Number} (h : op.apply a c = .ok v)
    (s : List Number) (p : Program) :
    runFrom (c :: a :: s) (.binary op :: p) = runFrom (v :: s) p := by
  change (op.apply a c).map (· :: s) >>= (fun t => runFrom t p) = _
  rw [h]
  rfl

/-- The program of `a^b/c^d*a^e`. -/
def scaledPower (a b c d e : Int) : Program :=
  [.number a, .number b, .binary .power, .number c, .number d, .binary .power, .binary .divide,
    .number a, .number e, .binary .power, .binary .times]

theorem runFrom_scaledPower {a b c d e power divisor ratio factor value : Int}
    (hpower : Operator.power.apply (.finite a) (.finite b) = .ok (.finite power))
    (hdivisor : Operator.power.apply (.finite c) (.finite d) = .ok (.finite divisor))
    (hratio : Operator.divide.apply (.finite power) (.finite divisor) = .ok (.finite ratio))
    (hfactor : Operator.power.apply (.finite a) (.finite e) = .ok (.finite factor))
    (hvalue : Operator.times.apply (.finite ratio) (.finite factor) = .ok (.finite value))
    (s : List Number) (p : Program) :
    runFrom s (scaledPower a b c d e ++ p) = runFrom (.finite value :: s) p := by
  simp only [scaledPower, List.cons_append, List.nil_append, runFrom_number,
    runFrom_binary hpower, runFrom_binary hdivisor, runFrom_binary hratio,
    runFrom_binary hfactor, runFrom_binary hvalue]

def halfway (j k : Nat) : Program :=
  scaledPower (2 * one) (k * one) (5 * one) (64 * one) (j * one)

theorem runFrom_halfway {j k : Nat} (hk : k + 1 + 213 < bitLimit) (hj : j + 1 + 213 < bitLimit)
    (h : k + 64 + j < bitLimit) (s : List Number) (p : Program) :
    runFrom s (halfway j k ++ p) = runFrom (.finite (twoPow (k + 64 + j)) :: s) p := by
  have hfive : Operator.power.apply (.finite (5 * one)) (.finite (64 * one)) =
      .ok (.finite (5 ^ 64 * one)) := by decide +kernel
  have hratio : k + 64 < bitLimit := by omega
  exact runFrom_scaledPower (Operator.apply_two_power hk) hfive
    (Operator.apply_divide_five hratio) (Operator.apply_two_power hj)
    (Operator.apply_times_two h) s p

/-- The program of `0*ceil(x+(x-10^-64))` up to its product, where `x` is `2^k/5^64*2^j`. -/
def roundedUp (j k : Nat) : Program :=
  .number 0 :: (halfway j k ++ (halfway j k ++ [.number (10 * one), .number (64 * one), .negate,
    .binary .power, .binary .minus, .binary .plus, .call (.unary .ceil) 1]))

theorem inRange_rangeEnd : InRange rangeEnd :=
  bitLength_le_iff.mp (abs_le_rangeEnd_iff.mp
    (abs_of_nonneg (Int.sub_nonneg.mpr (one_le_twoPow _))).le)

theorem sub_unit {k : Nat} (h : k < bitLimit) :
    Operator.minus.apply (.finite (twoPow k)) (.finite 1) = .ok (.finite (twoPow k - 1)) := by
  have hone := one_le_twoPow k
  have hinRange : InRange (twoPow k - 1) := by
    refine inRange_of_abs_le h ?_
    rw [abs_of_nonneg (by omega)]
    omega
  change Except.ok (Number.saturate (twoPow k - 1)) = _
  rw [saturate_of_inRange hinRange]

theorem add_halves {k : Nat} (h : k + 1 = bitLimit) :
    Operator.plus.apply (.finite (twoPow k)) (.finite (twoPow k - 1)) =
      .ok (.finite rangeEnd) := by
  have hsum : twoPow k + (twoPow k - 1) = rangeEnd := by
    rw [rangeEnd, ← h, twoPow_eq, twoPow_eq, pow_succ]
    push_cast
    ring
  change Except.ok (Number.saturate (twoPow k + (twoPow k - 1))) = _
  rw [hsum, saturate_of_inRange inRange_rangeEnd]

theorem runFrom_roundedUp {j k : Nat} (hk : k + 1 + 213 < bitLimit) (hj : j + 1 + 213 < bitLimit)
    (h : k + 64 + j + 1 = bitLimit) :
    runFrom [] (roundedUp j k) = .ok [.finite wholeEnd, .finite 0] := by
  have hunit : Operator.power.apply (.finite (10 * one)) (.finite (-(64 * one))) =
      .ok (.finite 1) := by decide +kernel
  have hceil : ceil rangeEnd = wholeEnd := by decide +kernel
  have hhalf : k + 64 + j < bitLimit := by omega
  rw [roundedUp, runFrom_number, runFrom_halfway hk hj hhalf, runFrom_halfway hk hj hhalf,
    runFrom_number, runFrom_number]
  change runFrom (.finite (-(64 * one)) :: .finite (10 * one) :: _) _ = _
  rw [runFrom_binary hunit, runFrom_binary (sub_unit hhalf), runFrom_binary (add_halves h)]
  change Except.ok [Number.finite (ceil rangeEnd), _] = _
  rw [hceil]

end Program

namespace Evaluator

def roundedUpText : String := "0*ceil(2^33000/5^64*2^367+(2^33000/5^64*2^367-10^-64))"

def roundedUpProgram : Program := Program.roundedUp 367 33000 ++ [.binary .times]

theorem compile_roundedUpText : normalize {} roundedUpText = .ok roundedUpText ∧
    ∃ tokens, compile roundedUpText = .ok (tokens, roundedUpProgram) := by
  have hcompile : (compile roundedUpText).map Prod.snd = .ok roundedUpProgram := by
    decide +kernel
  obtain ⟨⟨tokens, program⟩, hcompile, rfl⟩ := map_eq_ok_iff.mp hcompile
  exact ⟨by decide +kernel, tokens, hcompile⟩

theorem reaches_roundedUp : roundedUpProgram.Reaches [.finite wholeEnd, .finite 0] :=
  ⟨_, _, rfl, Program.runFrom_roundedUp (by decide) (by decide) (by decide)⟩

theorem mem_roundedUp : Number.finite wholeEnd ∈ [Number.finite wholeEnd, .finite 0] :=
  List.mem_cons_self

/-- Rounding up puts a finite value beyond the range on the stack. -/
theorem exists_beyond_range : ∃ tokens program stack x,
    normalize {} roundedUpText = .ok roundedUpText ∧
      compile roundedUpText = .ok (tokens, program) ∧ program.Reaches stack ∧
      .finite x ∈ stack ∧ bitLimit < bitLength x := by
  obtain ⟨hnormal, tokens, hcompile⟩ := compile_roundedUpText
  refine ⟨tokens, _, _, wholeEnd, hnormal, hcompile, reaches_roundedUp, mem_roundedUp, ?_⟩
  by_contra hle
  have habs := abs_le_rangeEnd_iff.mpr (not_lt.mp hle)
  have hlow := wholeEnd_bounds.1
  rw [rangeEnd] at habs
  have := le_abs_self wholeEnd
  omega

theorem saturation_roundedUpText : ∃ tokens program stack,
    compile roundedUpText = .ok (tokens, program) ∧ program.Reaches stack ∧
      .finite wholeEnd ∈ stack ∧ bitLength wholeEnd ≤ bitLimit + 1 := by
  obtain ⟨hnormal, tokens, hcompile⟩ := compile_roundedUpText
  exact ⟨tokens, _, _, hcompile, reaches_roundedUp, mem_roundedUp,
    (((saturation {} _ _ _ _ hnormal hcompile).2 (by decide)).2 _ reaches_roundedUp _
      mem_roundedUp).2⟩

end Evaluator

end Reckoner
