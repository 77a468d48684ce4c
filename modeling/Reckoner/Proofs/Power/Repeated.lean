import Reckoner.Proofs.Power.Logarithm

set_option autoImplicit false

namespace Reckoner

namespace Number

/-- `1 · a · … · a` with so many factors `a`, from left to right. -/
def repeated (a : Number) : ℕ → Number
  | 0 => .one
  | n + 1 => (repeated a n).mul a

def signed (negative : Bool) (v : Number) : Number := if negative then v.neg else v

open Decimal

variable {x : ℤ}

theorem signed_zero (negative : Bool) : signed negative zero = zero := by
  cases negative <;> rfl

theorem signed_posInf (negative : Bool) : signed negative .posInf = infinity negative := by
  cases negative <;> rfl

theorem saturate_of_not_inRange (h : ¬InRange x) : saturate x = infinity (x < 0) :=
  if_pos (Nat.lt_of_not_le (mt bitLength_le_iff.mp h))

theorem saturate_eq_posInf (h : ¬InRange x) (hx : 0 ≤ x) : saturate x = .posInf := by
  rw [saturate_of_not_inRange h, decide_eq_false (not_lt.mpr hx)]
  rfl

theorem infinity_neg (hx : x ≠ 0) : infinity (-x < 0) = (infinity (x < 0)).neg := by
  rcases lt_or_gt_of_ne hx with hneg | hpos
  · rw [decide_eq_true hneg, decide_eq_false (by omega)]
    rfl
  · rw [decide_eq_true (by omega), decide_eq_false (by omega)]
    rfl

theorem saturate_neg (x : ℤ) : saturate (-x) = (saturate x).neg := by
  by_cases h : InRange x
  · rw [saturate_of_inRange h, saturate_of_inRange (inRange_neg_iff.mpr h)]
    rfl
  · have hne : x ≠ 0 := by
      rintro rfl
      exact h (Nat.two_pow_pos _)
    rw [saturate_of_not_inRange h, saturate_of_not_inRange (mt inRange_neg_iff.mp h),
      infinity_neg hne]

theorem signed_saturate (negative : Bool) (x : ℤ) :
    signed negative (saturate x) = saturate (if negative then -x else x) := by
  cases negative with
  | false => rfl
  | true => exact (saturate_neg x).symm

theorem infinity_mul (negative : Bool) (y : ℤ) :
    (infinity negative).mul (.finite y) =
      signedInfinity ((infinity negative).sign * y.sign) := by
  cases negative <;> rfl

theorem sign_infinity (hx : x ≠ 0) : (infinity (x < 0)).sign = x.sign := by
  rcases lt_or_gt_of_ne hx with hneg | hpos
  · rw [decide_eq_true hneg, Int.sign_eq_neg_one_of_neg hneg]
    rfl
  · rw [decide_eq_false (by omega), Int.sign_eq_one_of_pos hpos]
    rfl

theorem signedInfinity_sign (hx : x ≠ 0) : signedInfinity x.sign = infinity (x < 0) := by
  rw [signedInfinity, if_neg (mt Int.sign_eq_zero_iff_zero.mp hx)]
  simp only [Int.sign_neg_iff]

end Number

namespace Decimal

open Number

variable {n : ℕ}

theorem whole_nonneg (c : ℕ) : 0 ≤ (c : ℤ) * one :=
  mul_nonneg (Int.natCast_nonneg c) Decimal.one_pos.le

theorem whole_pos {c : ℕ} (hc : 0 < c) : 0 < (c : ℤ) * one :=
  mul_pos (Int.natCast_pos.mpr hc) Decimal.one_pos

theorem product_whole (a b : ℤ) : product (a * one) (b * one) = a * b * one := by
  rw [product, show a * one * (b * one) = a * b * one * one by ring,
    Int.mul_tdiv_cancel _ Decimal.one_pos.ne']

theorem natAbs_pow_mul_one (k : ℤ) (n : ℕ) :
    (k ^ n * one).natAbs = k.natAbs ^ n * one.natAbs := by
  rw [Int.natAbs_mul, Int.natAbs_pow]

theorem not_inRange_succ {k : ℤ} (hk : k ≠ 0) (h : ¬InRange (k ^ n * one)) :
    ¬InRange (k ^ (n + 1) * one) := by
  refine mt (inRange_of_le ?_) h
  rw [natAbs_pow_mul_one, natAbs_pow_mul_one]
  exact Nat.mul_le_mul_right _
    (Nat.pow_le_pow_right (Int.natAbs_pos.mpr hk) (Nat.le_succ n))

theorem saturate_mul_whole (k : ℤ) (n : ℕ) :
    (saturate (k ^ n * one)).mul (.finite (k * one)) = saturate (k ^ (n + 1) * one) := by
  by_cases h : InRange (k ^ n * one)
  · rw [saturate_of_inRange h, Number.mul, product_whole, ← pow_succ]
  have hk : k ≠ 0 := by
    rintro rfl
    cases n with
    | zero => exact h (by simpa using inRange_one)
    | succ n => exact h (by simp [InRange])
  have hone := Decimal.one_pos.ne'
  have hsign : (k ^ n * one).sign * (k * one).sign = (k ^ (n + 1) * one).sign := by
    simp only [pow_succ, Int.sign_mul, Int.sign_eq_one_of_pos Decimal.one_pos, mul_one]
  rw [saturate_of_not_inRange h, saturate_of_not_inRange (not_inRange_succ hk h), infinity_mul,
    sign_infinity (mul_ne_zero (pow_ne_zero n hk) hone), hsign,
    signedInfinity_sign (mul_ne_zero (pow_ne_zero (n + 1) hk) hone)]

theorem repeated_whole (k : ℤ) (n : ℕ) :
    Number.repeated (.finite (k * one)) n = saturate (k ^ n * one) := by
  induction n with
  | zero => rw [pow_zero, one_mul, saturate_of_inRange inRange_one]; rfl
  | succ n ih => rw [repeated, ih, saturate_mul_whole]

theorem raise_whole (a : ℤ) : raise (a * one) = a * fineOne := by
  rw [← raise_one, raise, raise, mul_assoc]

theorem fineProduct_natural (i j : ℕ) :
    fineProduct (i * fineOne) (j * fineOne) = (i * j : ℕ) * fineOne := by
  rw [fineProduct, show (i : ℤ) * fineOne * (j * fineOne) = i * j * fineOne * fineOne by ring,
    Int.mul_tdiv_cancel _ fineOne_pos.ne', Nat.cast_mul]

theorem fineOverflow_mono {i j : ℕ} (h : i ≤ j) (hi : fineOverflow (i * fineOne) = true) :
    fineOverflow (j * fineOne) = true := by
  have hbits : bitLength (i * fineOne) ≤ bitLength (j * fineOne) := by
    refine bitLength_mono ?_
    rw [Int.natAbs_mul, Int.natAbs_mul]
    exact Nat.mul_le_mul_right _ h
  exact decide_eq_true (lt_of_lt_of_le (of_decide_eq_true hi) hbits)

/-- A whole number is raised exactly, or some power on the way, and so the whole one, overflows. -/
theorem binaryPower_natural (m i j : ℕ) (hm : m ≠ 0) (hi : 0 < i) (hj : 0 < j) :
    binaryPower (i * fineOne) (j * fineOne) m = some ((i * j ^ m : ℕ) * fineOne) ∨
      binaryPower (i * fineOne) (j * fineOne) m = none ∧
        fineOverflow ((i * j ^ m : ℕ) * fineOne) = true := by
  induction m using Nat.strong_induction_on generalizing i j with
  | _ m ih =>
    have hacc : (if m % 2 = 1 then fineProduct (i * fineOne) (j * fineOne) else i * fineOne) =
        (i * j ^ (m % 2) : ℕ) * fineOne := by
      rcases Nat.mod_two_eq_zero_or_one m with heven | hodd
      · rw [if_neg (by omega), heven, pow_zero, mul_one]
      · rw [if_pos hodd, hodd, pow_one, fineProduct_natural]
    have hle : i * j ^ (m % 2) ≤ i * j ^ m :=
      Nat.mul_le_mul_left i (Nat.pow_le_pow_right hj (Nat.mod_le m 2))
    rw [binaryPower]
    simp only [hacc]
    rw [fineProduct_natural j j]
    split
    · next hover => exact .inr ⟨rfl, fineOverflow_mono hle hover.2⟩
    · split
      · next hlast =>
        have hone : m % 2 = m := by omega
        rw [hone]
        exact .inl rfl
      · next hmore =>
        have hsquare : j * j ≤ i * j ^ m := by
          calc j * j = j ^ 2 := (sq j).symm
            _ ≤ j ^ m := Nat.pow_le_pow_right hj (by omega)
            _ ≤ i * j ^ m := Nat.le_mul_of_pos_left _ hi
        split
        · next hover => exact .inr ⟨rfl, fineOverflow_mono hsquare hover⟩
        · have hsame : i * j ^ (m % 2) * (j * j) ^ (m / 2) = i * j ^ m := by
            rw [← sq, ← pow_mul, mul_assoc, ← pow_add, Nat.mod_add_div]
          rw [← hsame]
          exact ih (m / 2) (by omega) _ _ hmore (Nat.mul_pos hi (Nat.pow_pos hj))
            (Nat.mul_pos hj hj)

def wholeMagnitude (x n : ℤ) : Number :=
  if surelyInfinite x n then .posInf
  else
    let a := raise x.natAbs
    let small : Bool := n < 0 ∧ a < fineOne
    let base := if small then (fineOne * fineOne).tdiv a else a
    let invert : Bool := n < 0 ∧ ¬small
    match binaryPower fineOne base n.natAbs with
    | some p => saturate (lower (if invert then (fineOne * fineOne).tdiv p else p))
    | none => if invert then .zero else .posInf

theorem wholePower_eq_signed {x n : ℤ} (hx : x ≠ 0) (hn : n ≠ 0) :
    wholePower x n = signed (decide (x < 0 ∧ n.tmod 2 ≠ 0)) (wholeMagnitude x n) := by
  unfold wholePower wholeMagnitude
  simp only [if_neg hn, if_neg hx]
  generalize decide (x < 0 ∧ n.tmod 2 ≠ 0) = negative
  split
  · exact (signed_posInf negative).symm
  · cases binaryPower _ _ _ with
    | some p => exact (signed_saturate negative _).symm
    | none =>
      simp only
      split
      · exact (signed_zero negative).symm
      · exact (signed_posInf negative).symm

theorem wholeMagnitude_of_nonneg {n : ℤ} (hn : 0 ≤ n) (x : ℤ) :
    wholeMagnitude x n = if surelyInfinite x n then .posInf
      else (binaryPower fineOne (raise x.natAbs) n.natAbs).elim .posInf
        fun p => saturate (lower p) := by
  rw [wholeMagnitude]
  simp only [not_lt.mpr hn, false_and, decide_false, Bool.false_eq_true, if_false]
  cases binaryPower _ _ _ <;> rfl

theorem lower_tdiv {a b : ℤ} (ha : 0 ≤ a) (hb : 0 ≤ b) :
    lower ((a * guardFactor).tdiv b) = a.tdiv b := by
  have hguard := guardFactor_pos
  have hfine : 0 ≤ a * guardFactor := mul_nonneg ha hguard.le
  rw [lower, Int.tdiv_eq_ediv_of_nonneg hfine,
    Int.tdiv_eq_ediv_of_nonneg (Int.ediv_nonneg hfine hb), Int.ediv_ediv_of_nonneg hb,
    Int.mul_ediv_mul_of_pos_left _ _ hguard, Int.tdiv_eq_ediv_of_nonneg ha]

theorem lower_inverse {b : ℤ} (hb : 0 ≤ b) :
    lower ((fineOne * fineOne).tdiv (raise b)) = quotient one b := by
  have hsplit : fineOne * fineOne = one * one * guardFactor * guardFactor := by decide
  rw [hsplit, raise, Int.mul_tdiv_mul_of_pos_left _ _ guardFactor_pos, lower_tdiv (by decide) hb,
    quotient]

theorem lower_square {a : ℤ} (ha : 0 ≤ a) :
    lower (fineProduct (raise a) (raise a)) = product a a := by
  have hsplit : raise a * raise a = a * a * guardFactor * guardFactor := by
    rw [raise]
    ring
  have hone : fineOne = one * guardFactor := by decide
  rw [fineProduct, hsplit, hone, Int.mul_tdiv_mul_of_pos_left _ _ guardFactor_pos,
    lower_tdiv (mul_nonneg ha ha) Decimal.one_pos.le, product]

theorem binaryPower_one {b : ℤ} (h : fineOverflow b = false) :
    binaryPower fineOne b 1 = some b := by
  have hb : fineProduct fineOne b = b := Int.mul_tdiv_cancel_left b fineOne_pos.ne'
  rw [binaryPower]
  simp [hb, h]

section Whole

variable {m : ℕ}

theorem lower_whole (c : ℕ) : lower (c * fineOne) = c * one := by
  rw [← raise_whole, lower_raise]

theorem fineOverflow_natural {c : ℕ} (h : fineOverflow (c * fineOne) = true) :
    ¬InRange (c * one) := by
  intro hrange
  rw [← lower_whole] at hrange
  rw [fineOverflow_of_lower hrange] at h
  cases h

theorem binaryPower_whole (k : ℕ) (hk : 0 < k) (hm : m ≠ 0) :
    binaryPower fineOne (k * fineOne) m = some ((k ^ m : ℕ) * fineOne) ∨
      binaryPower fineOne (k * fineOne) m = none ∧ ¬InRange ((k ^ m : ℕ) * one) := by
  have h := binaryPower_natural m 1 k hm Nat.one_pos hk
  rw [Nat.cast_one, one_mul, one_mul] at h
  exact h.imp_right fun ⟨hnone, hover⟩ => ⟨hnone, fineOverflow_natural hover⟩

theorem raise_natAbs_whole (k : ℤ) : raise (k * one).natAbs = k.natAbs * fineOne := by
  have hmagnitude : ((k * one).natAbs : ℤ) = k.natAbs * one := by
    rw [Int.natAbs_mul, Nat.cast_mul]
    rfl
  rw [hmagnitude, raise_whole]

theorem not_inRange_of_surelyInfinite {k : ℤ} (hm : m ≠ 0)
    (h : surelyInfinite (k * one) m = true) : ¬InRange ((k.natAbs ^ m : ℕ) * one) := by
  intro hrange
  have hbase : toRat (k * one).natAbs = (k.natAbs : ℤ) := by
    rw [Int.natAbs_mul, Nat.cast_mul]
    exact toRat_ofInt k.natAbs
  have hpower : toRat (k * one).natAbs ^ m = toRat ((k.natAbs ^ m : ℕ) * one) := by
    rw [hbase, toRat_ofInt]
    push_cast
    rfl
  rw [surelyInfinite_eq_false hm hpower hrange] at h
  cases h

theorem wholeMagnitude_natural {k : ℤ} (hk : k ≠ 0) (hm : m ≠ 0) :
    wholeMagnitude (k * one) m = saturate ((k.natAbs ^ m : ℕ) * one) := by
  have hnonneg := whole_nonneg (k.natAbs ^ m)
  rw [wholeMagnitude_of_nonneg (Int.natCast_nonneg m), raise_natAbs_whole, Int.natAbs_natCast]
  split
  · next hsure => exact (saturate_eq_posInf (not_inRange_of_surelyInfinite hm hsure) hnonneg).symm
  · rcases binaryPower_whole k.natAbs (Int.natAbs_pos.mpr hk) hm with h | ⟨h, hover⟩
    · rw [h, Option.elim_some, lower_whole]
    · rw [h, Option.elim_none, saturate_eq_posInf hover hnonneg]

theorem surelyInfinite_negative {k : ℤ} (hk : k ≠ 0) : surelyInfinite (k * one) (-m) = false := by
  have hbits : 213 ≤ bitLength (k * one) := by
    rw [← bitLength_one]
    refine bitLength_mono ?_
    rw [Int.natAbs_mul]
    exact Nat.le_mul_of_pos_left _ (Int.natAbs_pos.mpr hk)
  have hneg : ¬0 < -(m : ℤ) := by omega
  rw [surelyInfinite, bitLength_one]
  simp only [if_neg hneg, decide_eq_false_iff_not]
  omega

theorem inRange_one_mul_one : InRange (one * one) :=
  inRange_of_natAbs_lt (natAbs_mul_lt one_lt_two_pow one_lt_two_pow) (by decide)

theorem inRange_quotient_one (b : ℤ) : InRange (quotient one b) := by
  refine inRange_of_le ?_ inRange_one_mul_one
  rw [quotient, Int.natAbs_tdiv]
  exact Nat.div_le_self _ _

theorem quotient_one_of_not_inRange {b : ℤ} (hb : 0 < b) (h : ¬InRange b) :
    quotient one b = 0 := by
  have hlarge : (one * one).natAbs < b.natAbs := inRange_one_mul_one.trans_le (not_lt.mp h)
  refine Int.tdiv_eq_zero_of_lt (by decide) ?_
  rw [← Int.natAbs_of_nonneg hb.le, ← Int.natAbs_of_nonneg (show 0 ≤ one * one by decide)]
  exact_mod_cast hlarge

theorem one_div_saturate {b : ℤ} (hb : 0 < b) :
    Number.one.div (saturate b) = saturate (quotient one b) := by
  by_cases h : InRange b
  · rw [saturate_of_inRange h, Number.one, Number.div, if_neg hb.ne']
  · rw [saturate_eq_posInf h hb.le, quotient_one_of_not_inRange hb h]
    rfl

theorem wholeMagnitude_negative {k : ℤ} (hk : k ≠ 0) (hm : m ≠ 0) :
    wholeMagnitude (k * one) (-m) =
      Number.one.div (saturate ((k.natAbs ^ m : ℕ) * one)) := by
  have hbase : 0 < k.natAbs := Int.natAbs_pos.mpr hk
  have hpos := whole_pos (Nat.pow_pos (n := m) hbase)
  have hneg : -(m : ℤ) < 0 := by omega
  have hlarge : ¬(k.natAbs : ℤ) * fineOne < fineOne := by
    rw [not_lt]
    exact le_mul_of_one_le_left fineOne_pos.le (by exact_mod_cast hbase)
  rw [wholeMagnitude, raise_natAbs_whole, surelyInfinite_negative hk, one_div_saturate hpos]
  simp only [hneg, hlarge, and_false, decide_false, Bool.false_eq_true, if_false, Int.natAbs_neg,
    Int.natAbs_natCast, not_false_eq_true, and_self, decide_true, if_true]
  rcases binaryPower_whole k.natAbs hbase hm with h | ⟨h, hover⟩
  · simp only [h]
    rw [← raise_whole ((k.natAbs ^ m : ℕ) : ℤ), lower_inverse hpos.le]
  · simp only [h, quotient_one_of_not_inRange hpos hover]
    rfl

end Whole

theorem not_inRange_product {x : ℤ} {e : ℕ} (hx : e < bitLength x) (he : bitLimit + 213 ≤ e + e) :
    ¬InRange (product x x) := by
  have hbase : 2 ^ e ≤ x.natAbs := two_pow_le_of_bitLength hx
  have hproduct : 2 ^ bitLimit * one.natAbs ≤ x.natAbs * x.natAbs :=
    calc 2 ^ bitLimit * one.natAbs ≤ 2 ^ bitLimit * 2 ^ 213 :=
          Nat.mul_le_mul_left _ one_lt_two_pow.le
      _ = 2 ^ (bitLimit + 213) := (pow_add _ _ _).symm
      _ ≤ 2 ^ (e + e) := Nat.pow_le_pow_right Nat.two_pos he
      _ = 2 ^ e * 2 ^ e := pow_add _ _ _
      _ ≤ x.natAbs * x.natAbs := Nat.mul_le_mul hbase hbase
  rw [InRange, not_lt, product, Int.natAbs_tdiv, Int.natAbs_mul]
  exact (Nat.le_div_iff_mul_le (by decide)).mpr hproduct

theorem not_inRange_square {x : ℤ} (h : surelyInfinite x 2 = true) : ¬InRange (product x x) := by
  have hpos : (0 : ℤ) < 2 := by norm_num
  simp only [surelyInfinite, hpos, if_true, decide_eq_true_eq, bitLength_one, logLimit,
    show (2 : ℤ).natAbs = 2 from rfl] at h
  have hbits : 16824 < bitLength x := by omega
  exact not_inRange_product hbits (by decide)

theorem binaryPower_two (a : ℤ) : binaryPower fineOne a 2 =
    if fineOverflow (fineProduct a a) then none else some (fineProduct a a) := by
  rw [binaryPower]
  simp only [show ¬2 % 2 = 1 by decide, show ¬2 / 2 = 0 by decide, false_and, if_false, dif_neg,
    not_false_eq_true]
  split
  · rfl
  · next h => exact binaryPower_one (Bool.not_eq_true _ ▸ h)

theorem wholeMagnitude_two (x : ℤ) : wholeMagnitude x 2 = saturate (product x x) := by
  have hsquare : lower (fineProduct (raise x.natAbs) (raise x.natAbs)) = product x x := by
    rw [lower_square (Int.natCast_nonneg _), product, ← Int.natCast_mul, Int.natAbs_mul_self,
      product]
  have hnonneg : 0 ≤ product x x := Int.tdiv_nonneg (mul_self_nonneg x) Decimal.one_pos.le
  rw [wholeMagnitude_of_nonneg (by norm_num), show (2 : ℤ).natAbs = 2 from rfl, binaryPower_two]
  split
  · next hsure => exact (saturate_eq_posInf (not_inRange_square hsure) hnonneg).symm
  · by_cases hover : fineOverflow (fineProduct (raise x.natAbs) (raise x.natAbs)) = true
    · have hout : ¬InRange (product x x) := by
        intro hrange
        rw [← hsquare] at hrange
        rw [fineOverflow_of_lower hrange] at hover
        cases hover
      rw [if_pos hover, Option.elim_none, saturate_eq_posInf hout hnonneg]
    · rw [if_neg hover, Option.elim_some, hsquare]

theorem surelyInfinite_inverse (x : ℤ) : surelyInfinite x (-1) = false := by
  have hneg : ¬(0 : ℤ) < -1 := by norm_num
  rw [surelyInfinite, bitLength_one, logLimit]
  simp only [if_neg hneg, decide_eq_false_iff_not, show (-1 : ℤ).natAbs = 1 from rfl]
  omega

/-- Of the magnitude and its inverse the larger is raised, and either way 1 is divided by it. -/
theorem wholeMagnitude_inverse {x : ℤ} (hx : InRange x) :
    wholeMagnitude x (-1) = saturate (quotient one x.natAbs) := by
  have hneg : (-1 : ℤ) < 0 := by norm_num
  have hmagnitude : InRange x.natAbs := by
    rwa [InRange, Int.natAbs_natCast]
  have hlower := lower_inverse (Int.natCast_nonneg x.natAbs)
  rw [wholeMagnitude, surelyInfinite_inverse]
  simp only [hneg, true_and, Bool.false_eq_true, if_false, show (-1 : ℤ).natAbs = 1 from rfl]
  by_cases hsmall : raise x.natAbs < fineOne
  · have hbase : fineOverflow ((fineOne * fineOne).tdiv (raise x.natAbs)) = false :=
      fineOverflow_of_lower (hlower ▸ inRange_quotient_one _)
    simp only [hsmall, decide_true, if_true, not_true_eq_false, decide_false, Bool.false_eq_true,
      if_false, binaryPower_one hbase, hlower]
  · simp only [hsmall, decide_false, Bool.false_eq_true, if_false, not_false_eq_true, decide_true,
      if_true, binaryPower_one (fineOverflow_raise hmagnitude), hlower]

theorem tmod_two_neg_iff (n : ℕ) : (-(n : ℤ)).tmod 2 ≠ 0 ↔ n % 2 ≠ 0 := by
  rw [Int.neg_tmod, neg_ne_zero, tmod_two_ne_zero_iff]

theorem pow_eq_magnitude (k : ℤ) (n : ℕ) :
    k ^ n * one = if decide (k < 0 ∧ n % 2 ≠ 0) then -((k.natAbs ^ n : ℕ) * one)
      else (k.natAbs ^ n : ℕ) * one := by
  simp only [decide_eq_true_eq, Nat.cast_pow]
  rcases Nat.mod_two_eq_zero_or_one n with heven | hodd
  · rw [if_neg (by omega), Int.natCast_natAbs, Even.pow_abs (Nat.even_iff.mpr heven)]
  · by_cases hk : k < 0
    · rw [if_pos ⟨hk, by omega⟩, Int.natCast_natAbs, abs_of_neg hk,
        Odd.neg_pow (Nat.odd_iff.mpr hodd), neg_mul, neg_neg]
    · rw [if_neg (by omega), Int.natAbs_of_nonneg (not_lt.mp hk)]

theorem repeated_eq_signed (k : ℤ) (n : ℕ) :
    Number.repeated (.finite (k * one)) n =
      signed (decide (k < 0 ∧ n % 2 ≠ 0)) (saturate ((k.natAbs ^ n : ℕ) * one)) := by
  rw [repeated_whole, signed_saturate, ← pow_eq_magnitude]

theorem one_div_signed (negative : Bool) {b : ℤ} (hb : 0 < b) :
    Number.one.div (signed negative (saturate b)) =
      signed negative (Number.one.div (saturate b)) := by
  cases negative with
  | false => rfl
  | true =>
    change Number.one.div (saturate b).neg = (Number.one.div (saturate b)).neg
    by_cases h : InRange b
    · have hneg : quotient one (-b) = -quotient one b := Int.tdiv_neg _ _
      rw [one_div_saturate hb, ← saturate_neg, ← saturate_neg,
        saturate_of_inRange (inRange_neg_iff.mpr h), Number.one, Number.div,
        if_neg (neg_ne_zero.mpr hb.ne'), hneg]
    · rw [saturate_eq_posInf h hb.le]
      rfl

theorem pow_whole {k n : ℤ} {v : Number} (hk : k ≠ 0) (hn : n ≠ 0)
    (hword : wholeMagnitude (k * one) n = v)
    (hbeyond : 2 ^ 63 ≤ n.natAbs → realPower (k.natAbs * one) (n * one) = v) :
    Decimal.pow (k * one) (n * one) = .ok (signed (decide (k < 0 ∧ n.tmod 2 ≠ 0)) v) := by
  have hone := Decimal.one_pos
  have hsign : k * one < 0 ↔ k < 0 :=
    ⟨fun h => neg_of_mul_neg_left h hone.le, fun h => mul_neg_of_neg_of_pos h hone⟩
  rw [Decimal.pow, if_pos (isWhole_mul_one n)]
  rcases wholeWord?_mul_one n with h | ⟨h, hlarge⟩
  · simp only [h, wholePower_eq_signed (mul_ne_zero hk hone.ne') hn, hword, hsign]
  · simp only [h, hsign, isOddWhole_mul_one]
    by_cases hneg : k < 0
    · have hmagnitude : -(k * one) = k.natAbs * one := by
        rw [← neg_mul, Int.natCast_natAbs, abs_of_neg hneg]
      simp only [hneg, if_true, true_and, hmagnitude, hbeyond hlarge]
      rfl
    · have hmagnitude : k * one = k.natAbs * one := by
        rw [Int.natAbs_of_nonneg (not_lt.mp hneg)]
      simp only [hneg, if_false, false_and, decide_false]
      rw [hmagnitude, hbeyond hlarge]
      rfl

theorem not_inRange_pow {k n : ℕ} (hk : 2 ≤ k) (hn : bitLimit ≤ n) :
    ¬InRange ((k ^ n : ℕ) * one) := by
  rw [InRange, not_lt, Int.natAbs_mul, Int.natAbs_natCast]
  calc 2 ^ bitLimit ≤ 2 ^ n := Nat.pow_le_pow_right Nat.two_pos hn
    _ ≤ k ^ n := Nat.pow_le_pow_left hk n
    _ ≤ k ^ n * one.natAbs := Nat.le_mul_of_pos_right _ (by decide)

theorem realPower_whole {k n : ℕ} (hk : 0 < k) (hn : 2 ^ 63 ≤ n) :
    realPower (k * one) (n * one) = saturate ((k ^ n : ℕ) * one) ∧
      realPower (k * one) (-n * one) = Number.one.div (saturate ((k ^ n : ℕ) * one)) := by
  rcases Nat.lt_or_ge 1 k with hlarge | hsmall
  · have hout := not_inRange_pow (n := n) hlarge (bitLimit_le_word.trans hn)
    have hbase : 2 * one ≤ k * one :=
      mul_le_mul_of_nonneg_right (by exact_mod_cast hlarge) Decimal.one_pos.le
    rw [saturate_eq_posInf hout (whole_nonneg _)]
    exact realPower_beyond hbase (by exact_mod_cast hn)
  · obtain rfl : k = 1 := by omega
    rw [one_pow, Nat.cast_one, one_mul, realPower_one, realPower_one,
      one_div_saturate Decimal.one_pos, saturate_of_inRange inRange_one]
    exact ⟨rfl, rfl⟩

theorem pow_natural {k : ℤ} (hk : k ≠ 0) {n : ℕ} (hn : n ≠ 0) :
    Decimal.pow (k * one) (n * one) = .ok (Number.repeated (.finite (k * one)) n) := by
  have hpow := pow_whole hk (Int.natCast_ne_zero.mpr hn) (wholeMagnitude_natural hk hn)
    fun hlarge => (realPower_whole (Int.natAbs_pos.mpr hk) hlarge).1
  simp only [hpow, repeated_eq_signed, tmod_two_ne_zero_iff]

theorem pow_negative {k : ℤ} (hk : k ≠ 0) {n : ℕ} (hn : n ≠ 0) :
    Decimal.pow (k * one) (-n * one) =
      .ok (Number.one.div (Number.repeated (.finite (k * one)) n)) := by
  have hbase := Int.natAbs_pos.mpr hk
  have hpos := whole_pos (Nat.pow_pos (n := n) hbase)
  have hpow := pow_whole hk (neg_ne_zero.mpr (Int.natCast_ne_zero.mpr hn))
    (wholeMagnitude_negative hk hn)
    fun hlarge => (realPower_whole hbase (by simpa using hlarge)).2
  simp only [hpow, repeated_eq_signed, tmod_two_neg_iff, one_div_signed _ hpos]

theorem zero_pow_whole {n : ℤ} (hn : n ≠ 0) :
    Decimal.pow 0 (n * one) = .ok (if 0 < n then .zero else .posInf) := by
  have hone := Decimal.one_pos
  have hne : n * one ≠ 0 := mul_ne_zero hn hone.ne'
  rw [Decimal.pow, if_pos (isWhole_mul_one n)]
  rcases wholeWord?_mul_one n with h | ⟨h, -⟩
  · simp only [h, wholePower, if_neg hn, if_true]
  · simp only [h, lt_irrefl, if_false, realPower, if_true, if_neg hne,
      mul_pos_iff_of_pos_right hone]

theorem pow_one_eq {x : ℤ} (hx : InRange x) : Decimal.pow x one = .ok (.finite x) := by
  have h := pow_natCast_exact (n := 1) (pow_one (toRat x)) hx
  rwa [Nat.cast_one, one_mul] at h

theorem pow_two_eq (x : ℤ) : Decimal.pow x (2 * one) = .ok (saturate (product x x)) := by
  have hword : wholeWord? (2 * one) = some 2 := by decide
  rw [Decimal.pow, if_pos (isWhole_mul_one 2)]
  simp only [hword]
  by_cases hx : x = 0
  · subst hx
    rfl
  · have heven : ¬(2 : ℤ).tmod 2 ≠ 0 := by decide
    rw [wholePower_eq_signed hx (by decide), wholeMagnitude_two]
    simp only [heven, and_false, decide_false]
    rfl

theorem quotient_one_eq (x : ℤ) :
    quotient one x = if decide (x < 0) then -quotient one x.natAbs else quotient one x.natAbs := by
  simp only [decide_eq_true_eq]
  split
  · next hneg =>
    have hx : x = -x.natAbs := by omega
    conv_lhs => rw [hx]
    exact Int.tdiv_neg _ _
  · next hpos => rw [Int.natAbs_of_nonneg (not_lt.mp hpos)]

theorem pow_inverse_eq {x : ℤ} (hx : InRange x) :
    Decimal.pow x (-one) = .ok (Number.one.div (.finite x)) := by
  have hword : wholeWord? (-one) = some (-1) := by decide
  rw [Decimal.pow, if_pos (by decide)]
  simp only [hword]
  by_cases hzero : x = 0
  · subst hzero
    rfl
  · have hodd : (-1 : ℤ).tmod 2 ≠ 0 := by decide
    rw [wholePower_eq_signed hzero (by decide), wholeMagnitude_inverse hx, Number.one, Number.div,
      if_neg hzero, quotient_one_eq x]
    simp only [hodd, and_true, ne_eq, not_false_eq_true, signed_saturate]

theorem pow_whole_natural (k : ℤ) (n : ℕ) :
    Decimal.pow (k * one) (n * one) = .ok (Number.repeated (.finite (k * one)) n) := by
  by_cases hn : n = 0
  · subst hn
    rw [Nat.cast_zero, Decimal.pow, if_pos (isWhole_mul_one 0)]
    rfl
  by_cases hk : k = 0
  · rw [repeated_whole, hk, zero_mul, zero_pow_whole (Int.natCast_ne_zero.mpr hn),
      if_pos (by omega), zero_pow hn, zero_mul]
    rfl
  · exact pow_natural hk hn

theorem pow_whole_negative (k : ℤ) {n : ℕ} (hn : n ≠ 0) :
    Decimal.pow (k * one) (-n * one) =
      .ok (Number.one.div (Number.repeated (.finite (k * one)) n)) := by
  by_cases hk : k = 0
  · rw [repeated_whole, hk, zero_mul, zero_pow_whole (by omega), if_neg (by omega), zero_pow hn,
      zero_mul]
    rfl
  · exact pow_negative hk hn

/-- A whole number to a whole power from 0 on is the product of so many factors, and to a negative
power it is 1 divided by that product, which from 0 gives +∞. For every base within the range the
powers 1, 2 and -1 are the base, its square and its inverse. -/
theorem pow_eq_repeated (k : ℤ) :
    (∀ n : ℕ, (Number.finite (ofInt k)).pow (.finite (ofInt n)) =
      .ok (Number.repeated (.finite (ofInt k)) n)) ∧
    (∀ n : ℕ, 0 < n →
      (Number.finite (ofInt k)).pow (.finite (ofInt (-n))) =
        .ok (Number.one.div (Number.repeated (.finite (ofInt k)) n)) ∧
      Number.zero.pow (.finite (ofInt (-n))) = .ok .posInf) ∧
    ∀ x, InRange x →
      (Number.finite x).pow .one = .ok (.finite x) ∧
      (Number.finite x).pow (.finite (ofInt 2)) = .ok ((Number.finite x).mul (.finite x)) ∧
      (Number.finite x).pow (.finite (ofInt (-1))) = .ok (Number.one.div (.finite x)) := by
  refine ⟨pow_whole_natural k, fun n hn => ⟨pow_whole_negative k hn.ne', ?_⟩,
    fun x hx => ⟨pow_one_eq hx, pow_two_eq x, ?_⟩⟩
  · have hzero := zero_pow_whole (show -(n : ℤ) ≠ 0 by omega)
    rwa [if_neg (by omega)] at hzero
  · have hone : ofInt (-1) = -one := by rw [ofInt, neg_one_mul]
    rw [hone]
    exact pow_inverse_eq hx

theorem pow_eq_repeated_minusTwo :
    (Number.finite (ofInt (-2))).pow (.finite (ofInt 3)) =
      .ok (Number.repeated (.finite (ofInt (-2))) 3) ∧
    (0 < 3 ∧ (Number.finite (ofInt (-2))).pow (.finite (ofInt (-3))) =
      .ok (Number.one.div (Number.repeated (.finite (ofInt (-2))) 3))) ∧
    InRange 15 ∧ (Number.finite 15).pow .one = .ok (.finite 15) := by
  have hrange : InRange 15 := inRange_of_natAbs_lt (e := 4) (by decide) (by decide)
  have h := pow_eq_repeated (-2)
  exact ⟨h.1 3, ⟨by decide, (h.2.1 3 (by decide)).1⟩, hrange, (h.2.2 15 hrange).1⟩

end Decimal

end Reckoner
