import Reckoner.Proofs.Exact.Rational

set_option autoImplicit false

namespace Reckoner

namespace Number

open Decimal

variable {a b v : Int}

theorem add_exact (h : toRat a + toRat b = toRat v) (hv : InRange v) :
    (finite a).add (finite b) = finite v := by
  have hsum : a + b = v := by rwa [← toRat_add, toRat_inj] at h
  change saturate (a + b) = finite v
  rw [hsum, saturate_of_inRange hv]

theorem sub_exact (h : toRat a - toRat b = toRat v) (hv : InRange v) :
    (finite a).sub (finite b) = finite v := by
  rw [sub_eq_add_neg, ← toRat_neg] at h
  exact add_exact h hv

theorem mul_exact (h : toRat a * toRat b = toRat v) (hv : InRange v) :
    (finite a).mul (finite b) = finite v := by
  have hproduct : product a b = v := by
    rw [product, toRat_mul_eq_iff.mp h, Int.mul_tdiv_cancel v Decimal.one_pos.ne']
  change saturate (product a b) = finite v
  rw [hproduct, saturate_of_inRange hv]

theorem div_exact (hb : b ≠ 0) (h : toRat a / toRat b = toRat v) (hv : InRange v) :
    (finite a).div (finite b) = finite v := by
  have hquotient : quotient a b = v := by
    rw [quotient, (toRat_div_eq_iff hb).mp h, Int.mul_tdiv_cancel v hb]
  change (if b = 0 then _ else saturate (quotient a b)) = finite v
  rw [if_neg hb, hquotient, saturate_of_inRange hv]

end Number

namespace Decimal

variable {a b : Int}

theorem floor_toRat (a : Int) : ⌊toRat a⌋ = a / one :=
  Rat.floor_intCast_div_natCast a (Nat.pow 10 places)

theorem trunc_of_nonneg (ha : 0 ≤ a) : trunc a = a / one * one := by
  rw [trunc, Int.tdiv_eq_ediv_of_nonneg ha]

theorem trunc_neg (a : Int) : trunc (-a) = -trunc a := by
  rw [trunc, trunc, Int.neg_tdiv, Int.neg_mul]

theorem floor_eq (a : Int) : floor a = ⌊toRat a⌋ * one := by
  rw [floor_toRat]
  unfold floor
  by_cases ha : 0 ≤ a
  · rw [if_neg (by omega), trunc_of_nonneg ha]
  · have htrunc : trunc a = (a / one + if one ∣ a then 0 else 1) * one := by
      rw [trunc, Int.tdiv_eq_ediv, Int.sign_eq_one_of_pos one_pos]
      simp only [ha, false_or]
    by_cases hwhole : one ∣ a
    · rw [if_pos hwhole, Int.add_zero] at htrunc
      have heq : a / one * one = a := Int.ediv_mul_cancel hwhole
      rw [htrunc, if_neg (by omega)]
    · rw [if_neg hwhole] at htrunc
      have hne : trunc a ≠ a := fun h => hwhole ⟨_, by rw [Int.mul_comm, ← trunc, h]⟩
      rw [if_pos ⟨by omega, hne⟩, htrunc, Int.add_mul]
      omega

theorem ceil_eq_neg_floor (a : Int) : ceil a = -floor (-a) := by
  simp only [ceil, floor, trunc_neg]
  split <;> split <;> omega

theorem ceil_eq (a : Int) : ceil a = ⌈toRat a⌉ * one := by
  rw [ceil_eq_neg_floor, floor_eq, toRat_neg, Int.floor_neg, Int.neg_mul, Int.neg_neg]

theorem trunc_eq (a : Int) : trunc a = (if 0 ≤ toRat a then ⌊toRat a⌋ else ⌈toRat a⌉) * one := by
  simp only [toRat_nonneg_iff]
  split
  · next ha => rw [trunc_of_nonneg ha, floor_toRat]
  · next ha =>
    have hneg : trunc (-a) = -a / one * one := trunc_of_nonneg (by omega)
    rw [trunc_neg, ← floor_toRat, toRat_neg, Int.floor_neg] at hneg
    linarith

theorem toRat_floor (a : Int) : toRat (floor a) = ⌊toRat a⌋ := by
  rw [floor_eq, toRat_ofInt]

theorem toRat_ceil (a : Int) : toRat (ceil a) = ⌈toRat a⌉ := by
  rw [ceil_eq, toRat_ofInt]

theorem toRat_trunc (a : Int) :
    toRat (trunc a) = (if 0 ≤ toRat a then ⌊toRat a⌋ else ⌈toRat a⌉ : ℤ) := by
  rw [trunc_eq, toRat_ofInt]

theorem toRat_signum (a : Int) : toRat (signum a) = (SignType.sign (toRat a) : ℚ) := by
  have hsign : SignType.sign (toRat a) = SignType.sign a := by
    have hzero : toRat 0 = 0 := toRat_eq_zero_iff.mpr rfl
    rcases lt_trichotomy a 0 with ha | ha | ha
    · have hneg : toRat a < 0 := by rwa [← hzero, toRat_lt_toRat]
      rw [sign_neg ha, sign_neg hneg]
    · rw [ha, hzero, sign_zero, sign_zero]
    · have hpos : 0 < toRat a := by rwa [← hzero, toRat_lt_toRat]
      rw [sign_pos ha, sign_pos hpos]
  rw [signum, toRat_ofInt, hsign, Int.sign_eq_sign]
  simp

theorem toRat_natAbs (a : Int) : toRat a.natAbs = |toRat a| := by
  have hone : (0 : ℚ) < one := by exact_mod_cast Decimal.one_pos
  rw [Int.natCast_natAbs, toRat, toRat, abs_div, abs_of_pos hone, Int.cast_abs]

theorem nearestInt_neg (r : ℚ) : nearestInt (-r) = -nearestInt r := by
  unfold nearestInt
  rcases lt_trichotomy r 0 with h | h | h
  · rw [if_pos (by linarith), if_neg (by linarith), neg_neg]
  · norm_num [h]
  · rw [if_neg (by linarith), if_pos h.le, neg_neg]

theorem nearestInt_intCast (k : ℤ) : nearestInt k = k := by
  have hhalf (m : ℤ) : ⌊(m : ℚ) + 1 / 2⌋ = m := by
    rw [Int.floor_intCast_add]
    norm_num
  unfold nearestInt
  split
  · exact hhalf k
  · rw [← Int.cast_neg, hhalf, neg_neg]

/-- Division by `d` to the nearest integer, from the quotient and remainder of the truncation. -/
def divideNearest (a d : Int) : Int :=
  if d ≤ 2 * (a.tmod d).natAbs then a.tdiv d + a.sign else a.tdiv d

theorem divideNearest_neg (a d : Int) : divideNearest (-a) d = -divideNearest a d := by
  simp only [divideNearest, Int.neg_tmod, Int.neg_tdiv, Int.natAbs_neg, Int.sign_neg]
  split <;> omega

theorem divideNearest_of_nonneg {d : Nat} (ha : 0 ≤ a) (hd : 0 < d) :
    divideNearest a d = (2 * a + d) / (2 * d) := by
  have hdivide : a.tdiv d = a / d := Int.tdiv_eq_ediv_of_nonneg ha
  have hrest : a.tmod d = a % d := Int.tmod_eq_emod_of_nonneg ha
  have hsum := Int.mul_ediv_add_emod a d
  have hlow : 0 ≤ a % d := Int.emod_nonneg a (by omega)
  have hhigh : a % d < d := Int.emod_lt_of_pos a (by omega)
  -- The half is added to the remainder, which alone decides between the two neighbours.
  have hsplit : 2 * a + d = 2 * (a % d) + d + 2 * d * (a / d) := by linarith
  rw [divideNearest, hdivide, hrest, hsplit, Int.add_mul_ediv_left _ _ (by omega)]
  by_cases hhalf : (d : ℤ) ≤ 2 * (a % d)
  · have hpos : 0 < a := by
      rcases ha.lt_or_eq with hpos | hzero
      · exact hpos
      · simp [← hzero] at hhalf
        omega
    have hone : 2 * (a % d) + d = 2 * (a % d) - d + 2 * d * 1 := by ring
    have hzero : (2 * (a % d) - d) / (2 * d) = 0 :=
      Int.ediv_eq_zero_of_lt (by omega) (by omega)
    rw [if_pos (by omega), Int.sign_eq_one_of_pos hpos, hone,
      Int.add_mul_ediv_left _ _ (by omega), hzero]
    ring
  · have hzero : (2 * (a % d) + d) / (2 * d) = 0 :=
      Int.ediv_eq_zero_of_lt (by omega) (by omega)
    rw [if_neg (by omega), hzero, zero_add]

theorem divideNearest_eq {d : Nat} (a : Int) (hd : 0 < d) :
    divideNearest a d = nearestInt (a / d) := by
  have hnonneg (b : Int) (hb : 0 ≤ b) : divideNearest b d = nearestInt (b / d) := by
    have hd' : (d : ℚ) ≠ 0 := by positivity
    have hhalf : (b / d + 1 / 2 : ℚ) = ((2 * b + d : ℤ) : ℚ) / (2 * d : ℕ) := by
      push_cast
      field_simp
    rw [divideNearest_of_nonneg hb hd, nearestInt, if_pos (by positivity), hhalf,
      Rat.floor_intCast_div_natCast]
    push_cast
    rfl
  by_cases ha : 0 ≤ a
  · exact hnonneg a ha
  · have hneg := hnonneg (-a) (by omega)
    rw [divideNearest_neg, Int.cast_neg, neg_div, nearestInt_neg] at hneg
    omega

theorem rescale_eq {n : Nat} (a : Int) (hn : n ≤ places) :
    rescale a places n = nearestInt (toRat a * 10 ^ n) := by
  have hone : ((10 : ℚ) ^ places) = one := (cast_tenPow (by decide)).symm
  have hpos : (0 : ℚ) < 10 ^ (places - n) := by positivity
  have hscale : toRat a * 10 ^ n = a / (10 ^ (places - n) : ℕ) := by
    rw [toRat, ← hone, ← Nat.sub_add_cancel hn, pow_add]
    push_cast
    rw [Nat.add_sub_cancel]
    field_simp
  rw [hscale]
  unfold rescale
  split
  · next hle =>
    have heq : places - n = 0 := by omega
    have heq' : n - places = 0 := by omega
    rw [heq, heq']
    simp [tenPow, nearestInt_intCast]
  · rw [tenPow_of_lt (lt_exponentEnd (Nat.sub_le places n))]
    exact divideNearest_eq a (Nat.pow_pos (by decide))

theorem toRat_roundTo {n : Nat} (a : Int) (hn : n ≤ places) :
    toRat (roundTo a n) = nearestInt (toRat a * 10 ^ n) / 10 ^ n := by
  have hone : ((10 : ℚ) ^ places) = one := (cast_tenPow (by decide)).symm
  have hkept : Nat.min n places = n := Nat.min_eq_left hn
  simp only [roundTo, hkept, rescale_eq a hn]
  rw [toRat, Int.cast_mul, cast_tenPow (lt_exponentEnd (Nat.sub_le places n)), ← hone,
    ← Nat.sub_add_cancel hn, pow_add, Nat.add_sub_cancel]
  field_simp

theorem eq_num_mul_one (h : (toRat a).den = 1) : a = (toRat a).num * one :=
  toRat_eq_intCast_iff.mp ((Rat.den_eq_one_iff _).mp h).symm

theorem isWhole_mul_one (k : ℤ) : isWhole (k * one) = true := by
  rw [isWhole, Int.mul_tmod_left]
  rfl

theorem mul_one_tdiv_one (k : ℤ) : (k * one).tdiv one = k :=
  Int.mul_tdiv_cancel k Decimal.one_pos.ne'

theorem roundPlaces?_of_exact (hwhole : (toRat a).den = 1) (hlow : 0 ≤ toRat a)
    (hhigh : toRat a ≤ roundLimit) :
    (Number.finite a).roundPlaces? = some (toRat a).num.toNat ∧
      (toRat a).num.toNat ≤ places := by
  have hint := (Rat.den_eq_one_iff _).mp hwhole
  generalize (toRat a).num = k at hint
  obtain rfl := toRat_eq_intCast_iff.mp hint.symm
  have hlow' : 0 ≤ k := by
    rw [← hint] at hlow
    exact_mod_cast hlow
  have hhigh' : k ≤ roundLimit := by
    rw [← hint] at hhigh
    exact_mod_cast hhigh
  have hlimit : (roundLimit : ℤ) = 64 := rfl
  have hword : wholeWord? (k * one) = some k := by
    simp only [wholeWord?, mul_one_tdiv_one]
    exact if_pos (by omega)
  constructor
  · change (if isWhole (k * one) then (wholeWord? (k * one)).bind _ else none) = _
    rw [if_pos (isWhole_mul_one k), hword, Option.bind_some, if_pos ⟨hlow', hhigh'⟩]
  · change k.toNat ≤ 64
    omega

end Decimal

namespace Number

open Decimal

theorem extremum_finite {wanted : Ordering} {choose : Int → Int → Int}
    (h : ∀ best a, choose best a = if Ord.compare a best = wanted then a else best)
    (best : Int) (rest : List Int) :
    extremum wanted (.finite best) (rest.map .finite) = .finite (rest.foldl choose best) := by
  induction rest generalizing best with
  | nil => rfl
  | cons a rest ih =>
    change extremum wanted (if Ord.compare a best = wanted then _ else _) _ = _
    rw [← apply_ite Number.finite, ← h, ih, List.foldl_cons]

theorem extremum_lt (best : Int) (rest : List Int) :
    extremum .lt (.finite best) (rest.map .finite) = .finite (rest.foldl min best) := by
  refine extremum_finite (fun best a => ?_) best rest
  split
  · next h => exact min_eq_right (compare_lt_iff_lt.mp h).le
  · next h => exact min_eq_left (not_lt.mp (compare_lt_iff_lt.not.mp h))

theorem extremum_gt (best : Int) (rest : List Int) :
    extremum .gt (.finite best) (rest.map .finite) = .finite (rest.foldl max best) := by
  refine extremum_finite (fun best a => ?_) best rest
  split
  · next h => exact max_eq_right (compare_gt_iff_gt.mp h).le
  · next h => exact max_eq_left (not_lt.mp (compare_gt_iff_gt.not.mp h))

end Number

namespace Decimal

theorem toRat_mono : Monotone toRat := fun _ _ => toRat_le_toRat.mpr

theorem toRat_foldl_min (best : Int) (rest : List Int) :
    toRat (rest.foldl min best) = (rest.map toRat).foldl min (toRat best) := by
  rw [List.foldl_map]
  exact (List.foldl_hom toRat fun _ _ => (toRat_mono.map_min).symm).symm

theorem toRat_foldl_max (best : Int) (rest : List Int) :
    toRat (rest.foldl max best) = (rest.map toRat).foldl max (toRat best) := by
  rw [List.foldl_map]
  exact (List.foldl_hom toRat fun _ _ => (toRat_mono.map_max).symm).symm

end Decimal

end Reckoner
