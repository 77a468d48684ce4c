import Reckoner.Expr.Basic
import Reckoner.Proofs.Exact.Power
import Reckoner.Proofs.Outcome
import Reckoner.Proofs.Range.Functions

set_option autoImplicit false

namespace Reckoner

open Decimal

/-- A bound on magnitudes that the range lies within, at most twice as large. -/
structure Decimal.Cap (b : Int) : Prop where
  inRange : ∀ x, InRange x → |x| ≤ b
  bits : bitLength b ≤ bitLimit + 1

variable {b x y : Int} {u v w : Number}

theorem Decimal.Cap.bitLength_le (hb : Cap b) (h : |x| ≤ b) : bitLength x ≤ bitLimit + 1 := by
  have hbits := hb.bits
  rw [bitLength_le_iff] at hbits ⊢
  rw [Int.abs_eq_natAbs] at h
  omega

def Number.Within (b : Int) (v : Number) : Prop := ∀ x, v = .finite x → |x| ≤ b

namespace Number

theorem within_finite_iff : (finite x).Within b ↔ |x| ≤ b := by
  simp [Within]

theorem within_of_inRange (hb : Cap b) (h : InRange x) : (finite x).Within b :=
  within_finite_iff.mpr (hb.inRange x h)

theorem within_infinity (negative : Bool) : (infinity negative).Within b := by
  cases negative <;> exact nofun

theorem within_zero (hb : Cap b) : zero.Within b := within_of_inRange hb (Nat.two_pow_pos _)

theorem within_one (hb : Cap b) : one.Within b := within_of_inRange hb inRange_one

theorem within_saturate (hb : Cap b) (x : Int) : (saturate x).Within b := by
  unfold saturate
  split
  · exact within_infinity _
  · next hbits => exact within_of_inRange hb (bitLength_le_iff.mp (not_lt.mp hbits))

theorem within_signedInfinity (sign : Int) : (signedInfinity sign).Within b := by
  unfold signedInfinity
  split
  · exact nofun
  · exact within_infinity _

theorem within_neg (h : v.Within b) : v.neg.Within b := by
  cases v with
  | finite x =>
    rw [within_finite_iff] at h
    exact within_finite_iff.mpr ((abs_neg x).trans_le h)
  | posInf | negInf | nan => exact nofun

theorem within_add (hb : Cap b) (u v : Number) : (u.add v).Within b := by
  cases u with
  | finite x =>
    cases v with
    | finite y => exact within_saturate hb _
    | posInf | negInf | nan => exact nofun
  | posInf | negInf | nan => cases v <;> exact nofun

theorem within_mul (hb : Cap b) (u v : Number) : (u.mul v).Within b := by
  cases u with
  | finite x =>
    cases v with
    | finite y => exact within_saturate hb _
    | posInf | negInf => exact within_signedInfinity _
    | nan => exact nofun
  | posInf | negInf =>
    cases v with
    | finite | posInf | negInf => exact within_signedInfinity _
    | nan => exact nofun
  | nan => cases v <;> exact nofun

theorem within_div (hb : Cap b) (u v : Number) : (u.div v).Within b := by
  cases u with
  | finite x =>
    cases v with
    | finite y =>
      change (if y = 0 then signedInfinity x.sign else saturate (quotient x y)).Within b
      split
      · exact within_signedInfinity _
      · exact within_saturate hb _
    | posInf | negInf => exact within_zero hb
    | nan => exact nofun
  | posInf | negInf =>
    cases v with
    | finite y => exact within_infinity _
    | posInf | negInf | nan => exact nofun
  | nan => cases v <;> exact nofun

theorem within_wholePower (hb : Cap b) (x n : Int) : (wholePower x n).Within b := by
  unfold wholePower
  split
  · exact within_one hb
  · split
    · split
      · exact within_zero hb
      · exact nofun
    · simp only
      split
      · exact within_infinity _
      · split
        · exact within_saturate hb _
        · split
          · exact within_zero hb
          · exact within_infinity _

theorem within_realPower (hb : Cap b) (x y : Int) : (realPower x y).Within b := by
  unfold realPower
  split
  · split
    · exact within_zero hb
    · split
      · exact within_one hb
      · exact nofun
  · split
    · exact within_saturate hb _
    · exact nofun

theorem within_decimalPow (hb : Cap b) (h : Decimal.pow x y = .ok v) : v.Within b := by
  unfold Decimal.pow at h
  split at h
  · split at h
    · cases h
      exact within_wholePower hb _ _
    · split at h
      · cases h
        split
        · exact within_neg (within_realPower hb _ _)
        · exact within_realPower hb _ _
      · cases h
        exact within_realPower hb _ _
  · split at h
    · cases h
    · cases h
      exact within_realPower hb _ _

/-- The definition is opened as a function: applied to `x`, the comparison with the number 1 would
be computed. -/
theorem infinitePower_cases (x : Int) (positive : Bool) : infinitePower x positive = .nan ∨
    infinitePower x positive = .posInf ∨ infinitePower x positive = .zero := by
  suffices h : ∀ f, f = infinitePower → f x positive = .nan ∨ f x positive = .posInf ∨
      f x positive = .zero from h _ rfl
  intro f hf
  delta infinitePower at hf
  subst hf
  beta_reduce
  generalize Ord.compare (x.natAbs : Int) Decimal.one = o
  cases o <;> cases positive <;> simp

theorem within_infinitePower (hb : Cap b) (x : Int) (positive : Bool) :
    (infinitePower x positive).Within b := by
  rcases infinitePower_cases x positive with h | h | h <;> rw [h]
  · exact nofun
  · exact nofun
  · exact within_zero hb

theorem within_powerOfInfinity (hb : Cap b) (negative : Bool) (y : Int) :
    (powerOfInfinity negative y).Within b := by
  unfold powerOfInfinity
  split
  · exact within_zero hb
  · exact within_infinity _

theorem within_pow (hb : Cap b) (h : u.pow w = .ok v) : v.Within b := by
  unfold pow at h
  split at h
  · exact within_decimalPow hb h
  · obtain rfl := Except.ok.inj h
    split
    · exact within_one hb
    · exact within_powerOfInfinity hb _ _
  · obtain rfl := Except.ok.inj h
    split
    · exact within_one hb
    · exact within_powerOfInfinity hb _ _
  · obtain rfl := Except.ok.inj h
    split
    · exact within_one hb
    · exact nofun
  · cases h
    exact nofun
  · cases h
    exact nofun
  · obtain rfl := Except.ok.inj h
    exact within_infinitePower hb _ _
  · obtain rfl := Except.ok.inj h
    exact within_infinitePower hb _ _
  · cases h
    exact nofun
  · obtain rfl := Except.ok.inj h
    exact within_zero hb

end Number

theorem within_of_mapError {r : Except Fault Number} (h : ∀ v, r = .ok v → v.Within b)
    (hv : r.mapError Fault.toError = .ok v) : v.Within b := by
  cases r with
  | error f => cases hv
  | ok w =>
    obtain rfl := Except.ok.inj hv
    exact h _ rfl

theorem Operator.within_apply (hb : Cap b) {op : Operator} (h : op.apply u w = .ok v) :
    v.Within b := by
  cases op with
  | plus | minus =>
    obtain rfl := Except.ok.inj h
    exact Number.within_add hb _ _
  | times =>
    obtain rfl := Except.ok.inj h
    exact Number.within_mul hb _ _
  | divide =>
    obtain rfl := Except.ok.inj h
    exact Number.within_div hb _ _
  | power => exact within_of_mapError (fun _ => Number.within_pow hb) h

theorem Decimal.within_exp (hb : Cap b) (x : Int) : (exp x).Within b := by
  unfold exp
  split
  · exact Number.within_saturate hb _
  · exact nofun

theorem Decimal.within_sinh (hb : Cap b) (x : Int) : (sinh x).Within b := by
  unfold sinh
  split
  · exact Number.within_saturate hb _
  · exact nofun
  · exact nofun

theorem Decimal.within_cosh (hb : Cap b) (x : Int) : (cosh x).Within b := by
  unfold cosh
  split
  · exact Number.within_saturate hb _
  · exact nofun

theorem Decimal.within_tan (hb : Cap b) (x : Int) : (tan x).Within b := by
  unfold tan
  simp only
  split
  · exact Number.within_infinity _
  · exact Number.within_saturate hb _

theorem Decimal.within_ln (hb : Cap b) (hx : |x| ≤ b) (h : ln x = .ok v) : v.Within b := by
  obtain ⟨l, hl, h⟩ := bind_eq_ok_iff.mp h
  unfold checkedLn at hl
  split at hl
  · cases hl
  · split at hl
    · cases hl
      cases h
      exact nofun
    · next hneg _ =>
      obtain rfl := Except.ok.inj hl
      obtain rfl := Except.ok.inj h
      exact Number.within_of_inRange hb
        (inRange_lower_fineLn (not_lt.mp hneg) (hb.bitLength_le hx))

theorem Decimal.within_logBase (hb : Cap b) (h : logBase x y = .ok v) : v.Within b := by
  obtain ⟨lx, -, h⟩ := bind_eq_ok_iff.mp h
  obtain ⟨ly, -, h⟩ := bind_eq_ok_iff.mp h
  cases lx with
  | none =>
    obtain rfl := Except.ok.inj h
    exact Number.within_div hb _ _
  | some l =>
    cases ly with
    | none =>
      obtain rfl := Except.ok.inj h
      exact Number.within_div hb _ _
    | some m =>
      change (if m = 0 then _ else _) = _ at h
      split at h
      · obtain rfl := Except.ok.inj h
        exact Number.within_div hb _ _
      · obtain rfl := Except.ok.inj h
        exact Number.within_saturate hb _

theorem Constant.within_value (hb : Cap b) (c : Constant) : c.value.Within b := by
  cases c <;> rw [Constant.value]
  case pi => exact Number.within_of_inRange hb (by unfold InRange; decide +kernel)
  case e => exact within_exp hb _
  case ln2 | ln10 =>
    rw [lnValue]
    exact Number.within_of_inRange hb (inRange_lower_fineLn (by decide) (by decide))
  case log2e | log10e => exact Number.within_div hb _ _
  case sqrtHalf | sqrt2 =>
    rw [sqrtValue]
    exact Number.within_of_inRange hb (inRange_isqrt (by decide))

/-- The roundings to whole numbers and to places, which can enlarge their argument. -/
def Function.rounds : Function → Bool
  | .unary .ceil | .unary .floor | .round => true
  | _ => false

theorem Fault.within_ofOption (hb : Cap b) {r : Option Int} (hr : ∀ x, r = some x → InRange x)
    (h : ofOption r = .ok v) : v.Within b := by
  cases r with
  | none => cases h
  | some x =>
    obtain rfl := Except.ok.inj h
    exact Number.within_of_inRange hb (hr x rfl)

namespace Unary

theorem within_onFinite (hb : Cap b) {u : Unary} (hu : (Function.unary u).rounds = true → one ∣ b)
    (hx : |x| ≤ b) (h : u.onFinite x = .ok v) : v.Within b := by
  have hinRange {r : Int} (hr : InRange r) := Number.within_of_inRange hb hr
  -- Only ceil and floor can enlarge an argument unchecked, and only up to a whole number.
  cases u with
  | sin =>
    obtain rfl := Except.ok.inj h
    exact hinRange (inRange_sin x)
  | cos =>
    obtain rfl := Except.ok.inj h
    exact hinRange (inRange_cos x)
  | tan =>
    obtain rfl := Except.ok.inj h
    exact within_tan hb x
  | asin => exact Fault.within_ofOption hb (fun _ => inRange_asin?) h
  | acos => exact Fault.within_ofOption hb (fun _ => inRange_acos?) h
  | atan =>
    obtain rfl := Except.ok.inj h
    exact hinRange (inRange_atan x)
  | sinh =>
    obtain rfl := Except.ok.inj h
    exact within_sinh hb x
  | cosh =>
    obtain rfl := Except.ok.inj h
    exact within_cosh hb x
  | tanh =>
    obtain rfl := Except.ok.inj h
    exact hinRange (inRange_tanh x)
  | log10 | log2 => exact within_logBase hb h
  | ln => exact within_ln hb hx h
  | sqrt => exact Fault.within_ofOption hb (fun _ => inRange_sqrt? (hb.bitLength_le hx)) h
  | abs =>
    obtain rfl := Except.ok.inj h
    rw [Number.within_finite_iff, Int.natCast_natAbs, abs_abs]
    exact hx
  | ceil =>
    obtain rfl := Except.ok.inj h
    obtain ⟨k, rfl⟩ := hu rfl
    rw [mul_comm] at hx ⊢
    exact Number.within_finite_iff.mpr (abs_ceil_le hx)
  | floor =>
    obtain rfl := Except.ok.inj h
    obtain ⟨k, rfl⟩ := hu rfl
    rw [mul_comm] at hx ⊢
    exact Number.within_finite_iff.mpr (abs_floor_le hx)
  | trunc =>
    obtain rfl := Except.ok.inj h
    exact Number.within_finite_iff.mpr ((abs_trunc_le x).trans hx)
  | sign =>
    obtain rfl := Except.ok.inj h
    exact hinRange (inRange_signum x)
  | exp =>
    obtain rfl := Except.ok.inj h
    exact within_exp hb x

theorem within_onInfinity (hb : Cap b) (u : Unary) (negative : Bool)
    (h : u.onInfinity negative = .ok v) : v.Within b := by
  have hinRange {r : Int} (hr : InRange r) := Number.within_of_inRange hb hr
  have hhalfPi : InRange (pi.tdiv 2) := by
    unfold InRange
    decide +kernel
  cases u with
  | sin | cos | tan | cosh | abs =>
    obtain rfl := Except.ok.inj h
    exact nofun
  | asin | acos => cases h
  | atan =>
    obtain rfl := Except.ok.inj h
    cases negative
    · exact hinRange hhalfPi
    · exact hinRange (inRange_neg_iff.mpr hhalfPi)
  | tanh | sign =>
    obtain rfl := Except.ok.inj h
    cases negative
    · exact hinRange inRange_one
    · exact hinRange (inRange_neg_iff.mpr inRange_one)
  | log10 | log2 | ln | sqrt =>
    cases negative
    · obtain rfl := Except.ok.inj h
      exact nofun
    · cases h
  | exp =>
    cases negative
    · obtain rfl := Except.ok.inj h
      exact nofun
    · obtain rfl := Except.ok.inj h
      exact Number.within_zero hb
  | sinh | ceil | floor | trunc =>
    obtain rfl := Except.ok.inj h
    exact Number.within_infinity _

theorem within_apply (hb : Cap b) {u : Unary} (hu : (Function.unary u).rounds = true → one ∣ b)
    (hw : w.Within b) (h : u.apply w = .ok v) : v.Within b := by
  cases w with
  | finite x => exact within_onFinite hb hu (Number.within_finite_iff.mp hw) h
  | posInf | negInf => exact within_onInfinity hb u _ h
  | nan =>
    obtain rfl := Except.ok.inj h
    exact nofun

end Unary

namespace Number

theorem within_logBase (hb : Cap b) (h : u.logBase w = .ok v) : v.Within b := by
  unfold logBase at h
  split at h
  · exact Decimal.within_logBase hb h
  · obtain ⟨lu, -, h⟩ := bind_eq_ok_iff.mp h
    obtain ⟨lw, -, h⟩ := bind_eq_ok_iff.mp h
    obtain rfl := Except.ok.inj h
    exact within_div hb _ _

theorem roundPlaces?_le {n : Nat} (h : w.roundPlaces? = some n) : n ≤ places := by
  unfold roundPlaces? at h
  split at h
  · split at h
    · obtain ⟨k, -, hk⟩ := Option.bind_eq_some_iff.mp h
      split at hk
      · next hplaces =>
        obtain rfl := Option.some.inj hk
        exact Int.toNat_le.mpr hplaces.2
      · cases hk
    · cases h
  · cases h

theorem within_roundTo {n : Nat} (hn : n ≤ places) (hwhole : Decimal.one ∣ b) (hw : w.Within b) :
    (w.roundTo n).Within b := by
  cases w with
  | finite x =>
    obtain ⟨k, rfl⟩ := hwhole
    rw [mul_comm] at hw ⊢
    exact within_finite_iff.mpr (abs_roundTo_le hn (within_finite_iff.mp hw))
  | posInf | negInf | nan => exact nofun

theorem within_extremum {wanted : Ordering} {best : Number} {rest : List Number}
    (hbest : best.Within b) (hrest : ∀ a ∈ rest, a.Within b) :
    (extremum wanted best rest).Within b := by
  induction rest generalizing best with
  | nil => exact hbest
  | cons a rest ih =>
    rw [extremum]
    split
    · exact nofun
    · refine ih ?_ fun c hc => hrest c (List.mem_cons_of_mem a hc)
      split
      · exact hrest a List.mem_cons_self
      · exact hbest

end Number

theorem Function.within_apply (hb : Cap b) {f : Function} (hf : f.rounds = true → one ∣ b)
    {args : List Number} (hargs : ∀ a ∈ args, a.Within b) (h : f.apply args = .ok v) :
    v.Within b := by
  unfold apply at h
  split at h
  · next u x =>
    exact within_of_mapError (fun _ => Unary.within_apply hb hf (hargs x List.mem_cons_self)) h
  · next x =>
    have hln : (Function.unary .ln).rounds = true → one ∣ b := Bool.noConfusion
    exact within_of_mapError (fun _ => Unary.within_apply hb hln (hargs x List.mem_cons_self)) h
  · exact within_of_mapError (fun _ => Number.within_logBase hb) h
  · next x =>
    obtain rfl := Except.ok.inj h
    exact Number.within_roundTo (Nat.zero_le _) (hf rfl) (hargs x List.mem_cons_self)
  · next x n =>
    split at h
    · next k hk =>
      obtain rfl := Except.ok.inj h
      exact Number.within_roundTo (Number.roundPlaces?_le hk) (hf rfl)
        (hargs x List.mem_cons_self)
    · cases h
  · exact within_of_mapError (fun _ => Number.within_pow hb) h
  · next x rest =>
    obtain rfl := Except.ok.inj h
    exact Number.within_extremum (hargs x List.mem_cons_self)
      fun a ha => hargs a (List.mem_cons_of_mem x ha)
  · next x rest =>
    obtain rfl := Except.ok.inj h
    exact Number.within_extremum (hargs x List.mem_cons_self)
      fun a ha => hargs a (List.mem_cons_of_mem x ha)
  · cases h

end Reckoner
