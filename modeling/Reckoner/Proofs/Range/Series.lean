import Mathlib
import Reckoner.Decimal.Series

set_option autoImplicit false

namespace Reckoner.Decimal

variable {a b c p r x z : Int}

theorem abs_tdiv_le_abs (a b : Int) : |a.tdiv b| ≤ |a| := by
  rw [Int.abs_eq_natAbs, Int.abs_eq_natAbs, Int.natAbs_tdiv]
  exact_mod_cast Nat.div_le_self _ _

theorem abs_tdiv_le (hb : 0 < b) (h : |a| ≤ c * b) : |a.tdiv b| ≤ c := by
  rw [Int.abs_eq_natAbs, Int.natAbs_tdiv]
  have hc : 0 ≤ c := nonneg_of_mul_nonneg_left ((abs_nonneg a).trans h) hb
  obtain ⟨n, rfl⟩ := Int.eq_ofNat_of_zero_le hc
  obtain ⟨d, rfl⟩ := Int.eq_ofNat_of_zero_le hb.le
  rw [Int.abs_eq_natAbs] at h
  have hle : a.natAbs ≤ n * d := by exact_mod_cast h
  exact_mod_cast Nat.div_le_of_le_mul (by rwa [mul_comm] at hle)

theorem fineOne_pos : 0 < fineOne := by decide

theorem abs_fineProduct_le {k : Int} (hp : |p| ≤ c) (hz : |z| ≤ k * fineOne) :
    |fineProduct p z| ≤ c * k := by
  refine abs_tdiv_le fineOne_pos ?_
  rw [abs_mul, mul_assoc]
  exact mul_le_mul hp hz (abs_nonneg z) ((abs_nonneg p).trans hp)

namespace Series

theorem abs_sumFrom_le (S : Series) (I : Term → Prop) (hadd : ∀ t, I t → |S.addend t| ≤ b)
    (hnext : ∀ t, I t → I (S.next t)) (turns : Nat) (t : Term) (ht : I t) :
    |S.sumFrom turns t| ≤ turns * b := by
  induction turns generalizing t with
  | zero => simp [sumFrom]
  | succ turns ih =>
    have hb : 0 ≤ b := (abs_nonneg _).trans (hadd t ht)
    rw [sumFrom]
    split
    · rw [abs_zero]
      positivity
    · calc |S.addend t + S.sumFrom turns (S.next t)|
          ≤ |S.addend t| + |S.sumFrom turns (S.next t)| := abs_add_le _ _
        _ ≤ b + turns * b := add_le_add (hadd t ht) (ih _ (hnext t ht))
        _ = (turns + 1 : ℕ) * b := by push_cast; ring

theorem abs_sum_le (S : Series) (I : Term → Prop) (hadd : ∀ t, I t → |S.addend t| ≤ b)
    (hnext : ∀ t, I t → I (S.next t)) (hstart : I S.start) : |S.sum| ≤ 128 * b :=
  S.abs_sumFrom_le I hadd hnext turnLimit S.start hstart

/-- Where each term takes back no more than the one before it has given, the sum lies between zero
and its first term. -/
theorem sumFrom_mem_uIcc (S : Series) (I : Term → Prop)
    (hnext : ∀ t, I t → I (S.next t) ∧ S.addend (S.next t) ∈ Set.uIcc 0 (-S.addend t))
    (turns : Nat) (t : Term) (ht : I t) : S.sumFrom turns t ∈ Set.uIcc 0 (S.addend t) := by
  induction turns generalizing t with
  | zero => exact Set.left_mem_uIcc
  | succ turns ih =>
    rw [sumFrom]
    split
    · exact Set.left_mem_uIcc
    · obtain ⟨hinvariant, hsmaller⟩ := hnext t ht
      have hrest := ih (S.next t) hinvariant
      rw [Set.mem_uIcc] at hsmaller hrest ⊢
      omega

end Series

theorem abs_divided_le (t : Term) : |t.divided| ≤ |t.power| := abs_tdiv_le_abs _ _

theorem abs_alternating_le (t : Term) : |t.alternating| ≤ |t.power| := by
  unfold Term.alternating
  split
  · exact abs_divided_le t
  · rw [abs_neg]
    exact abs_divided_le t

theorem abs_oddNext_le {t : Term} (hz : |z| ≤ fineOne) (ht : |t.power| ≤ fineOne) :
    |(oddNext (fineProduct z z) t).power| ≤ fineOne := by
  have hsquare : |fineProduct z z| ≤ fineOne * 1 := abs_fineProduct_le hz (by rwa [one_mul])
  rw [← mul_one fineOne]
  exact abs_fineProduct_le ht (by rwa [one_mul, ← mul_one fineOne])

theorem abs_artanhSeries_le (hz : |z| ≤ fineOne) : |(artanhSeries z).sum| ≤ 128 * fineOne :=
  Series.abs_sum_le _ (fun t => |t.power| ≤ fineOne) (fun t => (abs_divided_le t).trans)
    (fun _ => abs_oddNext_le hz) hz

theorem abs_arctanSeries_le (hz : |z| ≤ fineOne) : |(arctanSeries z).sum| ≤ 128 * fineOne :=
  Series.abs_sum_le _ (fun t => |t.power| ≤ fineOne) (fun t => (abs_alternating_le t).trans)
    (fun _ => abs_oddNext_le hz) hz

theorem abs_expSeries_le (hr : |r| ≤ fineOne) : |(expSeries r).sum| ≤ 128 * fineOne := by
  refine Series.abs_sum_le _ (fun t => 1 ≤ t.index ∧ |t.power| ≤ fineOne) (fun t ht => ht.2)
    (fun t ht => ⟨t.index.succ_pos, ?_⟩) ⟨le_rfl, (abs_of_pos fineOne_pos).le⟩
  have hindex : (1 : Int) ≤ t.index := by exact_mod_cast ht.1
  refine abs_tdiv_le (mul_pos fineOne_pos (by omega)) ?_
  rw [abs_mul]
  refine mul_le_mul ht.2 (hr.trans ?_) (abs_nonneg r) fineOne_pos.le
  exact le_mul_of_one_le_right fineOne_pos.le hindex

/-- The first term of the cosine may be doubled, and no term after it grows. -/
theorem abs_circularNext_le {t : Term} (hx : |x| ≤ 2 * fineOne)
    (hzero : t.index = 0 → |t.power| ≤ fineOne) (ht : |t.power| ≤ 2 * fineOne) :
    |(circularNext (fineProduct x x) t).power| ≤ 2 * fineOne := by
  have hsquare : |fineProduct x x| ≤ 2 * fineOne * 2 := abs_fineProduct_le hx hx
  have hone := fineOne_pos
  refine abs_tdiv_le (mul_pos hone (by positivity)) ?_
  rw [abs_neg, abs_mul]
  rcases Nat.eq_zero_or_pos t.index with hindex | hindex
  · calc |t.power| * |fineProduct x x| ≤ fineOne * (2 * fineOne * 2) :=
          mul_le_mul (hzero hindex) hsquare (abs_nonneg _) hone.le
      _ = 2 * fineOne * (fineOne * ((t.index + 1) * (t.index + 2) : Nat)) := by
          rw [hindex]
          push_cast
          ring
  · have hsix : 4 ≤ (((t.index + 1) * (t.index + 2) : Nat) : Int) := by
      have hmul := Nat.mul_le_mul (by omega : 2 ≤ t.index + 1) (by omega : 2 ≤ t.index + 2)
      exact_mod_cast hmul
    calc |t.power| * |fineProduct x x| ≤ 2 * fineOne * (2 * fineOne * 2) :=
          mul_le_mul ht hsquare (abs_nonneg _) (by positivity)
      _ = 2 * fineOne * (fineOne * 4) := by ring
      _ ≤ 2 * fineOne * (fineOne * ((t.index + 1) * (t.index + 2) : Nat)) :=
          mul_le_mul_of_nonneg_left (mul_le_mul_of_nonneg_left hsix hone.le) (by positivity)

theorem abs_sinSeries_le (hx : |x| ≤ 2 * fineOne) :
    |(sinSeries x).sum| ≤ 128 * (2 * fineOne) :=
  Series.abs_sum_le _ (fun t => t.index ≠ 0 ∧ |t.power| ≤ 2 * fineOne) (fun _ ht => ht.2)
    (fun t ht => ⟨(t.index + 1).succ_ne_zero, abs_circularNext_le hx (absurd · ht.1) ht.2⟩)
    ⟨Nat.one_ne_zero, hx⟩

theorem abs_cosSeries_le (hx : |x| ≤ 2 * fineOne) :
    |(cosSeries x).sum| ≤ 128 * (2 * fineOne) := by
  refine Series.abs_sum_le _
    (fun t => (t.index = 0 → |t.power| ≤ fineOne) ∧ |t.power| ≤ 2 * fineOne) (fun _ ht => ht.2)
    (fun t ht => ⟨nofun, abs_circularNext_le hx ht.1 ht.2⟩) ⟨fun _ => ?_, ?_⟩
  · exact (abs_of_pos fineOne_pos).le
  · have hone := fineOne_pos
    exact (abs_of_pos hone).le.trans (by omega)

end Reckoner.Decimal
