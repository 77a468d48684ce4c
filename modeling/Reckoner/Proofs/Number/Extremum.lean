import Reckoner.Proofs.Catalogue
import Reckoner.Proofs.Number.Order

set_option autoImplicit false

namespace Reckoner

namespace Number

variable {a b c v w best : Number} {wanted : Ordering} {args rest : List Number}

def Leads (wanted : Ordering) (a b : Number) : Prop :=
  a.compare b = some wanted ∨ a.compare b = some .eq

theorem leads_lt_iff : Leads .lt a b ↔ a ≤ b := le_iff_compare.symm

theorem leads_gt_iff : Leads .gt a b ↔ b ≤ a := ge_iff_compare.symm

section Strict

variable (hwanted : wanted ≠ .eq)

include hwanted

theorem leads_refl (ha : a ≠ .nan) : Leads wanted a a := by
  cases wanted with
  | lt => exact leads_lt_iff.mpr (Number.le_refl ha)
  | gt => exact leads_gt_iff.mpr (Number.le_refl ha)
  | eq => exact absurd rfl hwanted

theorem Leads.trans (hab : Leads wanted a b) (hbc : Leads wanted b c) : Leads wanted a c := by
  cases wanted with
  | lt => exact leads_lt_iff.mpr (Number.le_trans (leads_lt_iff.mp hab) (leads_lt_iff.mp hbc))
  | gt => exact leads_gt_iff.mpr (Number.le_trans (leads_gt_iff.mp hbc) (leads_gt_iff.mp hab))
  | eq => exact absurd rfl hwanted

theorem Leads.antisymm (hab : Leads wanted a b) (hba : Leads wanted b a) : a = b := by
  cases wanted with
  | lt => exact Number.le_antisymm (leads_lt_iff.mp hab) (leads_lt_iff.mp hba)
  | gt => exact Number.le_antisymm (leads_gt_iff.mp hba) (leads_gt_iff.mp hab)
  | eq => exact absurd rfl hwanted

theorem leads_of_compare {o : Ordering} (h : a.compare b = some o) (ho : o ≠ wanted) :
    Leads wanted b a := by
  cases wanted with
  | lt =>
    refine leads_lt_iff.mpr (ge_iff_compare.mpr ?_)
    cases o with
    | lt => exact absurd rfl ho
    | eq => exact .inr h
    | gt => exact .inl h
  | gt =>
    refine leads_gt_iff.mpr (le_iff_compare.mpr ?_)
    cases o with
    | lt => exact .inl h
    | eq => exact .inr h
    | gt => exact absurd rfl ho
  | eq => exact absurd rfl hwanted

/-- What a step of the scan keeps leads what it drops. -/
theorem leads_kept {o : Ordering} (h : a.compare best = some o) :
    Leads wanted (if o = wanted then a else best) best ∧
      Leads wanted (if o = wanted then a else best) a := by
  obtain ⟨ha, hbest⟩ := ne_nan_of_compare h
  split
  · next ho =>
    rw [ho] at h
    exact ⟨.inl h, leads_refl hwanted ha⟩
  · next ho => exact ⟨leads_refl hwanted hbest, leads_of_compare hwanted h ho⟩

end Strict

theorem extremum_cons {o : Ordering} (h : a.compare best = some o) (rest : List Number) :
    extremum wanted best (a :: rest) =
      extremum wanted (if o = wanted then a else best) rest := by
  rw [extremum, h]

theorem extremum_of_nan (h : .nan ∈ best :: rest) : extremum wanted best rest = .nan := by
  induction rest generalizing best with
  | nil => exact (List.mem_singleton.mp h).symm
  | cons a rest ih =>
    cases hcompare : a.compare best with
    | none => rw [extremum, hcompare]
    | some o =>
      obtain ⟨ha, hbest⟩ := ne_nan_of_compare hcompare
      have hrest : .nan ∈ rest :=
        List.mem_of_ne_of_mem ha.symm (List.mem_of_ne_of_mem hbest.symm h)
      rw [extremum_cons hcompare]
      exact ih (List.mem_cons_of_mem _ hrest)

/-- One of the arguments, and leading all of them. -/
structure IsExtremum (wanted : Ordering) (v : Number) (args : List Number) : Prop where
  mem : v ∈ args
  leads : ∀ a ∈ args, Leads wanted v a

theorem IsExtremum.unique (hwanted : wanted ≠ .eq) (hv : IsExtremum wanted v args)
    (hw : IsExtremum wanted w args) : v = w :=
  (hv.leads w hw.mem).antisymm hwanted (hw.leads v hv.mem)

theorem IsExtremum.perm {args' : List Number} (h : IsExtremum wanted v args)
    (hperm : args.Perm args') : IsExtremum wanted v args' :=
  ⟨hperm.mem_iff.mp h.mem, fun a ha => h.leads a (hperm.mem_iff.mpr ha)⟩

/-- The least so far stands for the arguments that have been passed. -/
theorem isExtremum_cons_cons (hwanted : wanted ≠ .eq) {next : Number}
    (h : IsExtremum wanted v (next :: rest)) (hnext : next = a ∨ next = best)
    (hbest : Leads wanted next best) (ha : Leads wanted next a) :
    IsExtremum wanted v (best :: a :: rest) := by
  have hv := h.leads next List.mem_cons_self
  constructor
  · rcases List.mem_cons.mp h.mem with rfl | hmem
    · rcases hnext with rfl | rfl
      · exact List.mem_cons_of_mem _ List.mem_cons_self
      · exact List.mem_cons_self
    · exact List.mem_cons_of_mem _ (List.mem_cons_of_mem _ hmem)
  · intro b hb
    rcases List.mem_cons.mp hb with rfl | hb
    · exact hv.trans hwanted hbest
    · rcases List.mem_cons.mp hb with rfl | hb
      · exact hv.trans hwanted ha
      · exact h.leads b (List.mem_cons_of_mem _ hb)

theorem isExtremum_extremum (hwanted : wanted ≠ .eq) (h : .nan ∉ best :: rest) :
    IsExtremum wanted (extremum wanted best rest) (best :: rest) := by
  induction rest generalizing best with
  | nil =>
    rw [List.mem_singleton] at h
    refine ⟨List.mem_singleton_self best, fun a ha => ?_⟩
    rw [List.mem_singleton.mp ha]
    exact leads_refl hwanted (Ne.symm h)
  | cons a rest ih =>
    rw [List.mem_cons, List.mem_cons, not_or, not_or] at h
    obtain ⟨hbest, ha, hrest⟩ := h
    cases hcompare : a.compare best with
    | none => exact absurd (compare_eq_none_iff.mp hcompare) (by tauto)
    | some o =>
      obtain ⟨hleads_best, hleads_a⟩ := leads_kept hwanted hcompare
      have hkept := ite_eq_or_eq (o = wanted) a best
      rw [extremum_cons hcompare]
      -- Which of the two is kept does not matter any more, only that it leads both.
      generalize (if o = wanted then a else best) = next at *
      refine isExtremum_cons_cons hwanted (ih ?_) hkept hleads_best hleads_a
      rw [List.mem_cons, not_or]
      refine ⟨?_, hrest⟩
      rcases hkept with rfl | rfl
      · exact ha
      · exact hbest

theorem extremum_eq_nan_iff (hwanted : wanted ≠ .eq) :
    extremum wanted best rest = .nan ↔ .nan ∈ best :: rest := by
  refine ⟨fun h => ?_, extremum_of_nan⟩
  by_contra hmem
  exact hmem (h ▸ (isExtremum_extremum hwanted hmem).mem)

theorem extremum_perm (hwanted : wanted ≠ .eq) {first : Number} {others : List Number}
    (hperm : (best :: rest).Perm (first :: others)) :
    extremum wanted best rest = extremum wanted first others := by
  -- Both scans are judged by their lists alone, no step of one by a step of the other.
  by_cases h : .nan ∈ best :: rest
  · rw [extremum_of_nan h, extremum_of_nan (hperm.mem_iff.mp h)]
  · have hfirst := isExtremum_extremum hwanted h
    have hsecond := isExtremum_extremum hwanted (mt hperm.mem_iff.mpr h)
    exact (hfirst.perm hperm).unique hwanted hsecond

end Number

namespace Catalogue

open Number

theorem apply_min (x : Number) (rest : List Number) :
    apply "min" (x :: rest) = .ok (extremum .lt x rest) := apply_name .min _

theorem apply_max (x : Number) (rest : List Number) :
    apply "max" (x :: rest) = .ok (extremum .gt x rest) := apply_name .max _

/-- Of any number of arguments, the least and the greatest: NaN where one of them is NaN, and
otherwise the argument that stands at that end of the order -∞ < decimals < +∞, whatever the order in
which they are given. -/
theorem min_max_extreme (args : List Number) (hargs : args ≠ []) :
    ∃ least greatest, apply "min" args = .ok least ∧ apply "max" args = .ok greatest ∧
      (least = .nan ↔ .nan ∈ args) ∧ (greatest = .nan ↔ .nan ∈ args) ∧
      (.nan ∉ args → (least ∈ args ∧ ∀ a ∈ args, least ≤ a) ∧
        greatest ∈ args ∧ ∀ a ∈ args, a ≤ greatest) ∧
      ∀ args' : List Number, args'.Perm args →
        apply "min" args' = .ok least ∧ apply "max" args' = .ok greatest := by
  obtain ⟨x, rest, rfl⟩ := List.exists_cons_of_ne_nil hargs
  have hlt : Ordering.lt ≠ .eq := nofun
  have hgt : Ordering.gt ≠ .eq := nofun
  refine ⟨_, _, apply_min x rest, apply_max x rest, extremum_eq_nan_iff hlt,
    extremum_eq_nan_iff hgt, fun h => ?_, fun args' hperm => ?_⟩
  · obtain ⟨hleast, hleast_le⟩ := isExtremum_extremum hlt h
    obtain ⟨hgreatest, hle_greatest⟩ := isExtremum_extremum hgt h
    exact ⟨⟨hleast, fun a ha => leads_lt_iff.mp (hleast_le a ha)⟩, hgreatest,
      fun a ha => leads_gt_iff.mp (hle_greatest a ha)⟩
  · obtain ⟨y, others, rfl⟩ : ∃ y others, args' = y :: others :=
      List.exists_cons_of_ne_nil fun hnil => by simp [hnil] at hperm
    rw [apply_min, apply_max, extremum_perm hlt hperm, extremum_perm hgt hperm]
    exact ⟨rfl, rfl⟩

theorem min_max_extreme_shuffled :
    apply "min" [.finite 3, .posInf, .negInf, .finite 3] = .ok .negInf ∧
      apply "min" [.posInf, .finite 3, .finite 3, .negInf] = .ok .negInf := by
  obtain ⟨least, greatest, hleast, -, -, -, -, hperm⟩ :=
    min_max_extreme [.finite 3, .posInf, .negInf, .finite 3] nofun
  have hvalue : apply "min" [.finite 3, .posInf, .negInf, .finite 3] = .ok .negInf :=
    apply_min _ _
  obtain rfl := Except.ok.inj (hleast.symm.trans hvalue)
  exact ⟨hvalue, (hperm _ (by decide)).1⟩

end Catalogue

end Reckoner
