import Reckoner.Proofs.Allowlist
import Reckoner.Proofs.Text.Case

set_option autoImplicit false

namespace Reckoner.Evaluator

variable {ev : Evaluator} {s t w : String}

theorem normalize_lowercase (hs : ∀ w, ¬ev.RefusedFor s w) :
    ev.normalize (lowercase s) = ev.normalize s := by
  have hempty : lowercase (Text.trim s) = "" ↔ Text.trim s = "" := by
    rw [← String.length_eq_zero_iff, length_lowercase, String.length_eq_zero_iff]
  rw [normalize_eq, normalize_eq, Text.trim_lowercase, length_lowercase]
  by_cases hnone : Text.trim s = ""
  · rw [if_pos (hempty.mpr hnone), if_pos hnone]
  rw [if_neg (mt hempty.mp hnone), if_neg hnone]
  by_cases hlong : ev.maxLength < (Text.trim s).length
  · rw [if_pos hlong, if_pos hlong]
  rw [if_neg hlong, if_neg hlong, Text.normalize_lowercase]
  intro w hw
  by_contra hunknown
  obtain ⟨v, hv⟩ := Text.exists_firstUnknown hw hunknown
  exact hs v ⟨hnone, Nat.le_of_not_lt hlong, hv⟩

theorem RefusedFor.recased (hw : ev.RefusedFor s w) (h : lowercase s = lowercase t) :
    ∃ place v, ev.RefusedFor t v ∧ Text.FirstUnknownAt s place w ∧
      Text.FirstUnknownAt t place v ∧ lowercase w = lowercase v := by
  obtain ⟨hnone, hlength, hfirst⟩ := hw
  have hsame : (Text.trim t).length = (Text.trim s).length := by
    refine Text.length_eq_of_lowercase ?_
    rw [← Text.trim_lowercase, ← h, Text.trim_lowercase]
  obtain ⟨place, hplace⟩ := Text.firstUnknown_iff.mp (Text.firstUnknown_trim_iff.mp hfirst)
  obtain ⟨v, hv, hplace'⟩ := hplace.recased h
  refine ⟨place, v, ⟨?_, ?_, ?_⟩, hplace, hplace', hv.symm⟩
  · rwa [ne_eq, ← String.length_eq_zero_iff, hsame, String.length_eq_zero_iff]
  · rwa [hsame]
  · exact Text.firstUnknown_trim_iff.mpr (Text.firstUnknown_iff.mpr ⟨place, hplace'⟩)

/-- Expressions that differ in the case of letters alone evaluate to the same, or are both refused
for the word in the same place. -/
theorem evaluate_recased (ev : Evaluator) (precision : Nat) (h : lowercase s = lowercase t) :
    (ev.evaluate s precision = ev.evaluate t precision ∧
        ∀ w, ev.evaluate s precision ≠ .error (.unknownIdentifier w)) ∨
      ∃ place v w, ev.evaluate s precision = .error (.unknownIdentifier v) ∧
        ev.evaluate t precision = .error (.unknownIdentifier w) ∧
        Text.FirstUnknownAt s place v ∧ Text.FirstUnknownAt t place w ∧
        lowercase v = lowercase w := by
  have hrefused (expression w : String) :
      ev.evaluate expression precision = .error (.unknownIdentifier w) ↔
        ev.RefusedFor expression w :=
    (evaluate_eq_unknown_iff precision).trans normalize_eq_unknown_iff
  by_cases hs : ∃ v, ev.RefusedFor s v
  · obtain ⟨v, hv⟩ := hs
    obtain ⟨place, w, hw, hfirst, hfirst', hcase⟩ := hv.recased h
    exact .inr ⟨place, v, w, (hrefused s v).mpr hv, (hrefused t w).mpr hw, hfirst, hfirst', hcase⟩
  · have hnot : ∀ v, ¬ev.RefusedFor s v := fun v hv => hs ⟨v, hv⟩
    have hnot' : ∀ w, ¬ev.RefusedFor t w := by
      intro w hw
      obtain ⟨_, v, hv, -⟩ := hw.recased h.symm
      exact hnot v hv
    have hnormal : ev.normalize s = ev.normalize t := by
      rw [← normalize_lowercase hnot, h, normalize_lowercase hnot']
    refine .inl ⟨?_, fun w hw => hnot w ((hrefused s w).mp hw)⟩
    rw [evaluate, hnormal, evaluate]

theorem evaluate_recased_sine_and_unknown :
    evaluate {} "2 SIN(Pi/6)" 5 = evaluate {} "2 sin(pI/6)" 5 ∧
      ∃ place v w, evaluate {} "\t2*É+Foo(1)" 5 = .error (.unknownIdentifier v) ∧
        evaluate {} "\t2*É+fOO(1)" 5 = .error (.unknownIdentifier w) ∧
        Text.FirstUnknownAt "\t2*É+Foo(1)" place v ∧ Text.FirstUnknownAt "\t2*É+fOO(1)" place w ∧
        lowercase v = lowercase w := by
  have hvalue : evaluate {} "2 SIN(Pi/6)" 5 = .ok (.finite false 4503599627370496 (-52)) := by
    decide +kernel
  have hword : evaluate {} "\t2*É+Foo(1)" 5 = .error (.unknownIdentifier "Foo") := by
    decide +kernel
  constructor
  · rcases evaluate_recased {} 5 (by decide +kernel : lowercase "2 SIN(Pi/6)" =
      lowercase "2 sin(pI/6)") with ⟨hsame, -⟩ | ⟨_, v, _, hv, -⟩
    · exact hsame
    · rw [hvalue] at hv
      cases hv
  · rcases evaluate_recased {} 5 (by decide +kernel : lowercase "\t2*É+Foo(1)" =
      lowercase "\t2*É+fOO(1)") with ⟨-, hnot⟩ | hwords
    · exact absurd hword (hnot "Foo")
    · exact hwords

end Reckoner.Evaluator
