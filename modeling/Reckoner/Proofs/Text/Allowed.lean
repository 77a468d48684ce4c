import Mathlib
import Reckoner.Proofs.Catalogue

set_option autoImplicit false

namespace Reckoner

theorem lowercase_lowercase (w : String) : lowercase (lowercase w) = lowercase w := by
  simp [lowercase, Function.comp_def]

theorem uppercase_lowercase (w : String) : uppercase (lowercase w) = uppercase w := by
  simp [lowercase, uppercase, Function.comp_def]

theorem lowercase_uppercase (w : String) : lowercase (uppercase w) = lowercase w := by
  simp [lowercase, uppercase, Function.comp_def]

theorem Function.lowercase_name (f : Function) : lowercase f.name = f.name := by
  cases f with
  | unary u => cases u <;> decide
  | log | round | pow | min | max => decide

theorem Constant.uppercase_name (c : Constant) : uppercase c.name = c.name := by
  cases c <;> decide

theorem Function.find?_constant (c : Constant) : Function.find? c.name = none := by
  cases c <;> decide

namespace Catalogue

variable {w name : String}

/-- The word is an allowed name up to the case of its ASCII letters. -/
def Allowed (w : String) : Prop := ∃ name, contains name = true ∧ lowercase name = lowercase w

theorem contains_function (f : Function) : contains f.name = true := by
  simp [contains, f.named?_name]

theorem contains_constant (c : Constant) : contains c.name = true := by
  simp [contains, c.named?_name]

theorem contains_cases (h : contains w = true) :
    (∃ f : Function, f.name = w) ∨ ∃ c : Constant, c.name = w := by
  simp only [contains, Bool.or_eq_true, Option.isSome_iff_exists] at h
  rcases h with ⟨f, hf⟩ | ⟨c, hc⟩
  · exact .inl ⟨f, Function.name_of_named? hf⟩
  · exact .inr ⟨c, Constant.name_of_named? hc⟩

theorem canonical?_eq_some_iff : canonical? w = some name ↔
    (∃ f : Function, f.name = lowercase w ∧ name = f.name) ∨
      (Function.find? w = none ∧ ∃ c : Constant, c.name = uppercase w ∧ name = c.name) := by
  unfold canonical?
  cases hf : Function.find? w with
  | some f =>
    have hname := Function.name_of_named? hf
    constructor
    · intro h
      exact .inl ⟨f, hname, (Option.some.inj h).symm⟩
    · rintro (⟨g, hg, rfl⟩ | ⟨h, -⟩)
      · change some f.name = some g.name
        rw [hname, hg]
      · cases h
  | none =>
    have hnone (f : Function) : f.name ≠ lowercase w := by
      intro h
      rw [Function.find?, ← h, f.named?_name] at hf
      cases hf
    constructor
    · intro h
      obtain ⟨c, hc, rfl⟩ := Option.map_eq_some_iff.mp h
      exact .inr ⟨rfl, c, Constant.name_of_named? hc, rfl⟩
    · rintro (⟨f, hf, -⟩ | ⟨-, c, hc, rfl⟩)
      · exact absurd hf (hnone f)
      · rw [Constant.find?, ← hc, c.named?_name]
        rfl

theorem contains_of_canonical? (h : canonical? w = some name) :
    contains name = true ∧ lowercase name = lowercase w := by
  rcases canonical?_eq_some_iff.mp h with ⟨f, hf, rfl⟩ | ⟨-, c, hc, rfl⟩
  · exact ⟨contains_function f, by rw [hf, lowercase_lowercase]⟩
  · exact ⟨contains_constant c, by rw [hc, lowercase_uppercase]⟩

theorem canonical?_isSome_iff : (canonical? w).isSome = true ↔ Allowed w := by
  rw [Option.isSome_iff_exists]
  constructor
  · rintro ⟨name, h⟩
    exact ⟨name, contains_of_canonical? h⟩
  · rintro ⟨name, hname, hcase⟩
    rcases contains_cases hname with ⟨f, rfl⟩ | ⟨c, rfl⟩
    · exact ⟨_, canonical?_eq_some_iff.mpr (.inl ⟨f, by rw [← hcase, f.lowercase_name], rfl⟩)⟩
    · refine ⟨_, canonical?_eq_some_iff.mpr (.inr ⟨?_, c, ?_, rfl⟩)⟩
      · rw [Function.find?, ← hcase]
        exact Function.find?_constant c
      · rw [← uppercase_lowercase w, ← hcase, uppercase_lowercase, c.uppercase_name]

theorem canonical?_of_contains (h : contains w = true) : canonical? w = some w := by
  rcases contains_cases h with ⟨f, rfl⟩ | ⟨c, rfl⟩
  · exact canonical?_eq_some_iff.mpr (.inl ⟨f, f.lowercase_name.symm, rfl⟩)
  · exact canonical?_eq_some_iff.mpr
      (.inr ⟨Function.find?_constant c, c, c.uppercase_name.symm, rfl⟩)

theorem contains_canonicalWord_iff : contains (canonicalWord w) = true ↔ Allowed w := by
  rw [← canonical?_isSome_iff]
  unfold canonicalWord
  cases h : canonical? w with
  | some name => simpa using (contains_of_canonical? h).1
  | none =>
    constructor
    · intro hw
      rw [Option.getD_none] at hw
      rw [canonical?_of_contains hw] at h
      cases h
    · exact nofun

theorem canonicalWord_of_not_allowed (h : ¬Allowed w) : canonicalWord w = w := by
  rw [← canonical?_isSome_iff, Option.not_isSome_iff_eq_none] at h
  rw [canonicalWord, h, Option.getD_none]

end Catalogue

end Reckoner
