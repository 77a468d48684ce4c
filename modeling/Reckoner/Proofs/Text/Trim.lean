import Mathlib.Data.List.TakeWhile
import Reckoner.Text.Word

set_option autoImplicit false

namespace Reckoner.Text

variable {cs : List Char} {s : String}

theorem head?_dropWhile_isBlank (cs : List Char) :
    ∀ c ∈ (cs.dropWhile isBlank).head?, isBlank c = false := by
  intro c hc
  have h := List.head?_dropWhile_not isBlank cs
  rw [hc] at h
  simpa using h

theorem dropWhile_isBlank_eq_self (h : ∀ c ∈ cs.head?, isBlank c = false) :
    cs.dropWhile isBlank = cs := by
  cases cs with
  | nil => rfl
  | cons c cs => rw [List.dropWhile_cons_of_neg (by simp [h c rfl])]

theorem trimChars_eq_self (hhead : ∀ c ∈ cs.head?, isBlank c = false)
    (hlast : ∀ c ∈ cs.getLast?, isBlank c = false) : trimChars cs = cs := by
  rw [← List.head?_reverse] at hlast
  rw [trimChars, trimLeft, dropWhile_isBlank_eq_self hhead, trimRight,
    dropWhile_isBlank_eq_self hlast, List.reverse_reverse]

theorem trimRight_append (cs : List Char) :
    trimRight cs ++ (cs.reverse.takeWhile isBlank).reverse = cs := by
  rw [trimRight, ← List.reverse_append, List.takeWhile_append_dropWhile, List.reverse_reverse]

theorem head?_trimChars (cs : List Char) : ∀ c ∈ (trimChars cs).head?, isBlank c = false := by
  intro c hc
  refine head?_dropWhile_isBlank cs c ?_
  have h := trimRight_append (trimLeft cs)
  rw [← trimLeft, ← h, List.head?_append, show (trimRight (trimLeft cs)).head? = some c from hc]
  rfl

theorem getLast?_trimChars (cs : List Char) : ∀ c ∈ (trimChars cs).getLast?, isBlank c = false := by
  intro c hc
  rw [trimChars, trimRight, List.getLast?_reverse] at hc
  exact head?_dropWhile_isBlank _ c hc

theorem trim_trim (s : String) : trim (trim s) = trim s := by
  rw [trim, trim, String.toList_ofList, trimChars_eq_self (head?_trimChars _) (getLast?_trimChars _)]

theorem exists_blanks_trim (cs : List Char) : ∃ lead trail, cs = lead ++ trimChars cs ++ trail ∧
    (∀ b ∈ lead, isBlank b = true) ∧ ∀ b ∈ trail, isBlank b = true := by
  refine ⟨cs.takeWhile isBlank, ((trimLeft cs).reverse.takeWhile isBlank).reverse, ?_, ?_, ?_⟩
  · rw [List.append_assoc, trimChars, trimRight_append, trimLeft, List.takeWhile_append_dropWhile]
  · exact fun b hb => List.mem_takeWhile_imp hb
  · exact fun b hb => List.mem_takeWhile_imp (List.mem_reverse.mp hb)

theorem trimChars_append {bs : List Char} (hbs : ∀ b ∈ bs, isBlank b = true) (cs : List Char) :
    trimChars (cs ++ bs) = trimChars cs := by
  have hend (xs : List Char) : trimRight (xs ++ bs) = trimRight xs := by
    rw [trimRight, List.reverse_append,
      List.dropWhile_append_of_pos fun b hb => hbs b (List.mem_reverse.mp hb), trimRight]
  rw [trimChars, trimChars, trimLeft, trimLeft, List.dropWhile_append]
  split
  · next hnil =>
    rw [List.isEmpty_iff.mp hnil, List.dropWhile_eq_nil_iff.mpr hbs]
  · exact hend _

theorem trim_append {ending : String} (h : ∀ c ∈ ending.toList, isBlank c = true) (w : String) :
    trim (w ++ ending) = trim w := by
  rw [trim, trim, String.toList_append, trimChars_append h]

theorem trim_eq_self_of_length (h : (trim s).length = s.length) : trim s = s := by
  obtain ⟨lead, trail, hs, -, -⟩ := exists_blanks_trim s.toList
  have hlength := congrArg List.length hs
  rw [trim, String.length_ofList, ← String.length_toList] at h
  simp only [List.length_append] at hlength
  have hlead : lead = [] := List.eq_nil_of_length_eq_zero (by omega)
  have htrail : trail = [] := List.eq_nil_of_length_eq_zero (by omega)
  rw [hlead, htrail, List.nil_append, List.append_nil] at hs
  rw [trim, ← hs, String.ofList_toList]

end Reckoner.Text
