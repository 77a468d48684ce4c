import Reckoner.Proofs.Outcome
import Reckoner.Proofs.Text.Words
import Reckoner.Token.Basic

set_option autoImplicit false

namespace Reckoner.Token

open Text

variable {c : Char} {cs : List Char} {position : Nat} {ts : List Token}

theorem toNat_of_isWordStart (h : isWordStart c = true) : 65 ≤ c.toNat ∧ c.toNat ≤ 122 := by
  simp only [isWordStart, Char.isAlpha, Char.isUpper, Char.isLower, Bool.or_eq_true,
    Bool.and_eq_true, decide_eq_true_eq, ge_iff_le, UInt32.le_iff_toNat_le] at h
  unfold Char.toNat
  rcases h with (⟨h1, h2⟩ | ⟨h1, h2⟩) | rfl
  · exact ⟨h1, h2.trans (by decide)⟩
  · exact ⟨le_trans (by decide) h1, h2⟩
  · decide

theorem isWordStart_of_isBlank (h : isBlank c = true) : isWordStart c = false := by
  by_contra hstart
  have := toNat_of_isWordStart (Bool.of_not_eq_false hstart)
  simp only [isBlank, blankRanges, List.any_cons, List.any_nil, Bool.or_eq_true,
    Bool.and_eq_true, decide_eq_true_eq, Bool.false_eq_true, or_false] at h
  omega

theorem isWordStart_of_symbol? {kind : Kind} (h : symbol? c = some kind) :
    isWordStart c = false := by
  unfold symbol? at h
  split at h
  all_goals first | decide | cases h

theorem symbol?_plain {kind : Kind} (h : symbol? c = some kind) :
    (∀ name, kind ≠ .word name) ∧ ∀ units, kind ≠ .number units := by
  unfold symbol? at h
  split at h <;> cases h <;> exact ⟨nofun, nofun⟩

theorem isWordStart_of_isDigit (h : c.isDigit = true) : isWordStart c = false := by
  by_contra hstart
  have := toNat_of_isWordStart (Bool.of_not_eq_false hstart)
  simp only [Char.isDigit, Bool.and_eq_true, decide_eq_true_eq, ge_iff_le,
    UInt32.le_iff_toNat_le] at h
  have : c.toNat ≤ 57 := h.2
  omega

theorem takeLiteral_append (cs : List Char) :
    (takeLiteral cs).1.chars ++ (takeLiteral cs).2 = cs := by
  have h (xs : List Char) : xs.takeWhile Char.isDigit ++ xs.dropWhile Char.isDigit = xs :=
    List.takeWhile_append_dropWhile
  unfold takeLiteral
  split
  · next rest e =>
    change (cs.takeWhile Char.isDigit ++ '.' :: rest.takeWhile Char.isDigit) ++
      rest.dropWhile Char.isDigit = cs
    rw [List.append_assoc, List.cons_append, h rest, ← e, h cs]
  · exact h cs

theorem isDigit_or_point_of_mem_takeLiteral (h : c ∈ (takeLiteral cs).1.chars) :
    c.isDigit = true ∨ c = '.' := by
  have hdigit (xs : List Char) (hc : c ∈ xs.takeWhile Char.isDigit) : c.isDigit = true :=
    List.mem_takeWhile_imp hc
  unfold takeLiteral at h
  split at h
  · next rest e =>
    rcases List.mem_append.mp h with h | h
    · exact .inl (hdigit cs h)
    · rcases List.mem_cons.mp h with rfl | h
      · exact .inr rfl
      · exact .inl (hdigit rest h)
  · exact .inl (hdigit cs h)

theorem isWordStart_of_number (h : c.isDigit = true ∨ c = '.') : isWordStart c = false := by
  rcases h with h | rfl
  · exact isWordStart_of_isDigit h
  · decide

theorem isWordStart_of_mem_takeLiteral (h : c ∈ (takeLiteral cs).1.chars) :
    isWordStart c = false :=
  isWordStart_of_number (isDigit_or_point_of_mem_takeLiteral h)

theorem scan_error {e : EvalError} (h : scan position cs = .error e) :
    ∃ c p, e = .malformed (.unexpectedCharacter c p) := by
  fun_induction scan position cs with
  | case1 => cases h
  | case2 _ _ _ _ ih => exact ih h
  | case3 _ _ _ _ _ _ ih => exact ih (map_eq_error_iff.mp h)
  | case4 _ _ _ _ _ _ _ _ ih => exact ih (map_eq_error_iff.mp h)
  | case5 _ _ _ _ _ _ _ _ _ ih => exact ih (map_eq_error_iff.mp h)
  | case6 position c =>
    cases h
    exact ⟨c, position, rfl⟩

/-- The word that a token is, with the byte of the text at which it begins. -/
def wordIn? (cs : List Char) (t : Token) : Option (Nat × String) :=
  match t.kind with
  | .word name => some ((String.ofList (cs.take t.position)).utf8ByteSize, name)
  | _ => none

theorem wordIn?_eq_none {t : Token} (h : ∀ name, t.kind ≠ .word name) : wordIn? cs t = none := by
  unfold wordIn?
  split
  · next name hname => exact absurd hname (h name)
  · rfl

theorem wordIn?_append {before : List Char} (name text : String) (h : before.length = position) :
    wordIn? (before ++ cs) ⟨.word name, position, text⟩ = some (String.utf8Len before, name) := by
  simp [wordIn?, String.utf8ByteSize_ofList, ← h]

/-- Scanning on behind a text finds the words of the rest, at their bytes in the whole. -/
theorem scan_words {before : List Char} (h : scan position cs = .ok ts)
    (hposition : before.length = position) :
    ts.filterMap (wordIn? (before ++ cs)) = locatedWords (String.utf8Len before) (pieces cs) := by
  fun_induction scan position cs generalizing ts before with
  | case1 =>
    cases h
    rw [pieces_nil]
    rfl
  | case2 position c rest hblank ih =>
    have htail := @ih ts (before ++ [c]) h (by simp [hposition])
    rw [pieces_other (isWordStart_of_isBlank hblank), locatedWords_other]
    simpa using htail
  | case3 position c rest hblank kind hkind ih =>
    obtain ⟨us, hus, rfl⟩ := map_eq_ok_iff.mp h
    have htail := @ih us (before ++ [c]) hus (by simp [hposition])
    have hnone : wordIn? (before ++ c :: rest) ⟨kind, position, c.toString⟩ = none :=
      wordIn?_eq_none (symbol?_plain hkind).1
    rw [List.filterMap_cons_none hnone, pieces_other (isWordStart_of_symbol? hkind),
      locatedWords_other]
    simpa using htail
  | case4 position c rest _ _ hstart letters =>
    rename_i name ih
    obtain ⟨us, hus, rfl⟩ := map_eq_ok_iff.mp h
    have htail := @ih us (before ++ letters) hus (by simp [hposition])
    have hcut : letters ++ rest.dropWhile isWordPart = c :: rest := by
      simp [letters]
    rw [List.append_assoc, hcut, String.utf8Len_append] at htail
    rw [List.filterMap_cons_some (wordIn?_append name name hposition), pieces_word hstart,
      locatedWords_word, htail]
  | case5 position c rest _ _ _ _ parts =>
    rename_i chars ih
    obtain ⟨us, hus, rfl⟩ := map_eq_ok_iff.mp h
    have htail := @ih us (before ++ chars) hus (by simp [hposition])
    have hcut : chars ++ parts.2 = c :: rest := takeLiteral_append (c :: rest)
    rw [List.append_assoc, hcut, String.utf8Len_append] at htail
    have hnone : wordIn? (before ++ c :: rest) ⟨.number parts.1.value, position,
        String.ofList chars⟩ = none := wordIn?_eq_none fun name => nofun
    rw [List.filterMap_cons_none hnone, htail, ← hcut,
      pieces_append_others fun d => isWordStart_of_mem_takeLiteral, locatedWords_others]
  | case6 => cases h

theorem words_of_ofText {s : String} (h : ofText s = .ok ts) :
    ts.filterMap (wordIn? s.toList) = words s :=
  @scan_words s.toList 0 ts [] h rfl

end Reckoner.Token
