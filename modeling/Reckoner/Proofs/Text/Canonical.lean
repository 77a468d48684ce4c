import Reckoner.Proofs.Text.Case

set_option autoImplicit false

namespace Reckoner

theorem Catalogue.canonicalWord_eq {w name : String} (hname : contains name = true)
    (hcase : lowercase name = lowercase w) : canonicalWord w = name := by
  rw [← Text.canonicalWord_lowercase ⟨name, hname, hcase⟩, ← hcase,
    Text.canonicalWord_lowercase ⟨name, hname, rfl⟩, canonicalWord_of_contains hname]

theorem Catalogue.canonicalWord_canonicalWord (w : String) :
    canonicalWord (canonicalWord w) = canonicalWord w := by
  by_cases h : Allowed w
  · exact canonicalWord_of_contains (contains_canonicalWord_iff.mpr h)
  · rw [canonicalWord_of_not_allowed h, canonicalWord_of_not_allowed h]

namespace Text

variable {s w : String} {offset i : Nat} {cs : List Char} {ps : List Piece}

/-- One of the words covers the byte at which that character of the list begins, the list itself
beginning at the offset. -/
def Covered (ws : List (Nat × String)) (offset : Nat) (cs : List Char) (i : Nat) : Prop :=
  ∃ p ∈ ws, p.1 ≤ offset + String.utf8Len (cs.take i) ∧
    offset + String.utf8Len (cs.take i) < p.1 + p.2.utf8ByteSize

def InWord (s : String) (i : Nat) : Prop := Covered (words s) 0 s.toList i

theorem utf8Len_take_lt (h : i < cs.length) : String.utf8Len (cs.take i) < String.utf8Len cs := by
  have hsize := Char.utf8Size_pos cs[i]
  conv_rhs => rw [← List.take_append_drop i cs, List.drop_eq_getElem_cons h]
  rw [String.utf8Len_append, String.utf8Len_cons]
  omega

theorem covered_word {letters : List Char} (h : i < letters.length) :
    Covered (locatedWords offset (.word letters :: ps)) offset (letters ++ cs) i := by
  rw [locatedWords_word]
  refine ⟨_, List.mem_cons_self, Nat.le_add_right .., ?_⟩
  rw [List.take_append_of_le_length h.le, String.utf8ByteSize_ofList]
  exact Nat.add_lt_add_left (utf8Len_take_lt h) offset

theorem Covered.behind {p : Piece}
    (h : Covered (locatedWords (offset + p.byteSize) ps) (offset + p.byteSize) cs i) :
    Covered (locatedWords offset (p :: ps)) offset (p.chars ++ cs) (p.chars.length + i) := by
  obtain ⟨q, hq, hle, hlt⟩ := h
  have hlen : String.utf8Len ((p.chars ++ cs).take (p.chars.length + i)) =
      p.byteSize + String.utf8Len (cs.take i) := by
    rw [List.take_length_add_append, String.utf8Len_append, Piece.byteSize,
      String.utf8ByteSize_ofList]
  refine ⟨q, ?_, ?_, ?_⟩
  · unfold locatedWords
    cases p.word? with
    | some w => exact List.mem_cons_of_mem _ hq
    | none => exact hq
  · rwa [hlen, ← Nat.add_assoc]
  · rwa [hlen, ← Nat.add_assoc]

theorem getElem?_joined_canonical (h : ¬Covered (locatedWords offset ps) offset (joined ps) i) :
    (joined (ps.map Piece.canonical))[i]? = (joined ps)[i]? := by
  induction ps generalizing offset i with
  | nil => rfl
  | cons p ps ih =>
    change (p.canonical.chars ++ joined (ps.map Piece.canonical))[i]? = (p.chars ++ joined ps)[i]?
    have hlength := length_canonical p
    by_cases hi : i < p.chars.length
    · cases p with
      | word letters => exact absurd (covered_word hi) h
      | other c =>
        rw [List.getElem?_append_left (hlength ▸ hi), List.getElem?_append_left hi]
        rfl
    · obtain ⟨k, rfl⟩ := Nat.exists_eq_add_of_le (Nat.le_of_not_lt hi)
      have hrest := ih fun hcovered => h hcovered.behind
      rw [List.getElem?_append_right (by omega), List.getElem?_append_right (by omega), hlength,
        Nat.add_sub_cancel_left, hrest]

/-- The second word stands where the first does, and is the allowed name the first means, or the
first itself where it means none. -/
structure Renames (p q : Nat × String) : Prop where
  place : q.1 = p.1
  chars : q.2.length = p.2.length
  bytes : q.2.utf8ByteSize = p.2.utf8ByteSize
  known : ∀ name, Catalogue.contains name = true → lowercase name = lowercase p.2 → q.2 = name
  unknown : ¬Catalogue.Allowed p.2 → q.2 = p.2

theorem renames_canonicalWord (p : Nat × String) :
    Renames p (p.1, Catalogue.canonicalWord p.2) where
  place := rfl
  chars := Catalogue.length_canonicalWord p.2
  bytes := utf8ByteSize_canonicalWord p.2
  known _ := Catalogue.canonicalWord_eq
  unknown := Catalogue.canonicalWord_of_not_allowed

/-- The second text is the first with other capitals inside its words, which are renamed in
place. -/
structure Normalizes (s t : String) : Prop where
  chars : t.length = s.length
  bytes : t.utf8ByteSize = s.utf8ByteSize
  case : lowercase t = lowercase s
  outside : ∀ i, ¬InWord s i → t.toList[i]? = s.toList[i]?
  words : List.Forall₂ Renames (words s) (words t)

theorem normalizes_normalize (s : String) : Normalizes s (normalize s) where
  chars := length_normalize s
  bytes := by rw [← utf8ByteSize_lowercase, lowercase_normalize, utf8ByteSize_lowercase]
  case := lowercase_normalize s
  outside i hi := by
    have hnot : ¬Covered (words s) 0 (joined (pieces s.toList)) i := by rwa [joined_pieces]
    rw [normalize_eq, String.toList_ofList, getElem?_joined_canonical hnot, joined_pieces]
  words := by
    rw [words_normalize, List.forall₂_map_right_iff, List.forall₂_same]
    exact fun p _ => renames_canonicalWord p

theorem Piece.canonical_canonical (p : Piece) : p.canonical.canonical = p.canonical := by
  cases p with
  | word letters =>
    rw [canonical_word, canonical_word, String.ofList_toList, Catalogue.canonicalWord_canonicalWord]
  | other c => rfl

theorem normalize_normalize (s : String) : normalize (normalize s) = normalize s := by
  have hcanonical : Piece.canonical ∘ Piece.canonical = Piece.canonical :=
    funext Piece.canonical_canonical
  rw [normalize_eq, normalize_eq, String.toList_ofList, pieces_normalize, List.map_map, hcanonical]

/-- The check of a normal form refuses it for the first unknown word of the text, and for nothing
else. -/
theorem checkWords_normalize_eq_error (e : EvalError) : checkWords (normalize s) = .error e ↔
    ∃ w, e = .unknownIdentifier w ∧ FirstUnknown s w := by
  constructor
  · intro h
    rcases checkWords_cases (normalize s) with hok | ⟨w, hw⟩
    · rw [hok] at h
      cases h
    · obtain rfl := Except.error.inj (hw.symm.trans h)
      exact ⟨w, rfl, checkWords_normalize_eq_error_iff.mp hw⟩
  · rintro ⟨w, rfl, hw⟩
    exact checkWords_normalize_eq_error_iff.mpr hw

/-- The normal form of a text keeps everything of it but the case of its words, is its own normal
form, and is refused just for the first word of the text that means no allowed name. -/
theorem normalize_laws (s : String) : Normalizes s (normalize s) ∧
    normalize (normalize s) = normalize s ∧
    (checkWords (normalize s) = .ok () ↔ ∀ p ∈ words s, Catalogue.Allowed p.2) ∧
    ∀ e, checkWords (normalize s) = .error e ↔
      ∃ w, e = .unknownIdentifier w ∧ FirstUnknown s w :=
  ⟨normalizes_normalize s, normalize_normalize s, checkWords_normalize_eq_ok_iff,
    checkWords_normalize_eq_error⟩

example : normalize "É2SIN(pi)-sinx" = "É2sin(PI)-sinx" := by decide +kernel

end Text

end Reckoner
