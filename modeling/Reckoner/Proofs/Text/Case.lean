import Reckoner.Proofs.Text.Words
import Reckoner.Proofs.Text.Trim
import Reckoner.Proofs.Token.Spelling

set_option autoImplicit false

namespace Reckoner.Text

variable {s t w : String} {c : Char} {cs : List Char} {p : Piece}

theorem isWordStart_of_isUpper (h : c.isUpper = true) : isWordStart c = true := by
  simp [isWordStart, Char.isAlpha, h]

theorem isWordStart_toLower (c : Char) : isWordStart c.toLower = isWordStart c := by
  by_cases h : c.isUpper = true
  · rw [isWordStart_of_isUpper h]
    simp [isWordStart, Char.isAlpha, h]
  · rw [Char.toLower_eq_of_not_isUpper h]

theorem isWordPart_toLower (c : Char) : isWordPart c.toLower = isWordPart c := by
  by_cases h : c.isUpper = true
  · have hstart := isWordStart_of_isUpper h
    rw [isWordPart_of_isWordStart hstart]
    exact isWordPart_of_isWordStart ((isWordStart_toLower c).trans hstart)
  · rw [Char.toLower_eq_of_not_isUpper h]

theorem isBlank_of_isWordStart (h : isWordStart c = true) : isBlank c = false := by
  by_contra hblank
  rw [Token.isWordStart_of_isBlank (Bool.of_not_eq_false hblank)] at h
  cases h

theorem isBlank_toLower (c : Char) : isBlank c.toLower = isBlank c := by
  by_cases h : c.isUpper = true
  · have hstart := isWordStart_of_isUpper h
    rw [isBlank_of_isWordStart hstart]
    exact isBlank_of_isWordStart ((isWordStart_toLower c).trans hstart)
  · rw [Char.toLower_eq_of_not_isUpper h]

theorem toLower_of_not_isWordStart (h : isWordStart c = false) : c.toLower = c := by
  refine Char.toLower_eq_of_not_isUpper fun hupper => ?_
  rw [isWordStart_of_isUpper hupper] at h
  cases h

theorem trimLeft_map_toLower (cs : List Char) :
    trimLeft (cs.map Char.toLower) = (trimLeft cs).map Char.toLower := by
  have hblank : isBlank ∘ Char.toLower = isBlank := funext isBlank_toLower
  rw [trimLeft, List.dropWhile_map, hblank, trimLeft]

theorem trimRight_map_toLower (cs : List Char) :
    trimRight (cs.map Char.toLower) = (trimRight cs).map Char.toLower := by
  have h := trimLeft_map_toLower cs.reverse
  rw [trimLeft, trimLeft, List.map_reverse] at h
  rw [trimRight, h, trimRight, List.map_reverse]

theorem trim_lowercase (s : String) : trim (lowercase s) = lowercase (trim s) := by
  rw [trim, lowercase, String.toList_ofList, trimChars, trimLeft_map_toLower, trimRight_map_toLower,
    lowercase, trim, String.toList_ofList, trimChars]

theorem length_eq_of_lowercase (h : lowercase s = lowercase t) : s.length = t.length := by
  rw [← length_lowercase s, h, length_lowercase]

theorem trim_of_lowercase (h : lowercase s = lowercase t) (hs : trim s = s) : trim t = t := by
  refine trim_eq_self_of_length ?_
  rw [← length_lowercase, ← trim_lowercase, ← h, trim_lowercase, hs, length_lowercase,
    length_eq_of_lowercase h]

namespace Piece

def lower : Piece → Piece
  | .word letters => .word (letters.map Char.toLower)
  | .other c => .other c.toLower

theorem word?_lower (p : Piece) : p.lower.word? = p.word?.map lowercase := by
  cases p with
  | word letters => simp [lower, word?, lowercase]
  | other c => rfl

theorem chars_lower (p : Piece) : p.lower.chars = p.chars.map Char.toLower := by
  cases p <;> rfl

theorem byteSize_lower (p : Piece) : p.lower.byteSize = p.byteSize := by
  have h := utf8ByteSize_lowercase (String.ofList p.chars)
  rwa [lowercase, String.toList_ofList, ← chars_lower] at h

end Piece

theorem pieces_map_toLower (cs : List Char) :
    pieces (cs.map Char.toLower) = (pieces cs).map Piece.lower := by
  have hpart : isWordPart ∘ Char.toLower = isWordPart := funext isWordPart_toLower
  fun_induction pieces cs with
  | case1 => exact pieces_nil
  | case2 c cs hc ih =>
    rw [List.map_cons, pieces_word ((isWordStart_toLower c).trans hc), List.takeWhile_map,
      List.dropWhile_map, hpart, ih]
    rfl
  | case3 c cs hc ih =>
    have hother : isWordStart c.toLower = false :=
      (isWordStart_toLower c).trans (Bool.of_not_eq_true hc)
    rw [List.map_cons, pieces_other hother, ih]
    rfl

theorem locatedWords_lower (offset : Nat) (ps : List Piece) :
    locatedWords offset (ps.map Piece.lower) =
      (locatedWords offset ps).map fun p => (p.1, lowercase p.2) := by
  induction ps generalizing offset with
  | nil => rfl
  | cons p ps ih =>
    simp only [List.map_cons, locatedWords, p.word?_lower, p.byteSize_lower, ih]
    cases p.word? <;> rfl

theorem words_lowercase (s : String) :
    words (lowercase s) = (words s).map fun p => (p.1, lowercase p.2) := by
  rw [words, lowercase, String.toList_ofList, pieces_map_toLower, locatedWords_lower]
  rfl

theorem lowercase_canonicalWord (w : String) :
    lowercase (Catalogue.canonicalWord w) = lowercase w := by
  unfold Catalogue.canonicalWord
  cases h : Catalogue.canonical? w with
  | some name => exact (Catalogue.contains_of_canonical? h).2
  | none => rfl

theorem allowed_lowercase_iff : Catalogue.Allowed (lowercase w) ↔ Catalogue.Allowed w := by
  rw [Catalogue.Allowed, lowercase_lowercase, Catalogue.Allowed]

theorem canonicalWord_lowercase (h : Catalogue.Allowed w) :
    Catalogue.canonicalWord (lowercase w) = Catalogue.canonicalWord w := by
  have hsame : Catalogue.canonical? (lowercase w) = Catalogue.canonical? w := by
    rw [Catalogue.canonical?, Function.find?, Constant.find?, lowercase_lowercase,
      uppercase_lowercase]
    rfl
  obtain ⟨name, hname⟩ := Option.isSome_iff_exists.mp (Catalogue.canonical?_isSome_iff.mpr h)
  rw [Catalogue.canonicalWord, Catalogue.canonicalWord, hsame, hname]
  rfl

theorem Piece.lower_canonical (p : Piece) : p.canonical.lower = p.lower := by
  cases p with
  | word letters =>
    have h := lowercase_canonicalWord (String.ofList letters)
    rw [lowercase, lowercase, String.ofList_inj, String.toList_ofList] at h
    rw [canonical_word, lower, h, lower]
  | other c => rfl

theorem joined_map_lower (ps : List Piece) :
    joined (ps.map Piece.lower) = (joined ps).map Char.toLower := by
  induction ps with
  | nil => rfl
  | cons p ps ih =>
    change p.lower.chars ++ joined (ps.map Piece.lower) = (p.chars ++ joined ps).map Char.toLower
    rw [ih, Piece.chars_lower, List.map_append]

theorem lowercase_normalize (s : String) : lowercase (normalize s) = lowercase s := by
  have hlower : Piece.lower ∘ Piece.canonical = Piece.lower := funext Piece.lower_canonical
  rw [lowercase, normalize_eq, String.toList_ofList, ← joined_map_lower, List.map_map, hlower,
    joined_map_lower, joined_pieces, lowercase]

theorem map_canonical_lower (h : ∀ w ∈ (pieces cs).filterMap Piece.word?, Catalogue.Allowed w) :
    ((pieces cs).map Piece.lower).map Piece.canonical = (pieces cs).map Piece.canonical := by
  fun_induction pieces cs with
  | case1 => rfl
  | case2 c cs hc ih =>
    have hword := canonicalWord_lowercase (h _ List.mem_cons_self)
    rw [lowercase, String.toList_ofList] at hword
    rw [List.map_cons, List.map_cons, Piece.lower, Piece.canonical_word, hword, List.map_cons,
      Piece.canonical_word, ih fun w hw => h w (List.mem_cons_of_mem _ hw)]
  | case3 c cs hc ih =>
    rw [List.map_cons, List.map_cons, Piece.lower,
      toLower_of_not_isWordStart (Bool.of_not_eq_true hc), List.map_cons, ih h]

theorem normalize_lowercase
    (h : ∀ w ∈ (pieces s.toList).filterMap Piece.word?, Catalogue.Allowed w) :
    normalize (lowercase s) = normalize s := by
  rw [normalize_eq, lowercase, String.toList_ofList, pieces_map_toLower, map_canonical_lower h,
    normalize_eq]

/-- The word is the first of the text that is not allowed, and begins at that byte. -/
def FirstUnknownAt (s : String) (place : Nat) (w : String) : Prop :=
  ∃ before after, words s = before ++ (place, w) :: after ∧
    (∀ p ∈ before, Catalogue.Allowed p.2) ∧ ¬Catalogue.Allowed w

theorem firstUnknown_iff : FirstUnknown s w ↔ ∃ place, FirstUnknownAt s place w :=
  ⟨fun ⟨before, place, after, h⟩ => ⟨place, before, after, h⟩,
    fun ⟨place, before, after, h⟩ => ⟨before, place, after, h⟩⟩

theorem map_words_eq (h : lowercase s = lowercase t) :
    ((words s).map fun p => (p.1, lowercase p.2)) = (words t).map fun p => (p.1, lowercase p.2) := by
  rw [← words_lowercase, h, words_lowercase]

theorem forall_allowed_of_map_eq {us vs : List (Nat × String)}
    (h : (us.map fun p => (p.1, lowercase p.2)) = vs.map fun p => (p.1, lowercase p.2))
    (hus : ∀ p ∈ us, Catalogue.Allowed p.2) : ∀ p ∈ vs, Catalogue.Allowed p.2 := by
  intro q hq
  have hmem : (q.1, lowercase q.2) ∈ us.map fun p => (p.1, lowercase p.2) :=
    h ▸ List.mem_map_of_mem hq
  obtain ⟨p, hp, heq⟩ := List.mem_map.mp hmem
  rw [← allowed_lowercase_iff, ← (Prod.mk.inj heq).2, allowed_lowercase_iff]
  exact hus p hp

/-- In another case the first unknown word stands in the same place. -/
theorem FirstUnknownAt.recased {place : Nat} (h : FirstUnknownAt s place w)
    (hcase : lowercase s = lowercase t) :
    ∃ v, lowercase v = lowercase w ∧ FirstUnknownAt t place v := by
  obtain ⟨before, after, hwords, hbefore, hw⟩ := h
  -- The words of both texts are the same in small letters, so they are cut at the same place.
  have hmap := map_words_eq hcase
  rw [hwords, List.map_append, List.map_cons] at hmap
  obtain ⟨front, back, ht, hfront, hback⟩ := List.map_eq_append_iff.mp hmap.symm
  obtain ⟨p, rest, rfl, hp, -⟩ := List.map_eq_cons_iff.mp hback
  obtain ⟨hplace, hlower⟩ := Prod.mk.inj hp
  refine ⟨p.2, hlower, front, rest, ?_, forall_allowed_of_map_eq hfront.symm hbefore, ?_⟩
  · obtain rfl : p.1 = place := hplace
    exact ht
  · rwa [← allowed_lowercase_iff, hlower, allowed_lowercase_iff]

theorem isWordPart_of_isBlank (h : isBlank c = true) : isWordPart c = false := by
  by_contra hpart
  have := Token.toNat_of_isWordPart (Bool.of_not_eq_false hpart)
  rw [Token.isBlank_of_toNat (by omega) this.2] at h
  cases h

theorem pieces_append_blanks {bs : List Char} (hbs : ∀ b ∈ bs, isBlank b = true) (cs : List Char) :
    pieces (cs ++ bs) = pieces cs ++ bs.map .other := by
  have hstops : Stops bs := fun b hb => isWordPart_of_isBlank (hbs b (List.mem_of_mem_head? hb))
  have hothers : pieces bs = bs.map .other := by
    have h := @pieces_append_others bs [] fun b hb => Token.isWordStart_of_isBlank (hbs b hb)
    rwa [pieces_nil, List.append_nil, List.append_nil] at h
  rw [pieces_append hstops, hothers]

theorem exists_pieces_trim (s : String) : ∃ lead trail : List Char,
    pieces s.toList = lead.map .other ++ pieces (trim s).toList ++ trail.map .other ∧
      (∀ b ∈ lead, isBlank b = true) ∧ ∀ b ∈ trail, isBlank b = true := by
  obtain ⟨lead, trail, hs, hlead, htrail⟩ := exists_blanks_trim s.toList
  have hstart : ∀ b ∈ lead, isWordStart b = false :=
    fun b hb => Token.isWordStart_of_isBlank (hlead b hb)
  refine ⟨lead, trail, ?_, hlead, htrail⟩
  conv_lhs => rw [hs]
  rw [List.append_assoc, pieces_append_others hstart, pieces_append_blanks htrail,
    trim, String.toList_ofList, List.append_assoc]

theorem filterMap_word?_trim (s : String) : (pieces (trim s).toList).filterMap Piece.word? =
    (pieces s.toList).filterMap Piece.word? := by
  have hnone (bs : List Char) : (bs.map Piece.other).filterMap Piece.word? = [] := by
    rw [List.filterMap_map]
    exact List.filterMap_eq_nil_iff.mpr fun b _ => rfl
  obtain ⟨lead, trail, hs, -, -⟩ := exists_pieces_trim s
  rw [hs, List.filterMap_append, List.filterMap_append, hnone, hnone, List.nil_append,
    List.append_nil]

theorem joined_append (ps qs : List Piece) : joined (ps ++ qs) = joined ps ++ joined qs :=
  List.flatMap_append

theorem joined_canonical_others (cs : List Char) :
    joined ((cs.map Piece.other).map Piece.canonical) = cs := by
  induction cs with
  | nil => rfl
  | cons c cs ih => exact congrArg (c :: ·) ih

theorem exists_blanks_normalize (s : String) : ∃ lead trail : List Char,
    (normalize s).toList = lead ++ (normalize (trim s)).toList ++ trail ∧
      (∀ b ∈ lead, isBlank b = true) ∧ ∀ b ∈ trail, isBlank b = true := by
  obtain ⟨lead, trail, hs, hlead, htrail⟩ := exists_pieces_trim s
  refine ⟨lead, trail, ?_, hlead, htrail⟩
  rw [normalize_eq, String.toList_ofList, hs, List.map_append, List.map_append, joined_append,
    joined_append, joined_canonical_others, joined_canonical_others, normalize_eq,
    String.toList_ofList]

theorem firstUnknown_iff_words : FirstUnknown s w ↔ ∃ before after,
    (pieces s.toList).filterMap Piece.word? = before ++ w :: after ∧
      (∀ v ∈ before, Catalogue.Allowed v) ∧ ¬Catalogue.Allowed w := by
  rw [← map_snd_locatedWords 0]
  change FirstUnknown s w ↔ ∃ before after, (words s).map Prod.snd = before ++ w :: after ∧ _
  constructor
  · rintro ⟨before, place, after, hwords, hbefore, hw⟩
    refine ⟨before.map Prod.snd, after.map Prod.snd, by rw [hwords, List.map_append]; rfl, ?_, hw⟩
    intro v hv
    obtain ⟨p, hp, rfl⟩ := List.mem_map.mp hv
    exact hbefore p hp
  · rintro ⟨before, after, hwords, hbefore, hw⟩
    obtain ⟨front, back, hs, rfl, hback⟩ := List.map_eq_append_iff.mp hwords
    obtain ⟨p, rest, rfl, rfl, -⟩ := List.map_eq_cons_iff.mp hback
    exact ⟨front, p.1, rest, hs, fun q hq => hbefore q.2 (List.mem_map_of_mem hq), hw⟩

theorem firstUnknown_trim_iff : FirstUnknown (trim s) w ↔ FirstUnknown s w := by
  rw [firstUnknown_iff_words, filterMap_word?_trim, firstUnknown_iff_words]

end Reckoner.Text
