import Reckoner.Proofs.Text.Allowed
import Reckoner.Text.Word

set_option autoImplicit false

namespace Reckoner.Text

variable {c : Char} {cs letters rest : List Char}

theorem isWordPart_of_isWordStart (h : isWordStart c = true) : isWordPart c = true := by
  unfold isWordStart at h
  unfold isWordPart Char.isAlphanum
  grind

def isWordText : List Char → Bool
  | [] => false
  | c :: cs => isWordStart c && cs.all isWordPart

theorem exists_of_isWordText (h : isWordText letters = true) :
    ∃ c cs, letters = c :: cs ∧ isWordStart c = true ∧ ∀ l ∈ cs, isWordPart l = true := by
  cases letters with
  | nil => cases h
  | cons c cs =>
    simp only [isWordText, Bool.and_eq_true, List.all_eq_true] at h
    exact ⟨c, cs, rfl, h⟩

theorem isWordPart_of_isWordText (h : isWordText letters = true) :
    ∀ l ∈ letters, isWordPart l = true := by
  obtain ⟨c, cs, rfl, hc, hcs⟩ := exists_of_isWordText h
  intro l hl
  rcases List.mem_cons.mp hl with rfl | hl
  · exact isWordPart_of_isWordStart hc
  · exact hcs l hl

def Stops (cs : List Char) : Prop := ∀ c, cs.head? = some c → isWordPart c = false

theorem stops_dropWhile (cs : List Char) : Stops (cs.dropWhile isWordPart) := by
  intro c hc
  have h := List.head?_dropWhile_not isWordPart cs
  rw [hc] at h
  simpa using h

theorem isWordText_takeWhile (h : isWordStart c = true) :
    isWordText (c :: cs.takeWhile isWordPart) = true := by
  simp [isWordText, h]

theorem takeWhile_append_of_head {p : Char → Bool} (h : ∀ c ∈ rest.head?, p c = false)
    (cs : List Char) : (cs ++ rest).takeWhile p = cs.takeWhile p := by
  induction cs with
  | nil =>
    cases rest with
    | nil => rfl
    | cons d ds => exact List.takeWhile_cons_of_neg (by simp [h d rfl])
  | cons c cs ih =>
    rw [List.cons_append, List.takeWhile_cons, List.takeWhile_cons, ih]

theorem dropWhile_append_of_head {p : Char → Bool} (h : ∀ c ∈ rest.head?, p c = false)
    (cs : List Char) : (cs ++ rest).dropWhile p = cs.dropWhile p ++ rest := by
  induction cs with
  | nil =>
    cases rest with
    | nil => rfl
    | cons d ds => exact List.dropWhile_cons_of_neg (by simp [h d rfl])
  | cons c cs ih =>
    rw [List.cons_append, List.dropWhile_cons, List.dropWhile_cons, ih]
    split <;> rfl

theorem takeWhile_append_stops (h : ∀ l ∈ letters, isWordPart l = true) (hrest : Stops rest) :
    (letters ++ rest).takeWhile isWordPart = letters := by
  rw [takeWhile_append_of_head hrest, List.takeWhile_eq_self_iff.mpr h]

theorem dropWhile_append_stops (h : ∀ l ∈ letters, isWordPart l = true) (hrest : Stops rest) :
    (letters ++ rest).dropWhile isWordPart = rest := by
  rw [dropWhile_append_of_head hrest, List.dropWhile_eq_nil_iff.mpr h, List.nil_append]

theorem pieces_nil : pieces [] = [] := by
  rw [pieces]

theorem pieces_other (h : isWordStart c = false) : pieces (c :: cs) = .other c :: pieces cs := by
  rw [pieces, if_neg (by simp [h])]

theorem pieces_word (h : isWordStart c = true) : pieces (c :: cs) =
    .word (c :: cs.takeWhile isWordPart) :: pieces (cs.dropWhile isWordPart) := by
  rw [pieces, if_pos h]

theorem pieces_append_stops (h : isWordText letters = true) (hrest : Stops rest) :
    pieces (letters ++ rest) = .word letters :: pieces rest := by
  obtain ⟨c, cs, rfl, hc, hcs⟩ := exists_of_isWordText h
  rw [List.cons_append, pieces_word hc, takeWhile_append_stops hcs hrest,
    dropWhile_append_stops hcs hrest]

theorem pieces_append_others (h : ∀ c ∈ cs, isWordStart c = false) :
    pieces (cs ++ rest) = cs.map .other ++ pieces rest := by
  induction cs with
  | nil => rfl
  | cons c cs ih =>
    rw [List.cons_append, pieces_other (h c (by simp)), ih fun d hd => h d (by simp [hd])]
    rfl

theorem pieces_append (hrest : Stops rest) (cs : List Char) :
    pieces (cs ++ rest) = pieces cs ++ pieces rest := by
  fun_induction pieces cs with
  | case1 => rfl
  | case2 c cs hc ih =>
    rw [List.cons_append, pieces_word hc, takeWhile_append_of_head hrest,
      dropWhile_append_of_head hrest, ih, List.cons_append]
  | case3 c cs hc ih =>
    rw [List.cons_append, pieces_other (Bool.of_not_eq_true hc), ih, List.cons_append]

theorem locatedWords_word (offset : Nat) (letters : List Char) (ps : List Piece) :
    locatedWords offset (.word letters :: ps) = (offset, String.ofList letters) ::
      locatedWords (offset + String.utf8Len letters) ps := by
  rw [← String.utf8ByteSize_ofList]
  rfl

theorem locatedWords_other (offset : Nat) (c : Char) (ps : List Piece) :
    locatedWords offset (.other c :: ps) = locatedWords (offset + c.utf8Size) ps := by
  have hsize : (Piece.other c).byteSize = c.utf8Size := by
    simp [Piece.byteSize, Piece.chars]
  rw [← hsize]
  rfl

theorem locatedWords_others (offset : Nat) (cs : List Char) (ps : List Piece) :
    locatedWords offset (cs.map .other ++ ps) = locatedWords (offset + String.utf8Len cs) ps := by
  induction cs generalizing offset with
  | nil => rfl
  | cons c cs ih =>
    rw [List.map_cons, List.cons_append, locatedWords_other, ih, String.utf8Len_cons]
    congr 1
    omega

theorem isWordText_of_contains {name : String} (h : Catalogue.contains name = true) :
    isWordText name.toList = true := by
  rcases Catalogue.contains_cases h with ⟨f, rfl⟩ | ⟨c, rfl⟩
  · cases f with
    | unary u => cases u <;> decide
    | log | round | pow | min | max => decide
  · cases c <;> decide

theorem Piece.canonical_word (letters : List Char) : (Piece.word letters).canonical =
    .word (Catalogue.canonicalWord (String.ofList letters)).toList := by
  simp only [Piece.canonical, Catalogue.canonicalWord]
  cases Catalogue.canonical? (String.ofList letters) <;> simp

theorem isWordText_canonicalWord (h : isWordText letters = true) :
    isWordText (Catalogue.canonicalWord (String.ofList letters)).toList = true := by
  unfold Catalogue.canonicalWord
  cases hc : Catalogue.canonical? (String.ofList letters) with
  | some name => exact isWordText_of_contains (Catalogue.contains_of_canonical? hc).1
  | none => simpa using h

theorem stops_canonical (h : Stops cs) : Stops (joined ((pieces cs).map Piece.canonical)) := by
  cases cs with
  | nil =>
    rw [pieces_nil]
    exact h
  | cons c cs =>
    have hc : isWordStart c = false := by
      have := h c rfl
      by_contra hs
      simp [isWordPart_of_isWordStart (Bool.of_not_eq_false hs)] at this
    rw [pieces_other hc]
    exact h

/-- Cutting the normal form gives the pieces of the text in their canonical case. -/
theorem pieces_normalize (cs : List Char) :
    pieces (joined ((pieces cs).map Piece.canonical)) = (pieces cs).map Piece.canonical := by
  fun_induction pieces cs with
  | case1 => exact pieces_nil
  | case2 c cs hc ih =>
    rw [List.map_cons, Piece.canonical_word]
    change pieces ((Catalogue.canonicalWord _).toList ++ joined _) = _
    rw [pieces_append_stops (isWordText_canonicalWord (isWordText_takeWhile hc))
      (stops_canonical (stops_dropWhile cs)), ih]
  | case3 c cs hc ih =>
    change pieces (c :: joined _) = .other c :: _
    rw [pieces_other (Bool.of_not_eq_true hc), ih]

theorem utf8Size_toLower (c : Char) : c.toLower.utf8Size = c.utf8Size := by
  simp only [Char.toLower, Char.utf8Size]
  split <;> grind

theorem utf8ByteSize_lowercase (w : String) : (lowercase w).utf8ByteSize = w.utf8ByteSize := by
  have h (cs : List Char) : String.utf8Len (cs.map Char.toLower) = String.utf8Len cs := by
    induction cs with
    | nil => rfl
    | cons c cs ih => rw [List.map_cons, String.utf8Len_cons, String.utf8Len_cons, ih,
        utf8Size_toLower]
  rw [lowercase, String.utf8ByteSize_ofList, h, ← String.utf8ByteSize_ofList, String.ofList_toList]

theorem utf8ByteSize_canonicalWord (w : String) :
    (Catalogue.canonicalWord w).utf8ByteSize = w.utf8ByteSize := by
  unfold Catalogue.canonicalWord
  cases h : Catalogue.canonical? w with
  | some name =>
    rw [Option.getD_some, ← utf8ByteSize_lowercase, (Catalogue.contains_of_canonical? h).2,
      utf8ByteSize_lowercase]
  | none => rfl

namespace Piece

theorem byteSize_canonical (p : Piece) : p.canonical.byteSize = p.byteSize := by
  cases p with
  | word letters =>
    rw [canonical_word, byteSize, chars, String.ofList_toList, utf8ByteSize_canonicalWord]
    rfl
  | other c => rfl

theorem word?_canonical (p : Piece) :
    p.canonical.word? = p.word?.map Catalogue.canonicalWord := by
  cases p with
  | word letters =>
    rw [canonical_word, word?, String.ofList_toList]
    rfl
  | other c => rfl

end Piece

theorem joined_pieces (cs : List Char) : joined (pieces cs) = cs := by
  fun_induction pieces cs with
  | case1 => rfl
  | case2 c cs hc ih =>
    change (c :: cs.takeWhile isWordPart) ++ joined _ = _
    rw [ih, List.cons_append, List.takeWhile_append_dropWhile]
  | case3 c cs hc ih =>
    change c :: joined _ = _
    rw [ih]

theorem extract_of_append {s : String} {front between after : List Char}
    (hs : s.toList = front ++ between ++ after) :
    String.Pos.Raw.extract s ⟨String.utf8Len front⟩
      ⟨String.utf8Len front + String.utf8Len between⟩ = String.ofList between := by
  have h := String.extract_of_valid front between after
  rwa [← hs, String.ofList_toList] at h

/-- Between two words the loop copies a slice, and in place of a word it writes its canonical form:
`front` is what it has copied, and `between` what it has passed since. -/
theorem copyFrom_locatedWords {s : String} {front between : List Char} {ps : List Piece}
    (hs : s.toList = front ++ between ++ joined ps) (out : String) :
    copyFrom s out (String.utf8Len front)
        (locatedWords (String.utf8Len front + String.utf8Len between) ps) =
      out ++ String.ofList (between ++ joined (ps.map Piece.canonical)) := by
  induction ps generalizing front between out with
  | nil =>
    have hsize : s.utf8ByteSize = String.utf8Len front + String.utf8Len between := by
      rw [← String.ofList_toList (s := s), hs, String.utf8ByteSize_ofList]
      simp [joined]
    rw [locatedWords, copyFrom, hsize, extract_of_append hs]
    simp [joined]
  | cons p ps ih =>
    cases p with
    | other c =>
      have hpassed : s.toList = front ++ (between ++ [c]) ++ joined ps := by
        rw [hs]
        simp [joined, Piece.chars]
      have h := ih hpassed out
      simp only [locatedWords, Piece.word?, Piece.byteSize, Piece.chars, String.utf8ByteSize_ofList]
      simpa [Nat.add_assoc, joined, Piece.canonical, Piece.chars] using h
    | word letters =>
      have hcopied : s.toList = front ++ between ++ letters ++ [] ++ joined ps := by
        rw [hs]
        simp [joined, Piece.chars]
      have h := ih hcopied (out ++ String.ofList between ++
        Catalogue.canonicalWord (String.ofList letters))
      simp only [locatedWords, Piece.word?, Piece.byteSize, Piece.chars, copyFrom,
        extract_of_append hs, String.utf8ByteSize_ofList, List.map_cons, Piece.canonical_word]
      simpa [Nat.add_assoc, joined, Piece.chars, String.append_assoc] using h

theorem normalize_eq (s : String) :
    normalize s = String.ofList (joined ((pieces s.toList).map Piece.canonical)) := by
  have hs : s.toList = [] ++ [] ++ joined (pieces s.toList) := (joined_pieces _).symm
  have h := copyFrom_locatedWords hs ""
  rwa [List.nil_append, String.empty_append] at h

theorem locatedWords_canonical (offset : Nat) (ps : List Piece) :
    locatedWords offset (ps.map Piece.canonical) =
      (locatedWords offset ps).map fun p => (p.1, Catalogue.canonicalWord p.2) := by
  induction ps generalizing offset with
  | nil => rfl
  | cons p ps ih =>
    simp only [List.map_cons, locatedWords, p.word?_canonical, p.byteSize_canonical, ih]
    cases p.word? <;> rfl

theorem words_normalize (s : String) :
    words (normalize s) = (words s).map fun p => (p.1, Catalogue.canonicalWord p.2) := by
  rw [words, normalize_eq, String.toList_ofList, pieces_normalize, locatedWords_canonical]
  rfl

/-- The letters are a whole word between the two texts: no letter or underscore joins it from
before, and it goes on to the end of its run. -/
structure IsWordBetween (before letters after : List Char) : Prop where
  text : isWordText letters = true
  fresh : ∀ run, run <:+ before → (∀ c ∈ run, isWordPart c = true) →
    ∀ c ∈ run, isWordStart c = false
  stops : Stops after

namespace IsWordBetween

variable {before after : List Char}

theorem head_not_part (h : IsWordBetween before letters after)
    (hstops : Stops (before ++ (letters ++ after))) :
    ∃ d ds, before = d :: ds ∧ isWordPart d = false := by
  cases before with
  | nil =>
    obtain ⟨d, ds, rfl, hd, -⟩ := exists_of_isWordText h.text
    have := hstops d rfl
    rw [isWordPart_of_isWordStart hd] at this
    cases this
  | cons d ds => exact ⟨d, ds, rfl, hstops d rfl⟩

theorem behind_word {word : List Char} (h : IsWordBetween before letters after)
    (hstops : Stops (before ++ (letters ++ after))) :
    IsWordBetween (word ++ before) letters after := by
  refine ⟨h.text, ?_, h.stops⟩
  rintro run ⟨t, ht⟩ hrun
  rcases List.append_eq_append_iff.mp ht with ⟨more, -, hmore⟩ | ⟨more, -, hmore⟩
  · obtain ⟨d, ds, rfl, hd⟩ := h.head_not_part hstops
    have := hrun d (by simp [hmore])
    rw [hd] at this
    cases this
  · exact h.fresh run ⟨more, hmore.symm⟩ hrun

theorem behind_other (h : IsWordBetween before letters after) (hc : isWordStart c = false) :
    IsWordBetween (c :: before) letters after := by
  refine ⟨h.text, ?_, h.stops⟩
  intro run hsuffix hrun
  rcases List.suffix_cons_iff.mp hsuffix with rfl | hsuffix
  · intro d hd
    rcases List.mem_cons.mp hd with rfl | hd
    · exact hc
    · exact h.fresh before (List.suffix_refl _) (fun l hl => hrun l (by simp [hl])) d hd
  · exact h.fresh run hsuffix hrun

theorem of_append {front : List Char} (h : IsWordBetween (front ++ before) letters after) :
    IsWordBetween before letters after :=
  ⟨h.text, fun run hrun => h.fresh run (hrun.trans (List.suffix_append front before)), h.stops⟩

theorem eq_word {word more : List Char} (h : IsWordBetween before letters after)
    (hword : isWordText word = true) (hrest : Stops rest) (hsplit : word = before ++ more)
    (heq : letters ++ after = more ++ rest) : before = [] ∧ letters = word ∧ after = rest := by
  have hpart := isWordPart_of_isWordText hword
  cases before with
  | nil =>
    rw [List.nil_append] at hsplit
    rw [← hsplit] at heq
    have hletters := takeWhile_append_stops (isWordPart_of_isWordText h.text) h.stops
    rw [heq, takeWhile_append_stops hpart hrest] at hletters
    rw [hletters] at heq
    exact ⟨rfl, hletters.symm, List.append_cancel_left heq⟩
  | cons d ds =>
    obtain ⟨c, cs, hword, hc, -⟩ := exists_of_isWordText hword
    have hrun (l : Char) (hl : l ∈ d :: ds) : isWordPart l = true :=
      hpart l (hsplit ▸ List.mem_append_left _ hl)
    have hd := h.fresh (d :: ds) (List.suffix_refl _) hrun d List.mem_cons_self
    rw [hword] at hsplit
    rw [← (List.cons.inj hsplit).1, hc] at hd
    cases hd

end IsWordBetween

/-- The word stands whole in the text at a byte that is counted from `offset`. -/
def StandsAt (cs : List Char) (offset place : Nat) (w : String) : Prop :=
  ∃ before after, cs = before ++ (w.toList ++ after) ∧
    place = offset + String.utf8Len before ∧ IsWordBetween before w.toList after

section StandsAt

variable {offset place : Nat} {w : String}

theorem not_standsAt_nil : ¬StandsAt [] offset place w := by
  rintro ⟨before, after, h, -, hw⟩
  obtain ⟨c, cs, hcs, -⟩ := exists_of_isWordText hw.text
  simp [hcs] at h

theorem standsAt_word_append {word : List Char} (hword : isWordText word = true)
    (hrest : Stops rest) : StandsAt (word ++ rest) offset place w ↔
      (place, w) = (offset, String.ofList word) ∨
        StandsAt rest (offset + String.utf8Len word) place w := by
  constructor
  · rintro ⟨before, after, h, rfl, hw⟩
    rcases List.append_eq_append_iff.mp h with ⟨more, rfl, hmore⟩ | ⟨more, hmore, heq⟩
    · exact .inr ⟨more, after, hmore, by simp [Nat.add_assoc], hw.of_append⟩
    · obtain ⟨rfl, hletters, -⟩ := hw.eq_word hword hrest hmore heq
      rw [← hletters, String.ofList_toList]
      exact .inl rfl
  · rintro (h | ⟨before, after, rfl, rfl, hw⟩)
    · cases h
      refine ⟨[], rest, by simp, rfl, ?_⟩
      rw [String.toList_ofList]
      exact ⟨hword, by simp, hrest⟩
    · exact ⟨word ++ before, after, by simp, by simp [Nat.add_assoc], hw.behind_word hrest⟩

theorem standsAt_other (hc : isWordStart c = false) :
    StandsAt (c :: cs) offset place w ↔ StandsAt cs (offset + c.utf8Size) place w := by
  constructor
  · rintro ⟨before, after, h, rfl, hw⟩
    cases before with
    | nil =>
      obtain ⟨d, ds, hds, hd, -⟩ := exists_of_isWordText hw.text
      rw [hds] at h
      rw [(List.cons.inj h).1, hd] at hc
      cases hc
    | cons d before =>
      obtain ⟨rfl, hcs⟩ := List.cons.inj h
      have hw : IsWordBetween ([c] ++ before) w.toList after := hw
      exact ⟨before, after, hcs, by simp; omega, hw.of_append⟩
  · rintro ⟨before, after, rfl, rfl, hw⟩
    exact ⟨c :: before, after, rfl, by simp; omega, hw.behind_other hc⟩

theorem mem_locatedWords_pieces {cs : List Char} :
    (place, w) ∈ locatedWords offset (pieces cs) ↔ StandsAt cs offset place w := by
  fun_induction pieces cs generalizing offset with
  | case1 => exact ⟨nofun, fun h => absurd h not_standsAt_nil⟩
  | case2 c cs hc ih =>
    have hcut : c :: cs = (c :: cs.takeWhile isWordPart) ++ cs.dropWhile isWordPart := by
      rw [List.cons_append, List.takeWhile_append_dropWhile]
    rw [locatedWords_word, List.mem_cons, ih, hcut,
      standsAt_word_append (isWordText_takeWhile hc) (stops_dropWhile cs)]
  | case3 c cs hc ih =>
    rw [locatedWords_other, ih, standsAt_other (Bool.of_not_eq_true hc)]

end StandsAt

/-- The words of a text are the whole words in it, each at the byte at which it begins. -/
theorem mem_words_iff {s w : String} {place : Nat} :
    (place, w) ∈ words s ↔ ∃ before after, s.toList = before ++ (w.toList ++ after) ∧
      place = (String.ofList before).utf8ByteSize ∧ IsWordBetween before w.toList after := by
  simp only [words, mem_locatedWords_pieces, StandsAt, String.utf8ByteSize_ofList, Nat.zero_add]

theorem map_snd_locatedWords (offset : Nat) (ps : List Piece) :
    (locatedWords offset ps).map Prod.snd = ps.filterMap Piece.word? := by
  induction ps generalizing offset with
  | nil => rfl
  | cons p ps ih =>
    unfold locatedWords
    cases hp : p.word? with
    | some w => simp [hp, ih]
    | none => simp [hp, ih]

/-- The word is the first of the text that no allowed name equals in any case. -/
def FirstUnknown (s w : String) : Prop :=
  ∃ before place after, words s = before ++ (place, w) :: after ∧
    (∀ p ∈ before, Catalogue.Allowed p.2) ∧ ¬Catalogue.Allowed w

theorem checkWords_cases (s : String) :
    checkWords s = .ok () ∨ ∃ w, checkWords s = .error (.unknownIdentifier w) := by
  unfold checkWords
  split
  · exact .inr ⟨_, rfl⟩
  · exact .inl rfl

theorem not_contains_canonicalWord_iff {w : String} :
    (!Catalogue.contains (Catalogue.canonicalWord w)) = true ↔ ¬Catalogue.Allowed w := by
  rw [← Catalogue.contains_canonicalWord_iff]
  simp

theorem find?_words_eq_some_iff {s w : String} {place : Nat} :
    (words s).find? (fun p => !Catalogue.contains (Catalogue.canonicalWord p.2)) =
        some (place, w) ↔
      ∃ before after, words s = before ++ (place, w) :: after ∧
        (∀ p ∈ before, Catalogue.Allowed p.2) ∧ ¬Catalogue.Allowed w := by
  simp only [List.find?_eq_some_iff_append, not_contains_canonicalWord_iff, Bool.not_not,
    Catalogue.contains_canonicalWord_iff]
  constructor
  · rintro ⟨hw, before, after, h, hbefore⟩
    exact ⟨before, after, h, hbefore, hw⟩
  · rintro ⟨before, after, h, hbefore, hw⟩
    exact ⟨hw, before, after, h, hbefore⟩

theorem checkWords_normalize (s : String) : checkWords (normalize s) =
    match (words s).find? fun p => !Catalogue.contains (Catalogue.canonicalWord p.2) with
    | some p => .error (.unknownIdentifier (Catalogue.canonicalWord p.2))
    | none => .ok () := by
  have hwords : (pieces (normalize s).toList).filterMap Piece.word? =
      (words s).map fun p => Catalogue.canonicalWord p.2 := by
    rw [← map_snd_locatedWords 0]
    change (words (normalize s)).map Prod.snd = _
    rw [words_normalize, List.map_map]
    rfl
  have hfind : (words s).find? ((fun w => !Catalogue.contains w) ∘ fun p =>
      Catalogue.canonicalWord p.2) =
        (words s).find? fun p => !Catalogue.contains (Catalogue.canonicalWord p.2) := rfl
  rw [checkWords, hwords, List.find?_map, hfind]
  cases (words s).find? fun p => !Catalogue.contains (Catalogue.canonicalWord p.2) <;> rfl

/-- Checking the normal form refuses the first unknown word, in the case in which it was written. -/
theorem checkWords_normalize_eq_error_iff {s w : String} :
    checkWords (normalize s) = .error (.unknownIdentifier w) ↔ FirstUnknown s w := by
  have hfirst (w : String) : FirstUnknown s w ↔ ∃ place, (words s).find?
      (fun p => !Catalogue.contains (Catalogue.canonicalWord p.2)) = some (place, w) := by
    simp only [find?_words_eq_some_iff]
    exact ⟨fun ⟨b, p, a, h⟩ => ⟨p, b, a, h⟩, fun ⟨p, b, a, h⟩ => ⟨b, p, a, h⟩⟩
  rw [checkWords_normalize, hfirst]
  cases hfind : (words s).find? fun p => !Catalogue.contains (Catalogue.canonicalWord p.2) with
  | none => simp
  | some p =>
    obtain ⟨_, _, _, _, hp⟩ := find?_words_eq_some_iff.mp hfind
    simp only [Catalogue.canonicalWord_of_not_allowed hp]
    constructor
    · intro h
      cases h
      exact ⟨p.1, rfl⟩
    · rintro ⟨place, h⟩
      cases h
      rfl

theorem checkWords_normalize_eq_ok_iff {s : String} :
    checkWords (normalize s) = .ok () ↔ ∀ p ∈ words s, Catalogue.Allowed p.2 := by
  rw [checkWords_normalize]
  cases hfind : (words s).find? fun p => !Catalogue.contains (Catalogue.canonicalWord p.2) with
  | none =>
    simpa [Catalogue.contains_canonicalWord_iff] using List.find?_eq_none.mp hfind
  | some p =>
    obtain ⟨before, after, hw, _, hp⟩ := find?_words_eq_some_iff.mp hfind
    refine ⟨nofun, fun h => absurd (h p ?_) hp⟩
    rw [hw]
    exact List.mem_append_right _ List.mem_cons_self

theorem exists_firstUnknown {s w : String}
    (hw : w ∈ (pieces s.toList).filterMap Piece.word?) (h : ¬Catalogue.Allowed w) :
    ∃ v, FirstUnknown s v := by
  rcases checkWords_cases (normalize s) with hcheck | ⟨v, hcheck⟩
  · rw [← map_snd_locatedWords 0] at hw
    obtain ⟨p, hp, rfl⟩ := List.mem_map.mp hw
    exact absurd (checkWords_normalize_eq_ok_iff.mp hcheck p hp) h
  · exact ⟨v, checkWords_normalize_eq_error_iff.mp hcheck⟩

end Reckoner.Text

namespace Reckoner

theorem length_lowercase (w : String) : (lowercase w).length = w.length := by
  rw [lowercase, String.length_ofList, List.length_map, String.length_toList]

theorem Catalogue.length_canonicalWord (w : String) : (canonicalWord w).length = w.length := by
  unfold canonicalWord
  cases h : canonical? w with
  | some name =>
    rw [Option.getD_some, ← length_lowercase, (contains_of_canonical? h).2, length_lowercase]
  | none => rfl

theorem Catalogue.canonicalWord_of_contains {w : String} (h : contains w = true) :
    canonicalWord w = w := by
  rw [canonicalWord, canonical?_of_contains h, Option.getD_some]

namespace Text

theorem length_canonical (p : Piece) : p.canonical.chars.length = p.chars.length := by
  cases p with
  | word letters =>
    rw [Piece.canonical_word, Piece.chars, String.length_toList, Catalogue.length_canonicalWord,
      String.length_ofList]
    rfl
  | other c => rfl

theorem length_joined_canonical (ps : List Piece) :
    (joined (ps.map Piece.canonical)).length = (joined ps).length := by
  induction ps with
  | nil => rfl
  | cons p ps ih =>
    change (p.canonical.chars ++ joined _).length = (p.chars ++ joined ps).length
    rw [List.length_append, List.length_append, length_canonical, ih]

theorem length_normalize (s : String) : (normalize s).length = s.length := by
  rw [normalize_eq, String.length_ofList, length_joined_canonical, joined_pieces, String.length_toList]

theorem canonical_eq_self {p : Piece} (h : ∀ w ∈ p.word?, Catalogue.contains w = true) :
    p.canonical = p := by
  cases p with
  | word letters =>
    rw [Piece.canonical_word, Catalogue.canonicalWord_of_contains (h _ rfl), String.toList_ofList]
  | other c => rfl

theorem normalize_eq_self {s : String}
    (h : ∀ w ∈ (pieces s.toList).filterMap Piece.word?, Catalogue.contains w = true) :
    normalize s = s ∧ checkWords s = .ok () := by
  constructor
  · have hpieces : (pieces s.toList).map Piece.canonical = pieces s.toList := by
      refine (List.map_congr_left fun p hp => canonical_eq_self fun w hw => ?_).trans (List.map_id _)
      exact h w (List.mem_filterMap.mpr ⟨p, hp, hw⟩)
    rw [normalize_eq, hpieces, joined_pieces, String.ofList_toList]
  · have hnone : ((pieces s.toList).filterMap Piece.word?).find?
        (fun w => !Catalogue.contains w) = none := by
      rw [List.find?_eq_none]
      intro w hw
      simp [h w hw]
    rw [checkWords, hnone]

end Text

end Reckoner
