import Reckoner.Proofs.Exact.Literal

set_option autoImplicit false

namespace Reckoner.Token

open Text

/-- The characters with which a token of the kind can be written. -/
inductive Spelled : Kind → List Char → Prop where
  | symbol {c : Char} {kind : Kind} : symbol? c = some kind → Spelled kind [c]
  | word {letters : List Char} :
    isWordText letters = true → Spelled (.word (String.ofList letters)) letters
  | number {cs : List Char} :
    startsNumber cs = true → (takeLiteral cs).2 = [] → Spelled (.number (takeLiteral cs).1.value) cs

def chars (t : Token) : List Char := t.text.toList

def written (ts : List Token) : List Char := ts.flatMap chars

/-- Whether a token of the kind may take in the character if it follows. -/
def Kind.goesOn : Kind → Char → Bool
  | .word _, c => isWordPart c
  | .number _, c => c.isDigit || c = '.'
  | _, _ => false

def runsInto (t u : Token) : Bool := u.chars.head?.any t.kind.goesOn

/-- No token goes on into the next one. -/
def KeepApart (ts : List Token) : Prop := ts.IsChain fun t u => t.runsInto u = false

instance (ts : List Token) : Decidable (KeepApart ts) :=
  inferInstanceAs (Decidable (ts.IsChain fun t u => t.runsInto u = false))

variable {c : Char} {cs rest : List Char} {kind : Kind} {t : Token} {ts : List Token}

theorem symbol?_of_isWordStart (h : isWordStart c = true) : symbol? c = none := by
  cases hsymbol : symbol? c with
  | none => rfl
  | some kind =>
    rw [isWordStart_of_symbol? hsymbol] at h
    cases h

theorem toNat_of_isDigit (h : c.isDigit = true) : 48 ≤ c.toNat ∧ c.toNat ≤ 57 := by
  simpa [Char.isDigit, UInt32.le_iff_toNat_le] using h

theorem isWordPart_of_isDigit (h : c.isDigit = true) : isWordPart c = true := by
  simp [isWordPart, Char.isAlphanum, h]

theorem toNat_of_isWordPart (h : isWordPart c = true) : 48 ≤ c.toNat ∧ c.toNat ≤ 122 := by
  unfold isWordPart Char.isAlphanum at h
  cases hdigit : c.isDigit with
  | true =>
    have := toNat_of_isDigit hdigit
    omega
  | false =>
    have := toNat_of_isWordStart (c := c) (by simpa [isWordStart, hdigit] using h)
    omega

theorem isBlank_of_toNat (h : 33 ≤ c.toNat) (h' : c.toNat ≤ 122) : isBlank c = false := by
  by_contra hblank
  simp only [isBlank, blankRanges, List.any_cons, List.any_nil, Bool.or_eq_true,
    Bool.and_eq_true, decide_eq_true_eq, Bool.false_eq_true, or_false, Bool.not_eq_false] at hblank
  omega

theorem toNat_of_symbol? (h : symbol? c = some kind) : 33 ≤ c.toNat ∧ c.toNat ≤ 122 := by
  unfold symbol? at h
  split at h
  all_goals first | decide | cases h

theorem toNat_of_number (h : c.isDigit = true ∨ c = '.') : 46 ≤ c.toNat ∧ c.toNat ≤ 57 := by
  rcases h with h | rfl
  · have := toNat_of_isDigit h
    omega
  · decide

theorem symbol?_of_number (h : c.isDigit = true ∨ c = '.') : symbol? c = none := by
  cases hsymbol : symbol? c with
  | none => rfl
  | some kind =>
    unfold symbol? at hsymbol
    split at hsymbol
    all_goals first | (exfalso; revert h; decide) | cases hsymbol

theorem exists_of_startsNumber (h : startsNumber cs = true) :
    ∃ c more, cs = c :: more ∧ (c.isDigit = true ∨ c = '.') := by
  unfold startsNumber at h
  split at h
  · exact ⟨_, _, rfl, .inr rfl⟩
  · exact ⟨_, _, rfl, .inl h⟩
  · cases h

theorem goesOn_of_symbol? (h : symbol? c = some kind) (d : Char) : kind.goesOn d = false := by
  obtain ⟨hword, hnumber⟩ := symbol?_plain h
  cases kind with
  | word w => exact absurd rfl (hword w)
  | number x => exact absurd rfl (hnumber x)
  | _ => rfl

theorem goesOn_of_isBlank (h : isBlank c = true) (kind : Kind) : kind.goesOn c = false := by
  by_contra hgoes
  have hrange : 46 ≤ c.toNat ∧ c.toNat ≤ 122 := by
    cases kind with
    | word w =>
      have := toNat_of_isWordPart (Bool.of_not_eq_false hgoes)
      omega
    | number x =>
      have := toNat_of_number (c := c) (by simpa [Kind.goesOn] using Bool.of_not_eq_false hgoes)
      omega
    | _ => exact absurd rfl hgoes
  rw [isBlank_of_toNat (by omega) hrange.2] at h
  cases h

namespace Spelled

/-- A spelling begins with a symbol, with a letter or underscore, or as a number does. -/
theorem exists_head (h : Spelled kind cs) : ∃ c more, cs = c :: more ∧
    (symbol? c = some kind ∧ more = [] ∨
      isWordStart c = true ∧ kind = .word (String.ofList cs) ∨
      (c.isDigit = true ∨ c = '.') ∧ ∃ x, kind = .number x) := by
  cases h with
  | symbol h => exact ⟨_, [], rfl, .inl ⟨h, rfl⟩⟩
  | word h =>
    obtain ⟨c, more, rfl, hc, -⟩ := exists_of_isWordText h
    exact ⟨c, more, rfl, .inr (.inl ⟨hc, rfl⟩)⟩
  | number h =>
    obtain ⟨c, more, rfl, hc⟩ := exists_of_startsNumber h
    exact ⟨c, more, rfl, .inr (.inr ⟨hc, _, rfl⟩)⟩

theorem isBlank (h : Spelled kind cs) : ∀ c ∈ cs, isBlank c = false := by
  intro c hc
  cases h with
  | symbol h =>
    have := toNat_of_symbol? (List.mem_singleton.mp hc ▸ h)
    exact isBlank_of_toNat this.1 this.2
  | word h =>
    have := toNat_of_isWordPart (isWordPart_of_isWordText h c hc)
    exact isBlank_of_toNat (by omega) this.2
  | number _ h =>
    rw [← takeLiteral_append cs, h, List.append_nil] at hc
    have := toNat_of_number (isDigit_or_point_of_mem_takeLiteral hc)
    exact isBlank_of_toNat (by omega) (by omega)

end Spelled

theorem scan_blank_cons (hc : isBlank c = true) (position : Nat) (cs : List Char) :
    scan position (c :: cs) = scan (position + 1) cs := by
  rw [scan, if_pos hc]

theorem takeLiteral_append_of_head (hrest : ∀ c ∈ rest.head?, (c.isDigit || c = '.') = false)
    (cs : List Char) :
    takeLiteral (cs ++ rest) = ((takeLiteral cs).1, (takeLiteral cs).2 ++ rest) := by
  have hdigit : ∀ c ∈ rest.head?, c.isDigit = false :=
    fun c hc => (Bool.or_eq_false_iff.mp (hrest c hc)).1
  have hpoint (more : List Char) : rest ≠ '.' :: more := by
    rintro rfl
    exact absurd (hrest '.' rfl) (by decide)
  rw [takeLiteral, takeWhile_append_of_head hdigit, dropWhile_append_of_head hdigit, takeLiteral]
  cases hcs : cs.dropWhile Char.isDigit with
  | nil =>
    rw [List.nil_append]
    split
    · exact absurd rfl (hpoint _)
    · rfl
  | cons d more =>
    by_cases hd : d = '.'
    · subst hd
      simp only [List.cons_append, takeWhile_append_of_head hdigit, dropWhile_append_of_head hdigit]
    · rw [List.cons_append]
      split
      · next h => exact absurd (List.cons.inj h).1 hd
      · split
        · next h => exact absurd (List.cons.inj h).1 hd
        · rfl

theorem startsNumber_of_isDigit (h : c.isDigit = true) : startsNumber (c :: rest) = true := by
  unfold startsNumber
  split
  · next e =>
    obtain ⟨rfl, -⟩ := List.cons.inj e
    cases h
  · next e =>
    obtain ⟨rfl, -⟩ := List.cons.inj e
    exact h
  · next e => cases e

theorem startsNumber_append (h : startsNumber cs = true) : startsNumber (cs ++ rest) = true := by
  unfold startsNumber at h
  split at h
  · exact h
  · exact startsNumber_of_isDigit h
  · cases h

theorem scan_literal (h : startsNumber cs = true) (position : Nat) :
    scan position cs = (scan (position + (takeLiteral cs).1.chars.length) (takeLiteral cs).2).map
      (⟨.number (takeLiteral cs).1.value, position, String.ofList (takeLiteral cs).1.chars⟩ :: ·) := by
  obtain ⟨c, more, rfl, hc⟩ := exists_of_startsNumber h
  have hblank : isBlank c = false := by
    have := toNat_of_number hc
    exact isBlank_of_toNat (by omega) (by omega)
  rw [scan, if_neg (by simp [hblank]), symbol?_of_number hc]
  simp only [isWordStart_of_number hc, h]
  rfl

/-- A spelling is cut off as its token where nothing behind it can belong to it. -/
theorem scan_append (h : Spelled kind cs) (hrest : ∀ c ∈ rest.head?, kind.goesOn c = false)
    (position : Nat) : scan position (cs ++ rest) =
      (scan (position + cs.length) rest).map (⟨kind, position, String.ofList cs⟩ :: ·) := by
  have hblank := h.isBlank
  cases h with
  | @symbol c _ h =>
    rw [List.singleton_append, scan, if_neg (by simp [hblank c]), h]
    rfl
  | word h =>
    obtain ⟨c, more, rfl, hc, hmore⟩ := exists_of_isWordText h
    have hstops : Stops rest := fun d hd => hrest d hd
    rw [List.cons_append, scan, if_neg (by simp [hblank c]), symbol?_of_isWordStart hc]
    simp only [hc, if_true, takeWhile_append_stops hmore hstops, dropWhile_append_stops hmore hstops]
  | number h hall =>
    have hcut := takeLiteral_append cs
    rw [hall, List.append_nil] at hcut
    have hlong := takeLiteral_append_of_head hrest cs
    rw [hall, List.nil_append] at hlong
    rw [scan_literal (startsNumber_append h), hlong, hcut]

theorem startsNumber_takeLiteral (h : startsNumber cs = true) :
    startsNumber (takeLiteral cs).1.chars = true := by
  unfold startsNumber at h
  split at h
  · next d more =>
    simp [takeLiteral, Literal.chars, List.takeWhile, List.dropWhile, h, startsNumber]
  · unfold takeLiteral
    split <;> simp [Literal.chars, List.takeWhile, h, startsNumber_of_isDigit]
  · cases h

theorem spelled_takeLiteral (h : startsNumber cs = true) :
    Spelled (.number (takeLiteral cs).1.value) (takeLiteral cs).1.chars := by
  have hagain := takeLiteral_chars cs
  have hcut := takeLiteral_append (takeLiteral cs).1.chars
  rw [hagain, List.append_right_eq_self] at hcut
  have hspelled := Spelled.number (startsNumber_takeLiteral h) hcut
  rwa [hagain] at hspelled

theorem written_cons (t : Token) (ts : List Token) :
    written (t :: ts) = t.chars ++ written ts :=
  List.flatMap_cons

theorem written_spelled {us : List Token} (position : Nat) (h : Spelled kind cs)
    (hrest : (rest.filter fun c => !isBlank c) = written us ∧ ∀ u ∈ us, Spelled u.kind u.chars) :
    ((cs ++ rest).filter fun c => !isBlank c) =
        written (⟨kind, position, String.ofList cs⟩ :: us) ∧
      ∀ u ∈ (⟨kind, position, String.ofList cs⟩ :: us : List Token), Spelled u.kind u.chars := by
  have hself : (cs.filter fun c => !isBlank c) = cs :=
    List.filter_eq_self.mpr fun c hc => by simp [h.isBlank c hc]
  have hchars : chars ⟨kind, position, String.ofList cs⟩ = cs := String.toList_ofList
  rw [List.filter_append, hself, hrest.1, written_cons, List.forall_mem_cons, hchars]
  exact ⟨rfl, h, hrest.2⟩

theorem written_of_scan {position : Nat} (h : scan position cs = .ok ts) :
    (cs.filter fun c => !isBlank c) = written ts ∧ ∀ t ∈ ts, Spelled t.kind t.chars := by
  fun_induction scan position cs generalizing ts with
  | case1 =>
    cases h
    exact ⟨rfl, List.forall_mem_nil _⟩
  | case2 position c rest hblank ih =>
    rw [List.filter_cons_of_neg (by simp [hblank])]
    exact ih h
  | case3 position c rest _ kind hkind ih =>
    obtain ⟨us, hus, rfl⟩ := map_eq_ok_iff.mp h
    exact written_spelled position (.symbol hkind) (ih hus)
  | case4 position c rest _ _ hstart letters =>
    rename_i name ih
    obtain ⟨us, hus, rfl⟩ := map_eq_ok_iff.mp h
    have hcut : letters ++ rest.dropWhile isWordPart = c :: rest := by
      simp [letters]
    rw [← hcut]
    exact written_spelled position (.word (isWordText_takeWhile hstart)) (ih hus)
  | case5 position c rest _ _ _ hnumber parts =>
    rename_i chars ih
    obtain ⟨us, hus, rfl⟩ := map_eq_ok_iff.mp h
    have hcut : chars ++ parts.2 = c :: rest := takeLiteral_append (c :: rest)
    rw [← hcut]
    exact written_spelled position (spelled_takeLiteral hnumber) (ih hus)
  | case6 => cases h

theorem head?_written (hspelled : ∀ t ∈ ts, Spelled t.kind t.chars) :
    (written ts).head? = ts.head?.bind fun t => t.chars.head? := by
  cases ts with
  | nil => rfl
  | cons t ts =>
    obtain ⟨c, more, hchars, -⟩ := (hspelled t List.mem_cons_self).exists_head
    simp [written_cons, hchars]

theorem goesOn_written (hspelled : ∀ t ∈ ts, Spelled t.kind t.chars)
    (hnext : ∀ u ∈ ts.head?, t.runsInto u = false) :
    ∀ c ∈ (written ts).head?, t.kind.goesOn c = false := by
  rw [head?_written hspelled]
  intro c hc
  obtain ⟨u, hu, hc⟩ := Option.bind_eq_some_iff.mp hc
  have hinto := hnext u hu
  rwa [runsInto, hc] at hinto

theorem scan_written (hspelled : ∀ t ∈ ts, Spelled t.kind t.chars) (hapart : KeepApart ts)
    (position : Nat) :
    ∃ us, scan position (written ts) = .ok us ∧ us.map Token.kind = ts.map Token.kind := by
  induction ts generalizing position with
  | nil => exact ⟨[], by simp [written, scan], rfl⟩
  | cons t ts ih =>
    -- Kinds are kept, positions are not: the blanks in front no longer count.
    obtain ⟨ht, hts⟩ := List.forall_mem_cons.mp hspelled
    obtain ⟨hnext, htail⟩ := List.isChain_cons.mp hapart
    obtain ⟨us, hus, hkinds⟩ := ih hts htail (position + t.chars.length)
    refine ⟨⟨t.kind, position, String.ofList t.chars⟩ :: us, ?_, by rw [List.map_cons, hkinds]; rfl⟩
    rw [written_cons, scan_append ht (goesOn_written hts hnext) position]
    exact map_eq_ok_iff.mpr ⟨us, hus, rfl⟩

end Reckoner.Token
