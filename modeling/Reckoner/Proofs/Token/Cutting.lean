import Reckoner.Proofs.Token.Spelling

/-!
What a token may look like is said here without the lexer, and so is a text that is cut into tokens
up to some place: blanks and tokens follow one another, and no token could be longer.
-/
set_option autoImplicit false

namespace Reckoner.Token

open Decimal Text

/-- Digits with a point among them or none, and not a point alone. -/
structure Literal.WellFormed (l : Literal) : Prop where
  whole : ∀ d ∈ l.whole, d.isDigit = true
  fraction : ∀ d ∈ l.fractionDigits, d.isDigit = true
  nonempty : l.whole ≠ [] ∨ l.fractionDigits ≠ []

/-- The texts of the tokens of a kind. A number is what its text writes, with the decimals beyond
the grid cut off. -/
inductive Kind.HasText : Kind → List Char → Prop where
  | symbol {c : Char} {kind : Kind} : symbol? c = some kind → kind.HasText [c]
  | word {letters : List Char} :
    isWordText letters = true → HasText (.word (String.ofList letters)) letters
  | number (l : Literal) : l.WellFormed → HasText (.number ⌊l.rational * 10 ^ places⌋) l.chars

/-- Whether a token with that text would be longer if the character belonged to it. -/
def Kind.takes : Kind → List Char → Char → Bool
  | .word _, _, c => isWordPart c
  | .number _, cs, c => c.isDigit || c = '.' && !cs.contains '.'
  | _, _, _ => false

/-- Whether the lexer can go on: at a blank, at a symbol, and where a word or a number begins. -/
def Begins (c : Char) (rest : List Char) : Prop :=
  isBlank c = true ∨ (∃ kind, symbol? c = some kind) ∨ isWordStart c = true ∨
    c.isDigit = true ∨ c = '.' ∧ ∃ d ∈ rest.head?, d.isDigit = true

/-- The lexer stops in front of the text. -/
def Blocked : List Char → Prop
  | [] => True
  | c :: rest => ¬Begins c rest

/-- The text, which begins at `position` and has `rest` behind it, is cut into the tokens. -/
inductive Cuts : Nat → List Char → List Token → List Char → Prop where
  | done (position : Nat) (rest : List Char) : Cuts position [] [] rest
  | blank {position : Nat} {c : Char} {cs rest : List Char} {ts : List Token} :
    isBlank c = true → Cuts (position + 1) cs ts rest → Cuts position (c :: cs) ts rest
  | token {t : Token} {cs rest : List Char} {ts : List Token} :
    t.kind.HasText t.chars → (∀ c ∈ (cs ++ rest).head?, t.kind.takes t.chars c = false) →
    Cuts (t.position + t.chars.length) cs ts rest → Cuts t.position (t.chars ++ cs) (t :: ts) rest

variable {c : Char} {cs ds rest more : List Char} {kind : Kind} {l : Literal} {t : Token}
  {ts us : List Token} {position : Nat}

theorem fractionValue_append (ds fs : List Char) :
    fractionValue (ds ++ fs) = fractionValue ds + fractionValue fs / 10 ^ ds.length := by
  induction ds with
  | nil => simp [fractionValue]
  | cons d ds ih =>
    rw [List.cons_append, fractionValue, ih, fractionValue, List.length_cons, pow_succ]
    field_simp
    ring

theorem fractionValue_bounds (h : ∀ d ∈ ds, d.isDigit = true) :
    0 ≤ fractionValue ds ∧ fractionValue ds < 1 := by
  have hlt : (digitsValue ds : ℚ) < 10 ^ ds.length := by exact_mod_cast digitsValue_lt h
  rw [fractionValue_eq]
  exact ⟨by positivity, (div_lt_one (by positivity)).mpr hlt⟩

theorem Literal.value_eq_floor (h : l.WellFormed) : l.value = ⌊l.rational * 10 ^ places⌋ := by
  obtain ⟨kept, beyond, hsplit, hvalue, hlength, hlast⟩ : ∃ kept beyond,
      l.fractionDigits = kept ++ beyond ∧ l.value = Literal.value ⟨l.whole, some kept⟩ ∧
        kept.length ≤ places ∧ (beyond = [] ∨ kept.length = places) := by
    refine ⟨l.fractionDigits.take places, l.fractionDigits.drop places,
      (List.take_append_drop ..).symm, ?_, List.length_take_le _ _, ?_⟩
    · simp [Literal.value, ofDigits, fractionDigits, List.take_take]
    · rw [List.drop_eq_nil_iff, List.length_take]
      omega
  have hone : (one : ℚ) = 10 ^ places := cast_tenPow (by decide)
  have hkept : (l.value : ℚ) = (digitsValue l.whole + fractionValue kept) * 10 ^ places := by
    have hexact := toRat_value (l := ⟨l.whole, some kept⟩) hlength
    rw [hvalue, ← toRat_mul_one, hexact, hone]
    rfl
  have hbeyond := fractionValue_bounds fun d hd => h.fraction d (hsplit ▸ List.mem_append_right _ hd)
  have hrational : l.rational * 10 ^ places =
      l.value + fractionValue beyond * 10 ^ (places - kept.length) := by
    have hscale : (10 : ℚ) ^ places = 10 ^ (places - kept.length) * 10 ^ kept.length := by
      rw [← pow_add, Nat.sub_add_cancel hlength]
    rw [Literal.rational, hsplit, fractionValue_append, hkept, hscale]
    field_simp
    ring
  -- What lies beyond the grid counts only where the grid is full.
  have hcut : fractionValue beyond * 10 ^ (places - kept.length) = fractionValue beyond := by
    rcases hlast with rfl | hfull
    · simp [fractionValue]
    · rw [hfull, Nat.sub_self, pow_zero, mul_one]
  rw [eq_comm, Int.floor_eq_iff, hrational, hcut]
  exact ⟨by linarith, by linarith⟩

theorem takeLiteral_wellFormed (h : l.WellFormed)
    (hrest : ∀ c ∈ rest.head?, c.isDigit = false ∧ (c = '.' → l.fraction ≠ none)) :
    takeLiteral (l.chars ++ rest) = (l, rest) := by
  have hdigit : ∀ c ∈ rest.head?, c.isDigit = false := fun c hc => (hrest c hc).1
  obtain ⟨whole, fraction⟩ := l
  cases fraction with
  | none =>
    have hpoint (more : List Char) : rest ≠ '.' :: more := by
      rintro rfl
      exact (hrest '.' rfl).2 rfl rfl
    change takeLiteral (whole ++ rest) = _
    rw [takeLiteral, takeWhile_append_of_head hdigit, dropWhile_append_of_head hdigit,
      List.takeWhile_eq_self_iff.mpr h.whole, List.dropWhile_eq_nil_iff.mpr h.whole]
    split
    · next hcons => exact absurd hcons (hpoint _)
    · rfl
  | some ds =>
    have hds : ∀ d ∈ ds, d.isDigit = true := h.fraction
    change takeLiteral ((whole ++ '.' :: ds) ++ rest) = _
    rw [List.append_assoc, List.cons_append, takeLiteral_point h.whole,
      takeWhile_append_of_head hdigit, dropWhile_append_of_head hdigit,
      List.takeWhile_eq_self_iff.mpr hds, List.dropWhile_eq_nil_iff.mpr hds, List.nil_append]

theorem wellFormed_takeLiteral (h : startsNumber cs = true) : (takeLiteral cs).1.WellFormed := by
  have hdigit (xs : List Char) : ∀ d ∈ xs.takeWhile Char.isDigit, d.isDigit = true :=
    fun d hd => List.mem_takeWhile_imp hd
  constructor
  case whole =>
    unfold takeLiteral
    split <;> exact hdigit cs
  case fraction =>
    unfold takeLiteral
    split
    · exact hdigit _
    · exact nofun
  case nonempty =>
    unfold startsNumber at h
    split at h
    · next d more =>
      right
      simp [takeLiteral, Literal.fractionDigits, List.takeWhile, List.dropWhile, h]
    · left
      unfold takeLiteral
      split <;> simp [List.takeWhile, h]
    · cases h

theorem startsNumber_chars (h : l.WellFormed) : startsNumber l.chars = true := by
  obtain ⟨whole, fraction⟩ := l
  cases whole with
  | cons d ds =>
    have hd : d.isDigit = true := h.whole d List.mem_cons_self
    cases fraction <;> exact startsNumber_of_isDigit hd
  | nil =>
    cases fraction with
    | none => exact absurd h.nonempty (by simp [Literal.fractionDigits])
    | some fs =>
      cases fs with
      | nil => exact absurd h.nonempty (by simp [Literal.fractionDigits])
      | cons d ds => exact h.fraction d List.mem_cons_self

theorem hasText_iff_spelled : kind.HasText cs ↔ Spelled kind cs := by
  constructor
  · intro h
    cases h with
    | symbol h => exact .symbol h
    | word h => exact .word h
    | number l h =>
      have hcut : takeLiteral (l.chars ++ []) = (l, []) := takeLiteral_wellFormed h nofun
      rw [List.append_nil] at hcut
      have hspelled := Spelled.number (startsNumber_chars h) (by rw [hcut])
      rwa [hcut, Literal.value_eq_floor h] at hspelled
  · intro h
    cases h with
    | symbol h => exact .symbol h
    | word h => exact .word h
    | number h hall =>
      have hcut := takeLiteral_append cs
      rw [hall, List.append_nil] at hcut
      have hnumber := Kind.HasText.number _ (wellFormed_takeLiteral h)
      rwa [hcut, ← Literal.value_eq_floor (wellFormed_takeLiteral h)] at hnumber

theorem fraction_ne_none (h : l.WellFormed) (hpoint : '.' ∈ l.chars) : l.fraction ≠ none := by
  intro hnone
  rw [Literal.chars, hnone] at hpoint
  exact absurd (h.whole '.' hpoint) (by decide)

theorem takes_of_goesOn (h : kind.goesOn c = false) (cs : List Char) :
    kind.takes cs c = false := by
  cases kind with
  | number x =>
    have hnumber : c.isDigit = false ∧ c ≠ '.' := by simpa [Kind.goesOn] using h
    simp [Kind.takes, hnumber]
  | _ => exact h

theorem scan_hasText (h : kind.HasText cs) (hrest : ∀ c ∈ rest.head?, kind.takes cs c = false)
    (position : Nat) : scan position (cs ++ rest) =
      (scan (position + cs.length) rest).map (⟨kind, position, String.ofList cs⟩ :: ·) := by
  cases h with
  | symbol h => exact scan_append (.symbol h) (fun d _ => goesOn_of_symbol? h d) position
  | word h => exact scan_append (.word h) hrest position
  | number l h =>
    have hcut : takeLiteral (l.chars ++ rest) = (l, rest) := by
      refine takeLiteral_wellFormed h fun c hc => ?_
      have htakes := hrest c hc
      simp only [Kind.takes, Bool.or_eq_false_iff] at htakes
      refine ⟨htakes.1, ?_⟩
      rintro rfl
      exact fraction_ne_none h (by simpa using htakes.2)
    rw [scan_literal (startsNumber_append (startsNumber_chars h)), hcut,
      Literal.value_eq_floor h]

/-- The lexer goes on behind what is cut, with the tokens of it in front of the others. -/
theorem Cuts.scan_append (h : Cuts position cs ts rest) : scan position (cs ++ rest) =
    (scan (position + cs.length) rest).map (ts ++ ·) := by
  induction h with
  | done position rest => exact (congrFun Except.map_id (scan position rest)).symm
  | @blank position c cs rest ts hc _ ih =>
    rw [List.cons_append, scan_blank_cons hc, ih, List.length_cons, Nat.add_right_comm,
      Nat.add_assoc]
  | @token t cs rest ts htext htakes _ ih =>
    rw [List.append_assoc, scan_hasText htext htakes, ih, List.length_append, Nat.add_assoc]
    have htoken : (⟨t.kind, t.position, String.ofList t.chars⟩ : Token) = t := by
      rw [chars, String.ofList_toList]
    rw [htoken]
    cases scan (t.position + (t.chars.length + cs.length)) rest <;> rfl

theorem takes_takeLiteral (x : Int) (cs : List Char) :
    ∀ c ∈ (takeLiteral cs).2.head?, (Kind.number x).takes (takeLiteral cs).1.chars c = false := by
  have hdigit (xs : List Char) : ∀ c ∈ (xs.dropWhile Char.isDigit).head?, c.isDigit = false := by
    intro c hc
    have h := List.head?_dropWhile_not Char.isDigit xs
    rw [hc] at h
    simpa using h
  unfold takeLiteral
  split
  · next more _ =>
    intro c hc
    simp [Kind.takes, hdigit more c hc, Literal.chars]
  · next hpoint =>
    intro c hc
    have hne : c ≠ '.' := by
      rintro rfl
      obtain ⟨more, hmore⟩ := List.head?_eq_some_iff.mp hc
      exact hpoint more hmore
    simp [Kind.takes, hdigit cs c hc, hne]

theorem Cuts.spelled (h : kind.HasText ds)
    (htakes : ∀ c ∈ (cs ++ rest).head?, kind.takes ds c = false)
    (hcs : Cuts (position + ds.length) cs ts rest) :
    Cuts position (ds ++ cs) (⟨kind, position, String.ofList ds⟩ :: ts) rest := by
  have hchars : chars ⟨kind, position, String.ofList ds⟩ = ds := String.toList_ofList
  have htoken := @Cuts.token ⟨kind, position, String.ofList ds⟩ cs rest ts
  rw [hchars] at htoken
  exact htoken h htakes hcs

theorem begins_iff : Begins c rest ↔ isBlank c = true ∨ (∃ kind, symbol? c = some kind) ∨
    isWordStart c = true ∨ startsNumber (c :: rest) = true := by
  have hnumber : startsNumber (c :: rest) = true ↔
      c.isDigit = true ∨ c = '.' ∧ ∃ d ∈ rest.head?, d.isDigit = true := by
    unfold startsNumber
    split
    · next d more hcons =>
      obtain ⟨rfl, rfl⟩ := List.cons.inj hcons
      have hpoint : '.'.isDigit = false := by decide
      simp [hpoint]
    · next d more hpoint hcons =>
      obtain ⟨rfl, rfl⟩ := List.cons.inj hcons
      refine ⟨.inl, fun h => h.resolve_right ?_⟩
      rintro ⟨rfl, e, he, -⟩
      obtain ⟨more, rfl⟩ := List.head?_eq_some_iff.mp he
      exact hpoint e more rfl rfl
    · next hcons => cases hcons
  rw [Begins, hnumber]

/-- Every text is cut into tokens up to a place where the lexer stops. -/
theorem exists_cuts (position : Nat) (cs : List Char) :
    ∃ front ts rest, cs = front ++ rest ∧ Cuts position front ts rest ∧ Blocked rest := by
  fun_induction scan position cs with
  | case1 position => exact ⟨[], [], [], rfl, .done position [], trivial⟩
  | case2 position c cs hblank ih =>
    obtain ⟨front, ts, rest, rfl, hcuts, hblocked⟩ := ih
    exact ⟨c :: front, ts, rest, rfl, hcuts.blank hblank, hblocked⟩
  | case3 position c cs _ kind hkind ih =>
    obtain ⟨front, ts, rest, rfl, hcuts, hblocked⟩ := ih
    refine ⟨[c] ++ front, _, rest, rfl, hcuts.spelled (.symbol hkind) fun d _ => ?_, hblocked⟩
    exact takes_of_goesOn (goesOn_of_symbol? hkind d) [c]
  | case4 position c cs _ _ hstart letters =>
    rename_i name ih
    obtain ⟨front, ts, rest, hcs, hcuts, hblocked⟩ := ih
    have hcut : c :: cs = letters ++ front ++ rest := by
      rw [List.append_assoc, ← hcs, List.cons_append, List.takeWhile_append_dropWhile]
    refine ⟨letters ++ front, _, rest, hcut,
      hcuts.spelled (.word (isWordText_takeWhile hstart)) ?_, hblocked⟩
    rw [← hcs]
    exact stops_dropWhile cs
  | case5 position c cs _ _ _ hnumber parts =>
    rename_i chars ih
    obtain ⟨front, ts, rest, hcs, hcuts, hblocked⟩ := ih
    have hcut : c :: cs = chars ++ front ++ rest := by
      rw [List.append_assoc, ← hcs]
      exact (takeLiteral_append (c :: cs)).symm
    refine ⟨chars ++ front, _, rest, hcut,
      hcuts.spelled (.number _ (wellFormed_takeLiteral hnumber)) ?_, hblocked⟩
    rw [← hcs]
    exact takes_takeLiteral _ (c :: cs)
  | case6 position c cs hblank hsymbol hstart hnumber =>
    refine ⟨[], [], c :: cs, rfl, .done position _, fun hbegins => ?_⟩
    simp_all [begins_iff]

theorem scan_blocked (hcs : Blocked (c :: cs)) (position : Nat) :
    scan position (c :: cs) = .error (.malformed (.unexpectedCharacter c position)) := by
  have h := mt begins_iff.mpr hcs
  simp only [not_or, not_exists] at h
  obtain ⟨hblank, hsymbol, hstart, hnumber⟩ := h
  rw [scan, if_neg hblank, Option.eq_none_iff_forall_ne_some.mpr hsymbol]
  simp only [hstart, hnumber]
  rfl

theorem Cuts.alone (h : Cuts position cs ts rest) : Cuts position cs ts [] := by
  induction h with
  | done => exact .done ..
  | blank hc _ ih => exact .blank hc ih
  | @token t cs rest ts htext htakes _ ih =>
    refine .token htext (fun c hc => htakes c ?_) ih
    rw [List.append_nil] at hc
    rw [Option.mem_def, List.head?_append, Option.mem_def.mp hc]
    rfl

theorem Cuts.scan_all (h : Cuts position cs ts []) : scan position cs = .ok ts := by
  have hscan := h.scan_append
  rw [List.append_nil, scan] at hscan
  rw [hscan]
  exact congrArg Except.ok (List.append_nil ts)

theorem Cuts.scan_stuck (h : Cuts position cs ts (c :: rest))
    (hblocked : Blocked (c :: rest)) : scan position (cs ++ c :: rest) =
      .error (.malformed (.unexpectedCharacter c (position + cs.length))) := by
  rw [h.scan_append, scan_blocked hblocked]
  rfl

theorem scan_eq_ok_iff : scan position cs = .ok ts ↔ Cuts position cs ts [] := by
  refine ⟨fun h => ?_, Cuts.scan_all⟩
  obtain ⟨front, us, rest, rfl, hcuts, hblocked⟩ := exists_cuts position cs
  cases rest with
  | nil =>
    rw [List.append_nil] at h ⊢
    obtain rfl := Except.ok.inj (hcuts.scan_all.symm.trans h)
    exact hcuts
  | cons c rest => cases (hcuts.scan_stuck hblocked).symm.trans h

end Reckoner.Token
