import Reckoner.Json.Value

set_option autoImplicit false

namespace Reckoner.Json

variable {c : Char}

def Piece.ofChar (c : Char) : Piece :=
  if c.toNat < 0x20 ∧ c ≠ '\x08' ∧ c ≠ '\t' ∧ c ≠ '\n' ∧ c ≠ '\x0c' ∧ c ≠ '\r' then .unit c.toNat
  else .char c

namespace Reader

theorem hexUnit?_control : ∀ n < 0x20,
    hexUnit? ['0', '0', Uuid.hexChar (n / 16), Uuid.hexChar (n % 16)] = some n := by
  decide

theorem string?_plain (hquote : c ≠ '"') (hbackslash : c ≠ '\\') (hcontrol : ¬c.toNat < 0x20)
    (rest : List Char) :
    string? (c :: rest) = (string? rest).map fun p => (.char c :: p.1, p.2) := by
  rw [string?]
  · rw [if_neg hcontrol]
    cases string? rest <;> rfl
  · exact hquote
  · exact fun _ _ _ _ _ h => absurd h hbackslash
  · exact fun _ _ h => absurd h hbackslash

theorem string?_short {e : Char} (he : escape? e = some c) (rest : List Char) :
    string? ('\\' :: e :: rest) = (string? rest).map fun p => (.char c :: p.1, p.2) := by
  rw [string?]
  · rw [he]
    cases string? rest <;> rfl
  · rintro a b c d more rfl
    cases he

theorem string?_unit {n : Nat} (hn : n < 0x20) (rest : List Char) :
    string? ('\\' :: 'u' :: '0' :: '0' :: Uuid.hexChar (n / 16) :: Uuid.hexChar (n % 16) :: rest) =
      (string? rest).map fun p => (.unit n :: p.1, p.2) := by
  rw [string?, hexUnit?_control n hn]
  cases string? rest <;> rfl

theorem escaped_cases (c : Char) :
    (∃ e, escape? e = some c ∧ escaped c = ['\\', e] ∧ Piece.ofChar c = .char c) ∨
      (c.toNat < 0x20 ∧ Piece.ofChar c = .unit c.toNat ∧ escaped c =
        ['\\', 'u', '0', '0', Uuid.hexChar (c.toNat / 16), Uuid.hexChar (c.toNat % 16)]) ∨
      (c ≠ '"' ∧ c ≠ '\\' ∧ ¬c.toNat < 0x20 ∧ escaped c = [c] ∧ Piece.ofChar c = .char c) := by
  by_cases hshort : c ∈ ['"', '\\', '\x08', '\t', '\n', '\x0c', '\r']
  · simp only [List.mem_cons, List.not_mem_nil, or_false] at hshort
    rcases hshort with rfl | rfl | rfl | rfl | rfl | rfl | rfl
    · exact .inl ⟨'"', by decide⟩
    · exact .inl ⟨'\\', by decide⟩
    · exact .inl ⟨'b', by decide⟩
    · exact .inl ⟨'t', by decide⟩
    · exact .inl ⟨'n', by decide⟩
    · exact .inl ⟨'f', by decide⟩
    · exact .inl ⟨'r', by decide⟩
  · simp only [List.mem_cons, List.not_mem_nil, or_false, not_or] at hshort
    obtain ⟨hquote, hbackslash, hb, ht, hn, hf, hr⟩ := hshort
    by_cases hcontrol : c.toNat < 0x20
    · refine .inr (.inl ⟨hcontrol, if_pos ⟨hcontrol, hb, ht, hn, hf, hr⟩, ?_⟩)
      simp only [escaped, hquote, hbackslash, hcontrol, hb, ht, hn, hf, hr, if_true, if_false]
    · refine .inr (.inr ⟨hquote, hbackslash, hcontrol, ?_, if_neg fun h => hcontrol h.1⟩)
      simp only [escaped, hquote, hbackslash, hcontrol, if_false]

theorem string?_escaped (c : Char) (rest : List Char) :
    string? (escaped c ++ rest) = (string? rest).map fun p => (Piece.ofChar c :: p.1, p.2) := by
  rcases escaped_cases c with ⟨e, he, hc, hp⟩ | ⟨hcontrol, hp, hc⟩ |
    ⟨hquote, hbackslash, hcontrol, hc, hp⟩
  · rw [hc, hp]
    exact string?_short he rest
  · rw [hc, hp]
    exact string?_unit hcontrol rest
  · rw [hc, hp]
    exact string?_plain hquote hbackslash hcontrol rest

/-- A written text is read up to its closing quote. -/
theorem string?_quoted (cs rest : List Char) :
    string? (cs.flatMap escaped ++ '"' :: rest) = some (cs.map Piece.ofChar, rest) := by
  induction cs with
  | nil => rw [List.flatMap_nil, List.nil_append, string?, List.map_nil]
  | cons c cs ih =>
    rw [List.flatMap_cons, List.append_assoc, string?_escaped, ih, Option.map_some, List.map_cons]

end Reader

theorem decodeChars?_unit {u : Nat} (hu : u < 0xD800) (ps : List Piece) :
    decodeChars? (.unit u :: ps) = (decodeChars? ps).map (Char.ofNat u :: ·) := by
  have hhalf : ¬(0xD800 ≤ u ∧ u < 0xE000) := by omega
  have hfirst : ¬(0xD800 ≤ u ∧ u < 0xDC00) := by omega
  have hsecond : ¬(0xDC00 ≤ u ∧ u < 0xE000) := by omega
  cases ps with
  | nil => simp only [decodeChars?, hhalf, if_false]
  | cons p ps =>
    cases p with
    | char c => simp only [decodeChars?, hhalf, if_false]
    | unit v => rw [decodeChars?, if_neg hsecond, if_neg hfirst]

theorem decodeChars?_ofChar (cs : List Char) : decodeChars? (cs.map Piece.ofChar) = some cs := by
  induction cs with
  | nil => rfl
  | cons c cs ih =>
    rw [List.map_cons, Piece.ofChar]
    split
    · next hc =>
      have hu : c.toNat < 0xD800 := Nat.lt_trans hc.1 (by decide)
      rw [decodeChars?_unit hu, ih, Option.map_some, Char.ofNat_toNat]
    · rw [decodeChars?, ih, Option.map_some]

theorem decode?_ofChar (s : String) : decode? (s.toList.map Piece.ofChar) = some s := by
  rw [decode?, decodeChars?_ofChar, Option.map_some, String.ofList_toList]

end Reckoner.Json
