import Reckoner.Proofs.Allowlist
import Reckoner.Proofs.Text.Case
import Reckoner.Proofs.Token.Cutting

set_option autoImplicit false

namespace Reckoner.Token

open Text

def canonicalChars (cs : List Char) : List Char := joined ((pieces cs).map Piece.canonical)

def recased (t : Token) : Token :=
  match t.kind with
  | .word w => ⟨.word (Catalogue.canonicalWord w), t.position, Catalogue.canonicalWord w⟩
  | _ => t

def moved (k : Nat) (t : Token) : Token := { t with position := k + t.position }

variable {c : Char} {bs cs rest : List Char} {kind : Kind} {position : Nat} {ts : List Token}

theorem toList_normalize (s : String) : (normalize s).toList = canonicalChars s.toList := by
  rw [Text.normalize_eq, String.toList_ofList]
  rfl

theorem canonicalChars_others (h : ∀ c ∈ cs, isWordStart c = false) :
    canonicalChars (cs ++ rest) = cs ++ canonicalChars rest := by
  rw [canonicalChars, pieces_append_others h, List.map_append, joined_append,
    joined_canonical_others, canonicalChars]

theorem canonicalChars_other (h : isWordStart c = false) :
    canonicalChars (c :: cs) = c :: canonicalChars cs :=
  canonicalChars_others fun _ hd => List.mem_singleton.mp hd ▸ h

theorem canonicalChars_word (h : isWordStart c = true) : canonicalChars (c :: cs) =
    (Catalogue.canonicalWord (String.ofList (c :: cs.takeWhile isWordPart))).toList ++
      canonicalChars (cs.dropWhile isWordPart) := by
  rw [canonicalChars, pieces_word h, List.map_cons, Piece.canonical_word]
  rfl

theorem head?_canonicalChars (cs : List Char) :
    ∀ d ∈ (canonicalChars cs).head?, d ∈ cs.head? ∨ isWordStart d = true := by
  cases cs with
  | nil =>
    rw [canonicalChars, pieces_nil]
    exact nofun
  | cons c cs =>
    intro d hd
    by_cases hc : isWordStart c = true
    · have hletters : isWordText (c :: cs.takeWhile isWordPart) = true := isWordText_takeWhile hc
      obtain ⟨e, es, hword, he, -⟩ := exists_of_isWordText (isWordText_canonicalWord hletters)
      rw [canonicalChars_word hc, hword] at hd
      obtain rfl := Option.some.inj hd
      exact .inr he
    · rw [canonicalChars_other (Bool.of_not_eq_true hc)] at hd
      exact .inl hd

theorem takes_of_isWordStart (x : Int) (h : isWordStart c = true) (cs : List Char) :
    (Kind.number x).takes cs c = false := by
  refine takes_of_goesOn (Bool.eq_false_iff.mpr fun hgoes => ?_) cs
  rw [isWordStart_of_number (by simpa [Kind.goesOn] using hgoes)] at h
  cases h

theorem Begins.of_canonicalChars (h : Begins c (canonicalChars cs)) : Begins c cs := by
  refine h.imp_right (Or.imp_right (Or.imp_right (Or.imp_right ?_)))
  rintro ⟨rfl, d, hd, hdigit⟩
  refine ⟨rfl, d, (head?_canonicalChars cs d hd).resolve_right ?_, hdigit⟩
  simp [isWordStart_of_number (.inl hdigit)]

theorem recased_of_not_word {t : Token} (h : ∀ w, t.kind ≠ .word w) : t.recased = t := by
  unfold recased
  split
  · next w hw => exact absurd hw (h w)
  · rfl

theorem map_recased_cons (t : Token) (x : Except EvalError (List Token)) :
    (x.map (t :: ·)).map (List.map recased) =
      (x.map (List.map recased)).map (t.recased :: ·) := by
  cases x <;> rfl

/-- The lexer reads a text in canonical case as the text itself, but for the case of the words. -/
theorem scan_canonicalChars (position : Nat) (cs : List Char) :
    scan position (canonicalChars cs) = (scan position cs).map (List.map recased) := by
  fun_induction scan position cs with
  | case1 position =>
    rw [canonicalChars, pieces_nil]
    exact scan_eq_ok_iff.mpr (.done position [])
  | case2 position c cs hblank ih =>
    rw [canonicalChars_other (isWordStart_of_isBlank hblank), scan_blank_cons hblank, ih]
  | case3 position c cs _ kind hkind ih =>
    rw [canonicalChars_other (isWordStart_of_symbol? hkind), map_recased_cons, ← ih,
      recased_of_not_word (symbol?_plain hkind).1]
    exact scan_hasText (.symbol hkind)
      (fun d _ => takes_of_goesOn (goesOn_of_symbol? hkind d) [c]) position
  | case4 position c cs _ _ hstart letters =>
    rename_i name ih
    have hletters : isWordText letters = true := isWordText_takeWhile hstart
    have hlength : (Catalogue.canonicalWord (String.ofList letters)).toList.length =
        letters.length := by
      rw [String.length_toList, Catalogue.length_canonicalWord, String.length_ofList]
    have hstops : Stops (canonicalChars (cs.dropWhile isWordPart)) :=
      stops_canonical (stops_dropWhile cs)
    have hscan := scan_hasText (.word (isWordText_canonicalWord hletters)) hstops position
    rw [hlength, String.ofList_toList] at hscan
    rw [canonicalChars_word hstart, map_recased_cons, ← ih]
    exact hscan
  | case5 position c cs _ _ _ hnumber parts =>
    rename_i chars ih
    have hcut : c :: cs = chars ++ parts.2 := (takeLiteral_append (c :: cs)).symm
    have htext := Kind.HasText.number _ (wellFormed_takeLiteral hnumber)
    rw [← Literal.value_eq_floor (wellFormed_takeLiteral hnumber)] at htext
    rw [hcut, canonicalChars_others fun d hd => isWordStart_of_mem_takeLiteral hd,
      map_recased_cons, ← ih]
    refine scan_hasText htext (fun d hd => ?_) position
    rcases head?_canonicalChars parts.2 d hd with hd | hd
    · exact takes_takeLiteral _ (c :: cs) d hd
    · exact takes_of_isWordStart _ hd _
  | case6 position c cs hblank hsymbol hstart hnumber =>
    have hblocked : Blocked (c :: cs) := by simp_all [Blocked, begins_iff]
    rw [canonicalChars_other (Bool.of_not_eq_true hstart)]
    exact scan_blocked (mt Begins.of_canonicalChars hblocked) position

theorem Cuts.moved (h : Cuts position cs ts rest) (k : Nat) :
    Cuts (k + position) cs (ts.map (moved k)) rest := by
  induction h with
  | done => exact .done ..
  | blank hc _ ih => exact .blank hc ih
  | @token t cs rest ts htext htakes _ ih =>
    rw [← Nat.add_assoc] at ih
    exact @Cuts.token (Token.moved k t) cs rest _ htext htakes ih

theorem Cuts.behind_blanks (hbs : ∀ b ∈ bs, isBlank b = true)
    (h : Cuts (position + bs.length) cs ts rest) : Cuts position (bs ++ cs) ts rest := by
  induction bs generalizing position with
  | nil => exact h
  | cons b bs ih =>
    obtain ⟨hb, hbs⟩ := List.forall_mem_cons.mp hbs
    refine .blank hb (ih hbs ?_)
    rwa [Nat.add_assoc, Nat.add_comm 1, ← List.length_cons]

theorem Cuts.before_blanks (h : Cuts position cs ts rest) (hbs : ∀ b ∈ bs, isBlank b = true) :
    Cuts position (cs ++ bs) ts [] := by
  induction h with
  | done position =>
    have hdone := Cuts.behind_blanks hbs (.done (position + bs.length) [])
    rwa [List.append_nil] at hdone
  | blank hc _ ih => exact .blank hc ih
  | @token t cs rest ts htext htakes _ ih =>
    rw [List.append_assoc]
    refine .token htext (fun c hc => ?_) ih
    rw [List.append_nil] at hc
    cases cs with
    | nil => exact takes_of_goesOn (goesOn_of_isBlank (hbs c (List.mem_of_mem_head? hc)) _) _
    | cons d ds => exact htakes c hc

/-- Where a text in normal form is read, so is the expression that it comes from, and the tokens are
the same but for their case and for where the text begins. -/
theorem exists_tokens_of_normalize {ev : Evaluator} {expression normal : String}
    (hnormal : ev.normalize expression = .ok normal) (htokens : ofText normal = .ok ts) :
    ∃ us k, ofText expression = .ok us ∧ us.map recased = ts.map (moved k) := by
  obtain ⟨rfl, -⟩ := Evaluator.normalize_eq_ok hnormal
  obtain ⟨lead, trail, hchars, hlead, htrail⟩ := exists_blanks_normalize expression
  have hcuts := scan_eq_ok_iff.mp htokens
  have hmoved := ((hcuts.moved lead.length).before_blanks htrail)
  have hall : scan 0 (normalize expression).toList = .ok (ts.map (moved lead.length)) := by
    rw [hchars, List.append_assoc]
    refine scan_eq_ok_iff.mpr (Cuts.behind_blanks hlead ?_)
    rwa [Nat.zero_add]
  rw [toList_normalize, scan_canonicalChars] at hall
  obtain ⟨us, hus, hrecased⟩ := map_eq_ok_iff.mp hall
  exact ⟨us, lead.length, hus, hrecased⟩

end Reckoner.Token
