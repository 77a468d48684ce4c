import Reckoner.Proofs.Kinds
import Reckoner.Proofs.Reader.Grammar
import Reckoner.Proofs.Text.Trim
import Reckoner.Proofs.Token.Spelling

set_option autoImplicit false

namespace Reckoner

namespace Catalogue

def names : List String := Function.all.map Function.name ++ Constant.all.map Constant.name

theorem mem_names {name : String} (h : contains name = true) : name ∈ names := by
  rcases contains_cases h with ⟨f, rfl⟩ | ⟨c, rfl⟩
  · exact List.mem_append_left _ (List.mem_map_of_mem f.mem_all)
  · exact List.mem_append_right _ (List.mem_map_of_mem c.mem_all)

theorem toList_lowercase (w : String) : (lowercase w).toList = w.toList.map Char.toLower := by
  rw [lowercase, String.toList_ofList]

/-- In any case, only one name goes on behind a constant: exp begins with the constant E. -/
theorem drop_constant : ∀ name ∈ names, ∀ c ∈ Constant.all,
    (lowercase c.name).toList <+: (lowercase name).toList →
      ((lowercase name).toList.drop c.name.length).head? ∈ [none, some 'x'] := by
  decide +kernel

theorem head?_names : ∀ name ∈ names, (lowercase name).toList.head? ≠ some 'x' := by
  decide +kernel

theorem toLower_of_isDigit {d : Char} (h : d.isDigit = true) : d.toLower = d := by
  have hle : d.toNat ≤ 57 := (Token.toNat_of_isDigit h).2
  refine Char.toLower_eq_of_not_isUpper ?_
  simp only [Char.isUpper, decide_eq_true_eq, ge_iff_le, UInt32.le_iff_toNat_le]
  rintro ⟨hupper, -⟩
  exact absurd (hupper.trans hle) (by decide)

/-- A constant with the beginning of another name or of a number behind it is no allowed name. -/
theorem not_allowed_append {c : Constant} {d : Char} {ds : List Char}
    (hd : d.isDigit = true ∨ ∃ name, contains name = true ∧ name.toList.head? = some d) :
    ¬Allowed (String.ofList (c.name.toList ++ d :: ds)) := by
  rintro ⟨name, hname, hcase⟩
  have hlist : (lowercase name).toList =
      (lowercase c.name).toList ++ d.toLower :: ds.map Char.toLower := by
    rw [hcase, toList_lowercase, toList_lowercase, String.toList_ofList, List.map_append,
      List.map_cons]
  have hx := drop_constant name (mem_names hname) c c.mem_all ⟨_, hlist.symm⟩
  have hlength : c.name.length = (lowercase c.name).toList.length := by
    rw [String.length_toList, length_lowercase]
  rw [hlist, hlength, List.drop_left] at hx
  have hlower : d.toLower = 'x' := by simpa using hx
  rcases hd with hd | ⟨other, hother, hhead⟩
  · rw [toLower_of_isDigit hd] at hlower
    subst hlower
    cases hd
  · refine head?_names other (mem_names hother) ?_
    rw [toList_lowercase, List.head?_map, hhead, Option.map_some, hlower]

end Catalogue

namespace Token

open Text

variable {c : Char} {cs ds rest : List Char} {k m : Kind} {t : Token} {ts : List Token}

theorem isWordPart_of_symbol? (h : symbol? c = some k) : isWordPart c = false := by
  unfold symbol? at h
  split at h
  all_goals first | decide | cases h

theorem goesOn_cases (h : k.goesOn c = true) :
    (∃ name, k = .word name) ∧ isWordPart c = true ∨
      (∃ x, k = .number x) ∧ (c.isDigit = true ∨ c = '.') := by
  cases k with
  | word name => exact .inl ⟨⟨name, rfl⟩, h⟩
  | number x => exact .inr ⟨⟨x, rfl⟩, by simpa [Kind.goesOn] using h⟩
  | _ => cases h

theorem Spelled.chars_of_word {name : String} (h : Spelled (.word name) cs) : cs = name.toList := by
  generalize hk : Kind.word name = k at h
  cases h with
  | symbol h => exact absurd hk.symm ((symbol?_plain h).1 name)
  | word h =>
    cases hk
    exact String.toList_ofList.symm
  | number => cases hk

theorem Spelled.constant_of_goesOn (hm : Spelled m ds) (hadjoins : Grammar.Adjoins k m)
    (hinto : ds.head?.any k.goesOn = true) :
    ∃ (c : Constant) (d : Char) (more : List Char), k = .word c.name ∧ ds = d :: more ∧
      isWordPart d = true ∧
        (d.isDigit = true ∧ (∃ x, m = .number x) ∨ m = .word (String.ofList ds)) := by
  obtain ⟨d, more, rfl, hhead⟩ := hm.exists_head
  rcases goesOn_cases hinto with ⟨⟨name, rfl⟩, hd⟩ | ⟨⟨x, rfl⟩, hd⟩
  · have hopen : m ≠ .openParen := by
      rintro rfl
      rcases hhead with ⟨hsymbol, -⟩ | ⟨-, hkind⟩ | ⟨-, y, hkind⟩
      · rw [isWordPart_of_symbol? hsymbol] at hd
        cases hd
      · cases hkind
      · cases hkind
    obtain ⟨c, hc⟩ := hadjoins hopen
    refine ⟨c, d, more, ?_, rfl, hd, ?_⟩
    · rw [Constant.name_of_named? hc]
    · rcases hhead with ⟨hsymbol, -⟩ | ⟨-, hkind⟩ | ⟨hdigit | rfl, hnumber⟩
      · rw [isWordPart_of_symbol? hsymbol] at hd
        cases hd
      · exact .inr hkind
      · exact .inl ⟨hdigit, hnumber⟩
      · cases hd
  · exfalso
    rcases hhead with ⟨hsymbol, -⟩ | ⟨hstart, -⟩ | ⟨-, y, hkind⟩
    · rw [symbol?_of_number hd] at hsymbol
      cases hsymbol
    · rw [isWordStart_of_number hd] at hstart
      cases hstart
    · exact hadjoins y hkind

theorem pieces_append_part {letters : List Char} (h : isWordText letters = true)
    (hc : isWordPart c = true) :
    ∃ ds ps, pieces (letters ++ c :: rest) = .word (letters ++ c :: ds) :: ps := by
  obtain ⟨a, as, rfl, ha, has⟩ := exists_of_isWordText h
  refine ⟨rest.takeWhile isWordPart, pieces ((as ++ c :: rest).dropWhile isWordPart), ?_⟩
  rw [List.cons_append, pieces_word ha, List.takeWhile_append_of_pos has,
    List.takeWhile_cons_of_pos hc]
  rfl

theorem exists_pieces_append (hk : Spelled k cs) (hrest : ∀ c ∈ rest.head?, k.goesOn c = false) :
    ∃ ps, pieces (cs ++ rest) = ps ++ pieces rest := by
  cases hk with
  | symbol h => exact ⟨_, pieces_append_others (by simp [isWordStart_of_symbol? h])⟩
  | word h => exact ⟨[.word cs], pieces_append_stops h fun d hd => hrest d hd⟩
  | number _ h =>
    refine ⟨_, pieces_append_others fun d hd => ?_⟩
    rw [← takeLiteral_append cs, h, List.append_nil] at hd
    exact isWordStart_of_mem_takeLiteral hd

/-- Tokens in a row of which one goes on into the next make a word that is no allowed name. -/
theorem exists_unknown_word (hspelled : ∀ t ∈ ts, Spelled t.kind t.chars)
    (hadjoins : (ts.map Token.kind).IsChain Grammar.Adjoins)
    (hallowed : ∀ t ∈ ts, ∀ name, t.kind = .word name → Catalogue.contains name = true)
    (happart : ¬KeepApart ts) :
    ∃ w ∈ (pieces (written ts)).filterMap Piece.word?, ¬Catalogue.Allowed w := by
  induction ts with
  | nil => exact absurd List.isChain_nil happart
  | cons t ts ih =>
    obtain ⟨ht, hts⟩ := List.forall_mem_cons.mp hspelled
    rw [written_cons]
    by_cases hnext : ∀ u ∈ ts.head?, t.runsInto u = false
    · -- The words of the rest stay words, and two of them run together there.
      have hrest : ¬KeepApart ts := fun h => happart (List.isChain_cons.mpr ⟨hnext, h⟩)
      obtain ⟨w, hw, hunknown⟩ := ih hts (List.isChain_cons.mp hadjoins).2
        (fun u hu => hallowed u (List.mem_cons_of_mem t hu)) hrest
      obtain ⟨ps, hps⟩ := exists_pieces_append ht (goesOn_written hts hnext)
      refine ⟨w, ?_, hunknown⟩
      rw [hps, List.filterMap_append]
      exact List.mem_append_right _ hw
    · -- The first two tokens run together.
      cases ts with
      | nil => exact absurd nofun hnext
      | cons u ts =>
        have hinto : t.runsInto u = true := by simpa using hnext
        obtain ⟨hu, -⟩ := List.forall_mem_cons.mp hts
        obtain ⟨c, d, more, hkind, hud, hd, hbegin⟩ := hu.constant_of_goesOn
          ((List.isChain_cons.mp hadjoins).1 _ rfl) hinto
        have htc : t.chars = c.name.toList := Spelled.chars_of_word (hkind ▸ ht)
        obtain ⟨ds, ps, hps⟩ := pieces_append_part
          (isWordText_of_contains (Catalogue.contains_constant c)) hd
        refine ⟨String.ofList (c.name.toList ++ d :: ds), ?_, Catalogue.not_allowed_append ?_⟩
        · rw [htc, written_cons, hud, List.cons_append, hps]
          exact List.mem_cons_self
        · refine hbegin.imp And.left fun hkind => ⟨_, hallowed u ?_ _ hkind, ?_⟩
          · exact List.mem_cons_of_mem t List.mem_cons_self
          · rw [String.toList_ofList, hud, List.head?_cons]

end Token

namespace Text

variable {s : String}

theorem trim_withoutBlanks (s : String) : trim (withoutBlanks s) = withoutBlanks s := by
  have hblank : ∀ c ∈ (withoutBlanks s).toList, isBlank c = false := fun c => mem_withoutBlanks
  rw [trim, trimChars_eq_self (fun c hc => hblank c (List.mem_of_mem_head? hc))
    (fun c hc => hblank c (List.mem_of_mem_getLast? hc)), String.ofList_toList]

theorem length_withoutBlanks_le (s : String) : (withoutBlanks s).length ≤ s.length := by
  rw [withoutBlanks, String.length_ofList, ← String.length_toList]
  exact List.length_filter_le _ _

theorem withoutBlanks_withoutBlanks (s : String) :
    withoutBlanks (withoutBlanks s) = withoutBlanks s := by
  rw [withoutBlanks, withoutBlanks, String.toList_ofList, List.filter_filter]
  simp

end Text

namespace Evaluator

variable {ev : Evaluator} {expression normal : String} {tokens : List Token} {program : Program}

theorem exists_compile_of_evaluate {precision : Nat} {x : Binary64}
    (hnormal : ev.normalize expression = .ok normal)
    (h : ev.evaluate expression precision = .ok x) :
    ∃ tokens program, compile normal = .ok (tokens, program) := by
  cases hcompile : compile normal with
  | error e =>
    rw [evaluate_of_compile_error hnormal hcompile] at h
    cases h
  | ok p => exact ⟨p.1, p.2, rfl⟩

theorem toList_withoutBlanks (htokens : Token.ofText normal = .ok tokens) :
    (Text.withoutBlanks normal).toList = Token.written tokens := by
  rw [Text.withoutBlanks, String.toList_ofList]
  exact (Token.written_of_scan htokens).1

theorem length_kept_le (hnormal : ev.normalize expression = .ok normal) :
    (Text.withoutBlanks normal).length ≤ ev.maxLength :=
  (Text.length_withoutBlanks_le normal).trans (length_of_normalize hnormal)

theorem ofText_withoutBlanks (htokens : Token.ofText normal = .ok tokens)
    (hapart : Token.KeepApart tokens) :
    ∃ us, Token.ofText (Text.withoutBlanks normal) = .ok us ∧
      us.map Token.kind = tokens.map Token.kind := by
  obtain ⟨us, hus, hkinds⟩ := Token.scan_written (Token.written_of_scan htokens).2 hapart 0
  rw [← toList_withoutBlanks htokens] at hus
  exact ⟨us, hus, hkinds⟩

theorem normalize_withoutBlanks (hnormal : ev.normalize expression = .ok normal)
    (hcompile : compile normal = .ok (tokens, program)) (hapart : Token.KeepApart tokens) :
    ev.normalize (Text.withoutBlanks normal) = .ok (Text.withoutBlanks normal) := by
  obtain ⟨us, hus, hkinds⟩ := ofText_withoutBlanks (compile_eq_ok_iff.mp hcompile).1 hapart
  exact normalize_of_kinds hnormal hcompile hus hkinds (Text.trim_withoutBlanks normal)
    (length_kept_le hnormal)

theorem evaluate_withoutBlanks (hnormal : ev.normalize expression = .ok normal)
    (hcompile : compile normal = .ok (tokens, program)) (hapart : Token.KeepApart tokens)
    (precision : Nat) :
    ev.evaluate (Text.withoutBlanks normal) precision = ev.evaluate expression precision := by
  obtain ⟨us, hus, hkinds⟩ := ofText_withoutBlanks (compile_eq_ok_iff.mp hcompile).1 hapart
  exact evaluate_of_kinds hnormal hcompile hus hkinds (Text.trim_withoutBlanks normal)
    (length_kept_le hnormal) precision

theorem evaluate_withoutBlanks_unknown (hnormal : ev.normalize expression = .ok normal)
    (hcompile : compile normal = .ok (tokens, program)) (happart : ¬Token.KeepApart tokens)
    (precision : Nat) :
    ∃ w, ev.evaluate (Text.withoutBlanks normal) precision = .error (.unknownIdentifier w) := by
  obtain ⟨htokens, e, he, -⟩ := compile_eq_ok_iff.mp hcompile
  obtain ⟨w, hw, hunknown⟩ := Token.exists_unknown_word (Token.written_of_scan htokens).2
    (Grammar.adjoining_of_derives he).pairs (vetted_of_normalize hnormal htokens).allowed happart
  rw [← toList_withoutBlanks htokens] at hw
  obtain ⟨v, hv⟩ := Text.exists_firstUnknown hw hunknown
  refine ⟨v, (evaluate_eq_unknown_iff precision).mpr (normalize_eq_unknown_iff.mpr ?_)⟩
  rw [RefusedFor, Text.trim_withoutBlanks]
  refine ⟨fun hempty => ?_, length_kept_le hnormal, hv⟩
  rw [compile_blank (Text.withoutBlanks_eq_empty_iff.mp hempty)] at hcompile
  cases hcompile

end Evaluator

end Reckoner
