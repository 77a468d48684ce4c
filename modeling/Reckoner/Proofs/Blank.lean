import Reckoner.Proofs.Classification

set_option autoImplicit false

namespace Reckoner

namespace Text

theorem isAllBlank_iff {s : String} : isAllBlank s = true ↔ ∀ c ∈ s.toList, isBlank c = true := by
  rw [isAllBlank, List.all_eq_true]

theorem ofList_eq_empty_iff {cs : List Char} : String.ofList cs = "" ↔ cs = [] := by
  rw [← String.ofList_nil, String.ofList_inj]

theorem trim_eq_empty_iff {s : String} : trim s = "" ↔ isAllBlank s = true := by
  have hleft : (∀ c ∈ trimLeft s.toList, isBlank c = true) ↔ ∀ c ∈ s.toList, isBlank c = true := by
    rw [← List.dropWhile_eq_nil_iff, ← List.dropWhile_eq_nil_iff, trimLeft,
      List.dropWhile_idempotent]
  rw [trim, ofList_eq_empty_iff, trimChars, trimRight, List.reverse_eq_nil_iff,
    List.dropWhile_eq_nil_iff, isAllBlank_iff, ← hleft]
  simp only [List.mem_reverse]

theorem withoutBlanks_eq_empty_iff {s : String} : withoutBlanks s = "" ↔ isAllBlank s = true := by
  rw [withoutBlanks, ofList_eq_empty_iff, List.filter_eq_nil_iff, isAllBlank_iff]
  simp

theorem mem_withoutBlanks {s : String} {c : Char} (h : c ∈ (withoutBlanks s).toList) :
    isBlank c = false := by
  rw [withoutBlanks, String.toList_ofList, List.mem_filter] at h
  simpa using h.2

end Text

theorem Token.scan_blank {cs : List Char} (h : ∀ c ∈ cs, Text.isBlank c = true) (position : Nat) :
    scan position cs = .ok [] := by
  induction cs generalizing position with
  | nil => rw [scan]
  | cons c rest ih =>
    rw [scan, if_pos (h c List.mem_cons_self)]
    exact ih (fun d hd => h d (List.mem_cons_of_mem c hd)) _

/-- The errors that a text not blank can have before it is run. -/
inductive EvalError.OfText : EvalError → Prop where
  | malformed (cause : Malformation) : OfText (.malformed cause)
  | unknownIdentifier (word : String) : OfText (.unknownIdentifier word)

namespace Cursor

variable {cursor : Cursor} {t : Token} {ts : List Token} {e : EvalError}

theorem openBracket_error {position : Nat} {frames : List Frame} {next : Cursor}
    (h : openBracket position frames next = .error e) : e.OfText := by
  unfold openBracket at h
  split at h <;> cases h
  exact .malformed _

theorem readOpen_error (h : cursor.readOpen t = .error e) : e.OfText := by
  unfold readOpen at h
  split at h
  · cases h
    exact .malformed _
  · exact openBracket_error h
  · exact openBracket_error h

theorem readOperator_error {op : Operator} (h : cursor.readOperator op t = .error e) :
    e.OfText := by
  cases cursor <;> cases h <;> exact .malformed _

theorem readComma_error (h : cursor.readComma t = .error e) : e.OfText := by
  unfold readComma at h
  split at h
  · split at h <;> cases h
    exact .malformed _
  · cases h
    exact .malformed _

theorem readClose_error (h : cursor.readClose t = .error e) : e.OfText := by
  unfold readClose at h
  split at h
  · cases h
  · split at h <;> cases h
    exact .malformed _
  · cases h
    exact .malformed _

theorem readWord_error {name : String} {position : Nat} {frames : List Frame}
    (h : readWord name position frames = .error e) : e.OfText := by
  unfold readWord at h
  split at h
  · cases h
  · split at h <;> cases h
    exact .unknownIdentifier _

theorem step_error (h : cursor.step t = .error e) : e.OfText := by
  unfold step at h
  split at h
  · split at h
    · exact readOpen_error h
    · cases h
      exact .malformed _
  · have hreading := reading cursor t
    generalize cursor.read t = outcome at h hreading
    cases hreading with
    | number | sign => cases h
    | unexpectedPart =>
      cases h
      exact .malformed _
    | word => exact readWord_error h
    | operator => exact readOperator_error h
    | comma => exact readComma_error h
    | openParen => exact readOpen_error h
    | closeParen => exact readClose_error h

theorem foldlM_step_error (h : ts.foldlM step cursor = .error e) : e.OfText := by
  induction ts generalizing cursor with
  | nil => cases h
  | cons t ts ih =>
    rw [List.foldlM_cons] at h
    rcases bind_eq_error_iff.mp h with hstep | ⟨next, -, hrest⟩
    · exact step_error hstep
    · exact ih hrest

theorem finish_error {length : Nat} (h : cursor.finish length = .error e) : e.OfText := by
  unfold finish at h
  split at h
  · cases h
    exact .malformed _
  · split at h <;> cases h
    exact .malformed _
  · cases h
    exact .malformed _

end Cursor

theorem Expr.ofTokens_error {ts : List Token} {length : Nat} {e : EvalError}
    (h : ofTokens ts length = .error e) : e.OfText := by
  rcases bind_eq_error_iff.mp h with hread | ⟨cursor, -, hfinish⟩
  · exact Cursor.foldlM_step_error hread
  · exact Cursor.finish_error hfinish

namespace Evaluator

variable {ev : Evaluator} {expression normal : String} {precision : Nat} {e : EvalError}
  {x : Binary64}

theorem compile_error (h : compile normal = .error e) : e.OfText := by
  rcases bind_eq_error_iff.mp h with hlex | ⟨tokens, -, hread⟩
  · obtain ⟨c, p, rfl⟩ := Token.scan_error hlex
    exact .malformed _
  · exact Expr.ofTokens_error (Program.ofTokens_eq_error_iff.mp (map_eq_error_iff.mp hread))

theorem compile_blank (h : Text.isAllBlank normal = true) :
    compile normal = .error (.malformed (.endOfInput normal.length)) := by
  have hscan : Token.ofText normal = .ok [] := Token.scan_blank (Text.isAllBlank_iff.mp h) 0
  rw [compile_eq, hscan]
  rfl

theorem normalize_eq_empty_iff :
    ev.normalize expression = .error .empty ↔ Text.isAllBlank expression = true := by
  rw [normalize_eq, ← Text.trim_eq_empty_iff]
  split
  · next htrim => simp [htrim]
  · next htrim =>
    simp only [htrim, iff_false]
    split
    · exact nofun
    · rw [map_eq_error_iff]
      intro hcheck
      unfold Text.checkWords at hcheck
      split at hcheck <;> cases hcheck

theorem classify_ne_empty (precision : Nat) (v : Number) :
    classify precision v ≠ .error .empty := by
  unfold classify
  cases v.toBinary64 (min precision precisionLimit) <;> exact nofun

theorem isFinite_of_classify {v : Number} (h : classify precision v = .ok x) :
    x.isFinite = true := by
  unfold classify at h
  generalize v.toBinary64 (min precision precisionLimit) = y at h
  cases y <;> cases h
  rfl

/-- An expression fails as empty exactly when it holds blanks alone. -/
theorem evaluate_eq_empty_iff (precision : Nat) :
    ev.evaluate expression precision = .error .empty ↔ Text.isAllBlank expression = true := by
  rw [← @normalize_eq_empty_iff ev]
  unfold evaluate
  rw [bind_eq_error_iff, or_iff_left]
  rintro ⟨normal, -, h⟩
  rcases bind_eq_error_iff.mp h with hcompile | ⟨⟨tokens, program⟩, hcompile, h⟩
  · cases compile_error hcompile
  · rcases bind_eq_error_iff.mp h with hrun | ⟨v, -, hclassify⟩
    · cases ofOperation_of_compile hcompile hrun
    · exact classify_ne_empty precision v hclassify

theorem evaluate_eq_ok (h : ev.evaluate expression precision = .ok x) :
    x.isFinite = true ∧ ∃ normal, ev.normalize expression = .ok normal ∧
      Text.isAllBlank normal = false := by
  obtain ⟨normal, hnormal, h⟩ := bind_eq_ok_iff.mp h
  obtain ⟨⟨tokens, program⟩, hcompile, h⟩ := bind_eq_ok_iff.mp h
  obtain ⟨v, -, hclassify⟩ := bind_eq_ok_iff.mp h
  refine ⟨isFinite_of_classify hclassify, normal, hnormal, ?_⟩
  by_contra hblank
  rw [compile_blank (Bool.not_eq_false _ ▸ hblank)] at hcompile
  cases hcompile

end Evaluator

end Reckoner
