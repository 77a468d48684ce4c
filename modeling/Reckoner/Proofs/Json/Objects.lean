import Mathlib.Data.List.Nodup
import Mathlib.Data.List.TakeWhile
import Reckoner.Json.Value
import Reckoner.Proofs.Json.Numerals
import Reckoner.Proofs.Json.Strings

set_option autoImplicit false

namespace Reckoner.Json

variable {name : String} {v : Value} {fs : List (String × Value)}

theorem count_names (name : String) (fs : List (String × Value)) :
    (fs.map Prod.fst).count name = (fs.filter fun f => f.1 = name).length := by
  rw [List.count_eq_countP, List.countP_map, List.countP_eq_length_filter]
  rfl

theorem field?_eq_none_iff : field? name fs = some none ↔ name ∉ fs.map Prod.fst := by
  rw [← List.count_eq_zero, count_names, List.length_eq_zero_iff, field?]
  split
  · next h => simp only [h]
  · next f h => simp only [h, Option.some.injEq, reduceCtorEq, List.cons_ne_nil]
  · next hnil _ => exact ⟨nofun, fun h => absurd h hnil⟩

theorem field?_eq_some_iff :
    field? name fs = some (some v) ↔ (fs.map Prod.fst).count name = 1 ∧ (name, v) ∈ fs := by
  have hmem : (name, v) ∈ fs ↔ (name, v) ∈ fs.filter fun f => f.1 = name := by simp
  rw [hmem, count_names, field?]
  split
  · next h => simp [h]
  · next f h =>
    have hname : f.1 = name := by
      have hf : f ∈ fs.filter fun f => f.1 = name := h ▸ List.mem_singleton_self f
      simpa using (List.mem_filter.mp hf).2
    rw [h]
    simp only [Option.some.injEq, List.length_singleton, List.mem_singleton, true_and]
    rw [Prod.ext_iff, eq_comm]
    simp [hname]
  · next hnil hsingle =>
    refine ⟨nofun, fun h => ?_⟩
    obtain ⟨f, hf⟩ := List.length_eq_one_iff.mp h.1
    exact absurd hf (hsingle f)

theorem field?_of_mem (hnodup : (fs.map Prod.fst).Nodup) (hmem : (name, v) ∈ fs) :
    field? name fs = some (some v) :=
  field?_eq_some_iff.mpr
    ⟨List.count_eq_one_of_mem hnodup (List.mem_map_of_mem (f := Prod.fst) hmem), hmem⟩

/-- Written in front of anything that does not go on with a numeral, the value is read. -/
def Reads (text : List Char) (v : Value) : Prop :=
  ∀ fuel rest, Stops rest → Reader.value? (fuel + 1) (text ++ rest) = some (v, rest)

theorem Reads.ofText? {text : String} {v : Value} (h : Reads text.toList v) :
    Value.ofText? text = some v := by
  have hread := h (2 * text.toList.length + 1) [] nofun
  rw [List.append_nil] at hread
  simp only [Value.ofText?, hread]
  rfl

namespace Reader

variable {c : Char} {cs rest : List Char} {n : Numeral} {fuel : Nat}

theorem skipSpace_cons (h : isSpace c = false) (cs : List Char) : skipSpace (c :: cs) = c :: cs :=
  List.dropWhile_cons_of_neg (by simp [h])

theorem reads_bool (b : Bool) : Reads (boolText b).toList (.bool b) := by
  intro fuel rest _
  cases b
  · rfl
  · rfl

theorem reads_quote (s : String) : Reads (quote s).toList (.string (s.toList.map Piece.ofChar)) := by
  intro fuel rest _
  rw [quote, String.toList_ofList, List.append_assoc, List.cons_append]
  rw [value?, skipSpace_cons (by decide)]
  simp only [List.singleton_append, string?_quoted, Option.map_some]

theorem value?_numeral (hc : c.isDigit = true ∨ c = '-') (fuel : Nat) (cs : List Char) :
    value? (fuel + 1) (c :: cs) = (numeral? (c :: cs)).map fun p => (.number p.1, p.2) := by
  -- No space and no first character of another kind of value begins a numeral.
  have hother (d : Char) (hd : d.isDigit = false ∧ d ≠ '-') : c ≠ d := by
    rintro rfl
    rcases hc with hc | hc
    · rw [hd.1] at hc
      cases hc
    · exact hd.2 hc
  have hspace : isSpace c = false := by
    simp [isSpace, hother ' ' (by decide), hother '\n' (by decide), hother '\t' (by decide),
      hother '\r' (by decide)]
  rw [value?, skipSpace_cons hspace]
  split
  · next h => exact absurd (List.cons.inj h).1 (hother 'n' (by decide))
  · next h => exact absurd (List.cons.inj h).1 (hother 't' (by decide))
  · next h => exact absurd (List.cons.inj h).1 (hother 'f' (by decide))
  · next h => exact absurd (List.cons.inj h).1 (hother '"' (by decide))
  · next h => exact absurd (List.cons.inj h).1 (hother '[' (by decide))
  · next h => exact absurd (List.cons.inj h).1 (hother '\x7b' (by decide))
  · rfl

theorem reads_numeral (h : n.WellFormed) : Reads n.chars (.number n) := by
  intro fuel rest hrest
  have hread := numeral?_append h hrest
  obtain ⟨c, cs, hchars, hc⟩ := head_chars h
  rw [hchars, List.cons_append] at hread ⊢
  rw [value?_numeral hc, hread, Option.map_some]

abbrev Field := String × String × Value

def memberChars (f : Field) : List Char := (quote f.1).toList ++ ':' :: f.2.1.toList

def readMember (f : Field) : List Piece × Value := (f.1.toList.map Piece.ofChar, f.2.2)

variable {f : Field} {fields : List Field}

theorem stops_comma (rest : List Char) : Stops (',' :: rest) := by
  rintro c ⟨⟩
  decide

theorem stops_brace (rest : List Char) : Stops ('\x7d' :: rest) := by
  rintro c ⟨⟩
  decide

theorem exists_memberChars (f : Field) : ∃ cs, memberChars f = '"' :: cs := by
  rw [memberChars, quote, String.toList_ofList]
  exact ⟨_, rfl⟩

theorem skipSpace_colon (cs : List Char) : skipSpace (':' :: cs) = ':' :: cs :=
  skipSpace_cons (by decide) cs

theorem skipSpace_comma (cs : List Char) : skipSpace (',' :: cs) = ',' :: cs :=
  skipSpace_cons (by decide) cs

theorem skipSpace_brace (cs : List Char) : skipSpace ('\x7d' :: cs) = '\x7d' :: cs :=
  skipSpace_cons (by decide) cs

theorem skipSpace_memberChars (f : Field) (rest : List Char) :
    skipSpace (memberChars f ++ rest) = memberChars f ++ rest := by
  obtain ⟨cs, hcs⟩ := exists_memberChars f
  rw [hcs, List.cons_append, skipSpace_cons (by decide)]

theorem memberChars_append (f : Field) (rest : List Char) : memberChars f ++ rest =
    '"' :: (f.1.toList.flatMap escaped ++ '"' :: ':' :: (f.2.1.toList ++ rest)) := by
  rw [memberChars, quote, String.toList_ofList]
  simp only [List.cons_append, List.append_assoc, List.nil_append]

theorem members?_last (h : Reads f.2.1.toList f.2.2) (fuel : Nat) (rest : List Char) :
    members? (fuel + 2) (memberChars f ++ '\x7d' :: rest) = some ([readMember f], rest) := by
  have hvalue := h fuel _ (stops_brace rest)
  rw [members?, skipSpace_memberChars, memberChars_append]
  simp only [string?_quoted, skipSpace_colon, hvalue, skipSpace_brace, Option.bind_eq_bind,
    Option.bind_some]
  rfl

theorem members?_cons (h : Reads f.2.1.toList f.2.2) (fuel : Nat) (rest : List Char) :
    members? (fuel + 2) (memberChars f ++ ',' :: rest) =
      (members? (fuel + 1) rest).map fun p => (readMember f :: p.1, p.2) := by
  have hvalue := h fuel _ (stops_comma rest)
  rw [members?, skipSpace_memberChars, memberChars_append]
  simp only [string?_quoted, skipSpace_colon, hvalue, skipSpace_comma, Option.bind_eq_bind,
    Option.bind_some]
  cases members? (fuel + 1) rest <;> rfl

theorem members?_fields (h : ∀ g ∈ f :: fields, Reads g.2.1.toList g.2.2) (fuel : Nat)
    (rest : List Char) :
    members? (fuel + fields.length + 2)
        ([','].intercalate ((f :: fields).map memberChars) ++ '\x7d' :: rest) =
      some ((f :: fields).map readMember, rest) := by
  -- Each field spends one unit of fuel, and the value of the last one another.
  induction fields generalizing f with
  | nil =>
    rw [List.map_singleton, List.intercalate_singleton]
    exact members?_last (h f List.mem_cons_self) fuel rest
  | cons g more ih =>
    obtain ⟨hf, hmore⟩ := List.forall_mem_cons.mp h
    have hread := ih hmore
    rw [List.map_cons, List.map_cons, List.intercalate_cons_cons, ← List.map_cons]
    rw [List.append_assoc, List.append_assoc, List.singleton_append, List.length_cons,
      ← Nat.add_assoc, members?_cons hf, hread]
    rfl

end Reader

open Reader

variable {f : Field} {fields : List Field}

theorem toList_object (fields : List Field) : (object (fields.map fun f => (f.1, f.2.1))).toList =
    '\x7b' :: ([','].intercalate (fields.map memberChars) ++ ['\x7d']) := by
  have hcomma : ",".toList = [','] := rfl
  have hmember (f : Field) : (quote f.1 ++ ":" ++ f.2.1).toList = memberChars f := by
    simp [memberChars]
  rw [object, String.toList_append, String.toList_append, String.toList_intercalate, hcomma,
    List.map_map, List.map_map]
  simp only [Function.comp_def, hmember]
  rfl

theorem value?_object (h : ∀ g ∈ f :: fields, Reads g.2.1.toList g.2.2) (fuel : Nat)
    (rest : List Char) :
    value? (fuel + fields.length + 3)
        ((object ((f :: fields).map fun f => (f.1, f.2.1))).toList ++ rest) =
      some (.object ((f :: fields).map readMember), rest) := by
  have hread := members?_fields h fuel rest
  obtain ⟨cs, hcs⟩ : ∃ cs, [','].intercalate ((f :: fields).map memberChars) = '"' :: cs := by
    obtain ⟨cs, hcs⟩ := exists_memberChars f
    cases fields with
    | nil => exact ⟨cs, by rw [List.map_singleton, List.intercalate_singleton, hcs]⟩
    | cons g more =>
      rw [List.map_cons, List.map_cons, List.intercalate_cons_cons, hcs]
      exact ⟨_, rfl⟩
  rw [toList_object, List.cons_append, List.append_assoc, List.singleton_append, value?,
    skipSpace_cons (by decide)]
  rw [hcs, List.cons_append] at hread ⊢
  simp only [skipSpace_cons (show isSpace '"' = false by decide), hread, Option.map_some]
  rfl

theorem length_le_intercalate (fields : List Field) :
    fields.length ≤ ([','].intercalate (fields.map memberChars)).length := by
  induction fields with
  | nil => exact Nat.zero_le _
  | cons f more ih =>
    obtain ⟨cs, hcs⟩ := exists_memberChars f
    cases more with
    | nil =>
      rw [List.map_singleton, List.intercalate_singleton, hcs, List.length_cons, List.length_cons]
      exact Nat.succ_le_succ (Nat.zero_le _)
    | cons g more =>
      rw [List.map_cons, List.map_cons, List.intercalate_cons_cons, ← List.map_cons]
      simp only [List.length_append, List.length_cons, List.length_nil] at ih ⊢
      omega

theorem decodeFields?_readMember (fields : List Field) :
    decodeFields? (fields.map readMember) = some (fields.map fun f => (f.1, f.2.2)) := by
  induction fields with
  | nil => rfl
  | cons f more ih =>
    rw [decodeFields?] at ih
    rw [List.map_cons, List.map_cons, decodeFields?, List.mapM_cons, ih, readMember,
      decode?_ofChar]
    rfl

/-- A written object, with any space after it, is read as its fields. -/
theorem ofText?_object (h : ∀ g ∈ f :: fields, Reads g.2.1.toList g.2.2) {space : String}
    (hspace : ∀ c ∈ space.toList, isSpace c = true) :
    Value.ofText? (object ((f :: fields).map fun f => (f.1, f.2.1)) ++ space) =
      some (.object ((f :: fields).map readMember)) := by
  have hlength := length_le_intercalate (f :: fields)
  have htext := toList_object (f :: fields)
  generalize hobject : object ((f :: fields).map fun f => (f.1, f.2.1)) = text at htext
  obtain ⟨fuel, hfuel⟩ : ∃ fuel,
      2 * (text ++ space).toList.length + 2 = fuel + fields.length + 3 := by
    refine ⟨2 * (text ++ space).toList.length - fields.length - 1, ?_⟩
    rw [String.toList_append, htext]
    simp only [List.length_append, List.length_cons] at hlength ⊢
    omega
  have hread := value?_object h fuel space.toList
  rw [hobject, ← String.toList_append, ← hfuel] at hread
  have hrest : skipSpace space.toList = [] := List.dropWhile_eq_nil_iff.mpr hspace
  simp only [Value.ofText?, hread, hrest, List.isEmpty_nil, if_true]

end Reckoner.Json
