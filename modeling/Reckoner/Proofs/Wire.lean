import Reckoner.Proofs.Json.Objects
import Reckoner.Proofs.Json.Finite
import Reckoner.Proofs.Reply

set_option autoImplicit false

namespace Reckoner

open Json

/-- Whether the JSON text of a number is read as that number. The reader rounds more than once, so
that a long numeral may be read as a neighbour. -/
def Binary64.ReadsBack (x : Binary64) : Prop :=
  (Value.ofText? x.jsonText).bind Value.toBinary64? = some x

namespace Reply

variable {r : Reply} {x : Binary64} {v : Value} {text : String} {fs : List (String × Value)}
  {fields : List (List Piece × Value)}

def otherName : Reply → String
  | .value _ => "error"
  | .error _ => "value"

/-- A field of the payload is read as the value or the error. -/
def Carries : Reply → Value → Prop
  | .value x, v => v.toBinary64? = some x
  | .error text, v => v.toString? = some text

/-- The fields are those of the reply: none that no reply has, none twice, what is `ok` says which
reply it is, the payload is there, and the other field is not, or null. -/
structure Fits (r : Reply) (fs : List (String × Value)) : Prop where
  known : ∀ f ∈ fs, f.1 ∈ fieldNames
  once : (fs.map Prod.fst).Nodup
  ok : ("ok", .bool r.isOk) ∈ fs
  payload : ∃ v, (r.payloadName, v) ∈ fs ∧ r.Carries v
  other : ∀ v, (r.otherName, v) ∈ fs → v = .null

theorem Carries.ne_null (h : r.Carries v) : v ≠ .null := by
  rintro rfl
  cases r <;> cases h

/-- The same, as the lookups of the reader see it. -/
structure Found (r : Reply) (fs : List (String × Value)) : Prop where
  known : ∀ f ∈ fs, f.1 ∈ fieldNames
  ok : field? "ok" fs = some (some (.bool r.isOk))
  payload : ∃ v, field? r.payloadName fs = some (some v) ∧ r.Carries v
  other : ∃ found, field? r.otherName fs = some found ∧ (found = none ∨ found = some .null)

theorem mem_fieldNames (r : Reply) (name : String) :
    name ∈ fieldNames ↔ name = "ok" ∨ name = r.payloadName ∨ name = r.otherName := by
  cases r <;> simp [fieldNames, payloadName, otherName, or_comm]

theorem Found.count_le (h : r.Found fs) (name : String) : (fs.map Prod.fst).count name ≤ 1 := by
  by_cases hmem : name ∈ fs.map Prod.fst
  · obtain ⟨f, hf, rfl⟩ := List.mem_map.mp hmem
    obtain ⟨v, hv, -⟩ := h.payload
    rcases (mem_fieldNames r f.1).mp (h.known f hf) with hname | hname | hname <;> rw [hname]
    · exact (field?_eq_some_iff.mp h.ok).1.le
    · exact (field?_eq_some_iff.mp hv).1.le
    · obtain ⟨_, hother, rfl | rfl⟩ := h.other
      · rw [List.count_eq_zero_of_not_mem (field?_eq_none_iff.mp hother)]
        exact Nat.zero_le 1
      · exact (field?_eq_some_iff.mp hother).1.le
  · rw [List.count_eq_zero_of_not_mem hmem]
    exact Nat.zero_le 1

theorem found_iff_fits : r.Found fs ↔ r.Fits fs := by
  constructor
  · intro h
    have hnodup : (fs.map Prod.fst).Nodup := List.nodup_iff_count_le_one.mpr h.count_le
    obtain ⟨v, hv, hcarries⟩ := h.payload
    refine ⟨h.known, hnodup, (field?_eq_some_iff.mp h.ok).2,
      ⟨v, (field?_eq_some_iff.mp hv).2, hcarries⟩, fun u hu => ?_⟩
    have hfound := field?_of_mem hnodup hu
    obtain ⟨_, hother, rfl | rfl⟩ := h.other <;> rw [hother] at hfound
    · cases hfound
    · exact (Option.some.inj (Option.some.inj hfound)).symm
  · intro h
    obtain ⟨v, hv, hcarries⟩ := h.payload
    refine ⟨h.known, field?_of_mem h.once h.ok, ⟨v, field?_of_mem h.once hv, hcarries⟩, ?_⟩
    by_cases hmem : r.otherName ∈ fs.map Prod.fst
    · obtain ⟨⟨name, u⟩, hu, hname⟩ := List.mem_map.mp hmem
      obtain rfl : name = r.otherName := hname
      exact ⟨some u, field?_of_mem h.once hu, .inr (congrArg some (h.other u hu))⟩
    · exact ⟨none, field?_eq_none_iff.mpr hmem, .inl rfl⟩

theorem required?_bool {name : String} {b : Bool} :
    required? name Value.toBool? fs = some b ↔ field? name fs = some (some (.bool b)) := by
  rw [required?]
  cases h : field? name fs with
  | none => simp
  | some found =>
    cases found with
    | none => simp
    | some v => cases v <;> simp [Value.toBool?]

theorem optional?_eq_some_iff {α : Type} (read? : Value → Option α) (found : Option Value)
    (a? : Option α) : optional? read? found = some a? ↔
      match a? with
      | none => found = none ∨ found = some .null
      | some a => ∃ v, found = some v ∧ v ≠ .null ∧ read? v = some a := by
  cases found with
  | none => cases a? <;> simp [optional?]
  | some v => cases v <;> cases a? <;> simp [optional?, Value.nullable]

theorem ofParts?_eq_some_iff {ok : Bool} {x? : Option Binary64} {text? : Option String} :
    ofParts? ok x? text? = some r ↔ ok = r.isOk ∧
      match r with
      | .value x => x? = some x ∧ text? = none
      | .error text => x? = none ∧ text? = some text := by
  cases ok <;> cases x? <;> cases text? <;> cases r <;> simp [ofParts?, isOk]

/-- An object is read as a reply exactly if the fields of that reply are found in it. -/
theorem ofValue?_object : ofValue? (.object fields) = some r ↔
    ∃ fs, decodeFields? fields = some fs ∧ r.Found fs := by
  rw [ofValue?, Option.bind_eq_bind, Option.bind_eq_some_iff]
  refine exists_congr fun fs => and_congr_right fun _ => ?_
  have hall : (fs.all fun f => fieldNames.contains f.1) = true ↔ ∀ f ∈ fs, f.1 ∈ fieldNames := by
    simp
  constructor
  · intro h
    split at h
    · next hknown =>
      simp only [Option.bind_eq_bind, Option.bind_eq_some_iff] at h
      obtain ⟨ok, hok, result, hresult, x?, hx, error, herror, text?, htext, hparts⟩ := h
      obtain ⟨rfl, hpayload⟩ := ofParts?_eq_some_iff.mp hparts
      have hok := required?_bool.mp hok
      rw [optional?_eq_some_iff] at hx htext
      cases r with
      | value x =>
        obtain ⟨rfl, rfl⟩ := hpayload
        obtain ⟨v, rfl, -, hread⟩ := hx
        exact ⟨hall.mp hknown, hok, ⟨v, hresult, hread⟩, error, herror, htext⟩
      | error text =>
        obtain ⟨rfl, rfl⟩ := hpayload
        obtain ⟨v, rfl, -, hread⟩ := htext
        exact ⟨hall.mp hknown, hok, ⟨v, herror, hread⟩, result, hresult, hx⟩
    · cases h
  · intro h
    obtain ⟨v, hv, hcarries⟩ := h.payload
    obtain ⟨found, hfound, hnull⟩ := h.other
    rw [if_pos (hall.mpr h.known)]
    simp only [Option.bind_eq_bind, Option.bind_eq_some_iff]
    refine ⟨r.isOk, required?_bool.mpr h.ok, ?_⟩
    cases r with
    | value x =>
      have hread := (optional?_eq_some_iff Value.toBinary64? (some v) (some x)).mpr
        ⟨v, rfl, hcarries.ne_null, hcarries⟩
      have hother := (optional?_eq_some_iff Value.toString? found none).mpr hnull
      exact ⟨some v, hv, some x, hread, found, hfound, none, hother, rfl⟩
    | error text =>
      have hread := (optional?_eq_some_iff Value.toString? (some v) (some text)).mpr
        ⟨v, rfl, hcarries.ne_null, hcarries⟩
      have hother := (optional?_eq_some_iff Value.toBinary64? found none).mpr hnull
      exact ⟨found, hfound, none, hother, some v, hv, some text, hread, rfl⟩

theorem ofValue?_object_iff : ofValue? (.object fields) = some r ↔
    ∃ fs, decodeFields? fields = some fs ∧ r.Fits fs := by
  simp only [ofValue?_object, found_iff_fits]

theorem Carries.writable (h : r.Carries v) : r.Writable := by
  cases r with
  | error text => trivial
  | value x =>
    cases v with
    | number n => exact Numeral.canonical_toBinary64? h
    | _ => cases h

theorem fits_pair (h : r.Carries v) : r.Fits [("ok", .bool r.isOk), (r.payloadName, v)] := by
  refine ⟨?_, ?_, List.mem_cons_self, ⟨v, by simp, h⟩, ?_⟩
  · cases r <;> simp [fieldNames, payloadName]
  · cases r <;> simp [payloadName]
  · cases r <;> simp [otherName, payloadName]

theorem ofJson?_json (hv : Value.ofText? r.payloadText = some v) (h : r.Carries v) :
    ofJson? r.json = some r := by
  obtain ⟨u, hu, -, hfields⟩ := fieldsOf?_json h.writable (show ∀ c ∈ "".toList, _ from nofun)
  obtain rfl : u = v := Option.some.inj (hu.symm.trans hv)
  rw [String.append_empty] at hfields
  unfold fieldsOf? at hfields
  split at hfields
  · next fields hread =>
    rw [ofJson?, hread, Option.bind_some]
    exact ofValue?_object_iff.mpr ⟨_, hfields, fits_pair h⟩
  · cases hfields

/-- Every error text comes back from the JSON that is written for it, and so does every number whose
text is read as that number. An object is read as a reply exactly if its fields fit the reply, and
the one that is then written has the same `ok` and a payload that means the same. -/
theorem wire_round_trip :
    (∀ text, ofJson? (error text).json = some (error text)) ∧
      (∀ x : Binary64, x.ReadsBack → ofJson? (value x).json = some (value x)) ∧
      (∀ fields r, ofValue? (.object fields) = some r ↔
        ∃ fs, decodeFields? fields = some fs ∧ r.Fits fs) ∧
      ∀ fields r, ofValue? (.object fields) = some r → ∃ v, r.Means v ∧
        fieldsOf? r.json = some [("ok", .bool r.isOk), (r.payloadName, v)] := by
  refine ⟨fun text => ?_, fun x hx => ?_, fun _ _ => ofValue?_object_iff, fun fields r h => ?_⟩
  · have hread := Reader.reads_quote text
    exact ofJson?_json (r := .error text) hread.ofText? (decode?_ofChar text)
  · obtain ⟨v, hv, hread⟩ := Option.bind_eq_some_iff.mp hx
    exact ofJson?_json (r := .value x) hv hread
  · obtain ⟨fs, -, hfits⟩ := ofValue?_object_iff.mp h
    obtain ⟨v, -, hcarries⟩ := hfits.payload
    obtain ⟨u, -, hmeans, hfields⟩ :=
      fieldsOf?_json hcarries.writable (show ∀ c ∈ "".toList, _ from nofun)
    rw [String.append_empty] at hfields
    exact ⟨u, hmeans, hfields⟩

def twoAndAHalf : Binary64 := .finite false 5629499534213120 (-51)

def shuffledFields : List (List Piece × Value) :=
  [("error".toList.map .char, .null),
    ("value".toList.map .char, .number ⟨false, ['2'], some ['5'], none⟩),
    ("ok".toList.map .char, .bool true)]

theorem wire_round_trip_twoAndAHalf :
    twoAndAHalf.ReadsBack ∧ ofJson? (value twoAndAHalf).json = some (value twoAndAHalf) ∧
      ofValue? (.object shuffledFields) = some (value twoAndAHalf) ∧
      ∃ v, (value twoAndAHalf).Means v ∧
        fieldsOf? (value twoAndAHalf).json = some [("ok", .bool true), ("value", v)] := by
  have hreads : twoAndAHalf.ReadsBack := by
    unfold Binary64.ReadsBack
    decide +kernel
  have hread : ofValue? (.object shuffledFields) = some (value twoAndAHalf) := by decide +kernel
  exact ⟨hreads, wire_round_trip.2.1 _ hreads, hread, wire_round_trip.2.2.2 _ _ hread⟩

end Reply

end Reckoner
