import Reckoner.Proofs.Json.Numbers
import Reckoner.Proofs.Json.Objects
import Reckoner.Request

set_option autoImplicit false

namespace Reckoner.Reply

open Json

variable {r : Reply} {space : String}

def Writable : Reply → Prop
  | .value x => x.Canonical
  | .error _ => True

def payloadName : Reply → String
  | .value _ => "value"
  | .error _ => "error"

/-- What stands in that field means the value or the error. -/
def Means : Reply → Value → Prop
  | .value x, v => ∃ n, v = .number n ∧ n.Denotes x
  | .error text, v => v.toString? = some text

def payloadText : Reply → String
  | .value x => x.jsonText
  | .error text => quote text

theorem json_eq (r : Reply) :
    r.json = object [("ok", boolText r.isOk), (r.payloadName, r.payloadText)] := by
  cases r <;> rfl

theorem payloadName_ne_ok (r : Reply) : r.payloadName ≠ "ok" := by
  cases r <;> simp [payloadName]

theorem exists_payload (h : r.Writable) :
    ∃ v, Reads r.payloadText.toList v ∧ r.Means v := by
  cases r with
  | value x =>
    obtain ⟨n, hn, hchars, hdenotes⟩ := Binary64.Canonical.exists_numeral h
    exact ⟨.number n, hchars ▸ Reader.reads_numeral hn, n, rfl, hdenotes⟩
  | error text => exact ⟨_, Reader.reads_quote text, decode?_ofChar text⟩

def fieldsOf? (text : String) : Option (List (String × Value)) :=
  match Value.ofText? text with
  | some (.object fields) => decodeFields? fields
  | _ => none

theorem fieldsOf?_json (h : r.Writable) (hspace : ∀ c ∈ space.toList, Reader.isSpace c = true) :
    ∃ v, Value.ofText? r.payloadText = some v ∧ r.Means v ∧
      fieldsOf? (r.json ++ space) = some [("ok", .bool r.isOk), (r.payloadName, v)] := by
  obtain ⟨v, hv, hmeans⟩ := exists_payload h
  have hreads : ∀ f ∈ [("ok", boolText r.isOk, .bool r.isOk), (r.payloadName, r.payloadText, v)],
      Reads f.2.1.toList f.2.2 := by
    intro f hf
    rcases List.mem_pair.mp hf with rfl | rfl
    · exact Reader.reads_bool r.isOk
    · exact hv
  have hread := ofText?_object hreads hspace
  rw [List.map_cons, List.map_singleton, ← json_eq] at hread
  refine ⟨v, hv.ofText?, hmeans, ?_⟩
  simp only [fieldsOf?, hread]
  exact decodeFields?_readMember _

/-- What a text that writes an object says under `ok`. -/
def okOf? (text : String) : Option Bool :=
  match Value.ofText? text with
  | some (.object fields) => (decodeFields? fields).bind (required? "ok" Value.toBool?)
  | _ => none

theorem okOf?_json (h : r.Writable) (hspace : ∀ c ∈ space.toList, Reader.isSpace c = true) :
    okOf? (r.json ++ space) = some r.isOk := by
  obtain ⟨v, -, -, hfields⟩ := fieldsOf?_json h hspace
  unfold fieldsOf? at hfields
  unfold okOf?
  split at hfields
  · rw [hfields, Option.bind_some]
    simp [required?, field?, payloadName_ne_ok, Value.toBool?]
  · cases hfields

end Reckoner.Reply
