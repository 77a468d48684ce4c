import Reckoner.Error
import Reckoner.Evaluator
import Reckoner.Json.Value

set_option autoImplicit false

namespace Reckoner

structure Request where
  expression : String
  precision : Nat := defaultPrecision
  deriving DecidableEq, Repr

namespace Request

def precisionEnd : Nat := 4294967296

def precision? (v : Json.Value) : Option Nat :=
  v.toInt?.bind fun k => if 0 ≤ k ∧ k < precisionEnd then some k.toNat else none

def ofValue? : Json.Value → Option Request
  | .array [e] => e.toString?.map fun text => ⟨text, defaultPrecision⟩
  | .array [e, p] => do return ⟨← e.toString?, ← precision? p⟩
  | .object fields => do
    let fs ← Json.decodeFields? fields
    let text ← Json.required? "expression" Json.Value.toString? fs
    match ← Json.field? "precision" fs with
    | some p => return ⟨text, ← precision? p⟩
    | none => return ⟨text, defaultPrecision⟩
  | _ => none

def ofJson? (s : String) : Option Request := (Json.Value.ofText? s).bind ofValue?

def json (r : Request) : String :=
  Json.object [("expression", Json.quote r.expression), ("precision", toString r.precision)]

def evaluate (ev : Evaluator) (r : Request) : Except EvalError Binary64 :=
  ev.evaluate r.expression r.precision

end Request

inductive Reply where
  | value (x : Binary64)
  | error (text : String)
  deriving DecidableEq, Repr

namespace Reply

def isOk : Reply → Bool
  | .value _ => true
  | .error _ => false

def ofOutcome : Except EvalError Binary64 → Reply
  | .ok x => .value x
  | .error e => .error e.message

def json (r : Reply) : String :=
  Json.object
    [("ok", Json.boolText r.isOk),
      match r with
      | .value x => ("value", x.jsonText)
      | .error text => ("error", Json.quote text)]

/-- Exactly one of a value and an error, as `ok` says. -/
def ofParts? : Bool → Option Binary64 → Option String → Option Reply
  | true, some x, none => some (.value x)
  | false, none, some text => some (.error text)
  | _, _, _ => none

def optional? {α : Type} (read? : Json.Value → Option α) : Option Json.Value → Option (Option α)
  | some v => Json.Value.nullable read? v
  | none => some none

def fieldNames : List String := ["ok", "value", "error"]

def ofValue? : Json.Value → Option Reply
  | .array [ok, result, text] => do
    ofParts? (← ok.toBool?) (← Json.Value.nullable Json.Value.toBinary64? result)
      (← Json.Value.nullable Json.Value.toString? text)
  | .object fields => do
    let fs ← Json.decodeFields? fields
    if fs.all fun f => fieldNames.contains f.1 then
      let ok ← Json.required? "ok" Json.Value.toBool? fs
      let result ← optional? Json.Value.toBinary64? (← Json.field? "value" fs)
      let text ← optional? Json.Value.toString? (← Json.field? "error" fs)
      ofParts? ok result text
    else none
  | _ => none

def ofJson? (s : String) : Option Reply := (Json.Value.ofText? s).bind ofValue?

end Reply

end Reckoner
