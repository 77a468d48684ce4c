import Reckoner.Json.Value
import Reckoner.Text.Word

set_option autoImplicit false

namespace Reckoner.Clock

def firstMoment : Int := -8334601228800000

def lastMoment : Int := 8210266876799999

def twoDigits (n : Nat) : String := if n < 10 then s!"0{n}" else s!"{n}"

/-- `HH:MM:SS`, or nothing outside the calendar. -/
def timeOfDay (moment : Int) : String :=
  if firstMoment ≤ moment ∧ moment ≤ lastMoment then
    let seconds := (moment / 1000 % 86400).toNat
    s!"{twoDigits (seconds / 3600)}:{twoDigits (seconds / 60 % 60)}:{twoDigits (seconds % 60)}"
  else ""

end Reckoner.Clock

namespace Reckoner

/-- What a new item is marked with: an identifier of its own and the present moment. -/
structure Stamp where
  id : Uuid
  moment : Int
  deriving DecidableEq, Repr

structure Item where
  id : Uuid
  expression : String
  result : Binary64
  moment : Int
  deriving DecidableEq, Repr

structure History where
  items : List Item
  limit : Nat
  limit_pos : 0 < limit
  deriving DecidableEq, Repr

def defaultHistoryLimit : Nat := 100

namespace Item

def columnWidth : Nat := 32

/-- The expression filled up to the column, or cut with an ellipsis as its last character. -/
def column (expression : String) : String :=
  let cs := expression.toList
  if columnWidth < cs.length then String.ofList (cs.take (columnWidth - 1) ++ ['…'])
  else String.ofList (cs ++ List.replicate (columnWidth - cs.length) ' ')

def text (i : Item) : String :=
  s!"{i.id.text}  {Clock.timeOfDay i.moment}  {column i.expression} = {i.result.text}"

def json (i : Item) : String :=
  Json.object
    [("id", Json.quote i.id.text), ("expression", Json.quote i.expression),
      ("result", i.result.jsonText), ("timestamp", toString i.moment)]

def moment? (v : Json.Value) : Option Int :=
  v.toInt?.bind fun k => if k ≤ 9223372036854775807 then some k else none

def id? (v : Json.Value) : Option Uuid := v.toString?.bind Uuid.ofText?

def ofValue? : Json.Value → Option Item
  | .array [id, expression, result, moment] => do
    return ⟨← id? id, ← expression.toString?, ← result.toBinary64?, ← moment? moment⟩
  | .object fields => do
    let fs ← Json.decodeFields? fields
    let id ← Json.required? "id" id? fs
    let expression ← Json.required? "expression" Json.Value.toString? fs
    let result ← Json.required? "result" Json.Value.toBinary64? fs
    let moment ← Json.required? "timestamp" moment? fs
    return ⟨id, expression, result, moment⟩
  | _ => none

def ofJson? (s : String) : Option Item := (Json.Value.ofText? s).bind ofValue?

end Item

namespace History

/-- An empty history; a limit of 0 counts as 1. -/
def empty (limit : Nat) : History := ⟨[], max limit 1, by omega⟩

def add? (h : History) (expression : String) (result : Binary64) (stamp : Stamp) :
    Option (Item × History) :=
  let kept := Text.withoutBlanks expression
  if kept.isEmpty then none
  else
    let item := ⟨stamp.id, kept, result, stamp.moment⟩
    some (item, { h with items := (item :: h.items).take h.limit })

def find? (h : History) (id : Uuid) : Option Item := h.items.find? fun i => i.id = id

/-- The history without the first item of that identifier. -/
def erase (h : History) (id : Uuid) : History :=
  { h with items := h.items.eraseP fun i => i.id = id }

def contains (h : History) (id : Uuid) : Bool := (h.find? id).isSome

def clear (h : History) : History := { h with items := [] }

def size (h : History) : Nat := h.items.length

def isEmpty (h : History) : Bool := h.items.isEmpty

def text (h : History) : String :=
  if h.isEmpty then "(historique vide)" else "\n".intercalate (h.items.map Item.text)

def json (h : History) : String :=
  Json.object [("items", Json.array (h.items.map Item.json)), ("limite", toString h.limit)]

end History

end Reckoner

namespace Reckoner.History

inductive Action where
  | add (expression : String) (result : Binary64) (stamp : Stamp)
  | erase (id : Uuid)
  | clear
  deriving DecidableEq, Repr

/-- An expression of blanks alone leaves the history as it is. -/
def perform (h : History) : Action → History
  | .add expression result stamp =>
    match h.add? expression result stamp with
    | some (_, h') => h'
    | none => h
  | .erase id => h.erase id
  | .clear => h.clear

def performAll (h : History) (actions : List Action) : History := actions.foldl perform h

end Reckoner.History
