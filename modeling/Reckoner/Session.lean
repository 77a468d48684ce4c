import Reckoner.Request
import Reckoner.Settings.Basic

set_option autoImplicit false

namespace Reckoner

inductive Live where
  /-- Nothing has been entered, which is no error. -/
  | waiting
  | value (x : Binary64)
  | error (e : EvalError)
  deriving DecidableEq, Repr

namespace Live

def ofOutcome : Except EvalError Binary64 → Live
  | .ok x => .value x
  | .error e => .error e

def isError : Live → Bool
  | .error _ => true
  | _ => false

def detail : Live → String
  | .waiting => "empty"
  | .value x => x.text
  | .error e => e.message

def text : Live → String
  | .waiting => "(empty)"
  | .value x => s!"= {x.text}"
  | .error e => s!"! {e.message}"

/-- On the wire waiting is the error of an empty expression. -/
def reply : Live → Reply
  | .waiting => .error EvalError.empty.message
  | .value x => .value x
  | .error e => .error e.message

end Live

structure Session where
  input : String := ""
  live : Live := .waiting
  evaluator : Evaluator := {}
  history : History := .empty defaultHistoryLimit
  precision : Nat := defaultPrecision
  deriving DecidableEq, Repr

namespace Session

def start (c : Settings) : Session :=
  { evaluator := ⟨c.maxLength⟩
    history := .empty c.historyLimit
    precision := min c.precision precisionLimit }

def hasInput (s : Session) : Bool := !Text.isAllBlank s.input

def refresh (s : Session) : Session :=
  { s with
    live := if s.hasInput then .ofOutcome (s.evaluator.evaluate s.input s.precision) else .waiting }

def enter (s : Session) (text : String) : Session := { s with input := text }.refresh

def setPrecision (s : Session) (precision : Nat) : Session :=
  { s with precision := min precision precisionLimit }.refresh

def clearInput (s : Session) : Session := { s with input := "", live := .waiting }

/-- Keeps the result of the input in the history and clears the input. A failure leaves the input
for correction and shows the error. -/
def submit (s : Session) (stamp : Stamp) : Except EvalError Item × Session :=
  match s.evaluator.evaluate s.input s.precision with
  | .error e => (.error e, { s with live := if s.hasInput then .error e else .waiting })
  | .ok x =>
    match s.evaluator.normalize s.input with
    | .error e => (.error e, s)
    | .ok normal =>
      match s.history.add? normal x stamp with
      | none => (.error .empty, s)
      | some (item, history) => (.ok item, { s with history }.clearInput)

/-- Makes a kept item the input again; none when the identifier is unknown. -/
def reload? (s : Session) (id : Uuid) : Option Session :=
  (s.history.find? id).map fun i => { s with input := i.expression, live := .value i.result }

def delete? (s : Session) (id : Uuid) : Option Session :=
  if s.history.contains id then some { s with history := s.history.erase id } else none

def clearHistory (s : Session) : Session := { s with history := s.history.clear }

def reset (s : Session) : Session :=
  { s.clearInput.clearHistory with precision := defaultPrecision }

end Session

end Reckoner

namespace Reckoner.Session

inductive Action where
  | enter (text : String)
  | setPrecision (precision : Nat)
  | submit (stamp : Stamp)
  | reload (id : Uuid)
  | delete (id : Uuid)
  | clearHistory
  | clearInput
  | reset
  deriving DecidableEq, Repr

/-- An unknown identifier leaves the session as it is. -/
def perform (s : Session) : Action → Session
  | .enter text => s.enter text
  | .setPrecision precision => s.setPrecision precision
  | .submit stamp => (s.submit stamp).2
  | .reload id => (s.reload? id).getD s
  | .delete id => (s.delete? id).getD s
  | .clearHistory => s.clearHistory
  | .clearInput => s.clearInput
  | .reset => s.reset

def performAll (s : Session) (actions : List Action) : Session := actions.foldl perform s

end Reckoner.Session
