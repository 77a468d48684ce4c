import Reckoner.Evaluator
import Reckoner.History
import Reckoner.Settings.Toml

set_option autoImplicit false

namespace Reckoner

inductive ReadFailure where
  | missing
  | denied
  | notDirectory
  | directory
  | longName
  | notText
  | other (message : String)
  deriving DecidableEq, Repr

def ReadFailure.message : ReadFailure → String
  | .missing => "No such file or directory (os error 2)"
  | .denied => "Permission denied (os error 13)"
  | .notDirectory => "Not a directory (os error 20)"
  | .directory => "Is a directory (os error 21)"
  | .longName => "File name too long (os error 36)"
  | .notText => "stream did not contain valid UTF-8"
  | .other message => message

/-- The files a run may read: what a path gives, and the path of the standard settings file where
there is one. -/
structure Files where
  read : String → Except ReadFailure String
  standard? : Option String

structure Settings where
  precision : Nat := defaultPrecision
  maxLength : Nat := defaultMaxLength
  historyLimit : Nat := defaultHistoryLimit
  deriving DecidableEq, Repr

inductive SettingsError where
  | unreadable (path : String) (cause : ReadFailure)
  | format (path : String)
  | outOfBounds (field : String) (value least most : Nat)
  deriving DecidableEq, Repr

/-- The message, followed by the messages of what caused it. -/
def SettingsError.messages : SettingsError → List String
  | .unreadable path cause =>
    [s!"lecture de {path} impossible: {cause.message}", cause.message]
  | .format path => [s!"configuration invalide ({path})"]
  | .outOfBounds field value least most =>
    [s!"{field} hors bornes: {value} (attendu {least}..={most})"]

namespace Settings

def wordLimit : Nat := 18446744073709551615

def precisionWordLimit : Nat := 4294967295

def word? (limit : Nat) (n : Int) : Option Nat := if 0 ≤ n ∧ n ≤ limit then some n.toNat else none

def assign? (s : Settings) (entry : String × Int) : Option Settings :=
  match entry.1 with
  | "precision" => (word? precisionWordLimit entry.2).map fun n => { s with precision := n }
  | "max_length" => (word? wordLimit entry.2).map fun n => { s with maxLength := n }
  | "history_limit" => (word? wordLimit entry.2).map fun n => { s with historyLimit := n }
  | _ => none

def checkBounds (field : String) (value least most : Nat) : Except SettingsError Unit :=
  if least ≤ value ∧ value ≤ most then .ok ()
  else .error (.outOfBounds field value least most)

def check (s : Settings) : Except SettingsError Settings := do
  checkBounds "precision" s.precision 0 precisionLimit
  checkBounds "max_length" s.maxLength 1 wordLimit
  checkBounds "history_limit" s.historyLimit 1 wordLimit
  return s

def ofToml (path content : String) : Except SettingsError Settings :=
  match (Toml.read? content).bind fun table => table.foldlM assign? {} with
  | some s => s.check
  | none => .error (.format path)

def ofFile (files : Files) (path : String) : Except SettingsError Settings :=
  match files.read path with
  | .ok content => ofToml path content
  | .error cause => .error (.unreadable path cause)

/-- The settings of the file named, else of the standard file, else the usual ones. -/
def load (files : Files) (named? : Option String) : Except SettingsError Settings :=
  match named? <|> files.standard? with
  | some path => ofFile files path
  | none => .ok {}

def withPrecision (s : Settings) : Option Nat → Settings
  | some p => { s with precision := min p precisionLimit }
  | none => s

end Settings

end Reckoner
