import Reckoner.Evaluator

/-!
Arguments are read from left to right, and the first that is wrong, or that asks for the version or
the help, decides. An option is given at most once; a value may follow its option as the next
argument, unless it looks like an option, or in the same argument, with or without `=`. What is no
option is a word of the expression, and so is everything after `--`.
-/
set_option autoImplicit false

namespace Reckoner

structure Options where
  precision : Option Nat := none
  json : Bool := false
  configPath : Option String := none
  walkthrough : Bool := false
  words : List String := []
  deriving DecidableEq, Repr

inductive Command where
  | run (options : Options)
  | version
  | help
  | misuse
  deriving DecidableEq, Repr

namespace CommandLine

/-- A value from the next argument, and the arguments after it. -/
def nextValue? : List String → Option (String × List String)
  | [] => none
  | arg :: rest =>
    match arg.toList with
    | '-' :: _ :: _ => none
    | _ => some (arg, rest)

/-- A precision: a decimal integer within the bounds, with or without sign. -/
def precision? (text : String) : Option Nat :=
  let magnitude? (ds : List Char) : Option Nat :=
    if ds.isEmpty || !ds.all Char.isDigit then none else some (Decimal.digitsValue ds)
  let read? : Option Nat :=
    match text.toList with
    | '+' :: ds => magnitude? ds
    | '-' :: ds => (magnitude? ds).bind fun n => if n = 0 then some 0 else none
    | ds => magnitude? ds
  read?.bind fun n => if n ≤ precisionLimit then some n else none

def setPrecision? (o : Options) (text : String) : Option Options :=
  if o.precision.isSome then none
  else (precision? text).map fun n => { o with precision := some n }

def setConfig? (o : Options) (path : String) : Option Options :=
  if o.configPath.isSome || path.isEmpty then none else some { o with configPath := some path }

def setJson? (o : Options) : Option Options := if o.json then none else some { o with json := true }

def setWalkthrough? (o : Options) : Option Options :=
  if o.walkthrough then none else some { o with walkthrough := true }

/-- What one argument comes to. -/
inductive Effect where
  | update (o : Options)
  | takesValue (set? : String → Option Options)
  | done (c : Command)

def Effect.ofOption : Option Options → Effect
  | some o => .update o
  | none => .done .misuse

def valued (set? : String → Option Options) : Option String → Effect
  | some value => .ofOption (set? value)
  | none => .takesValue set?

def plain (effect : Effect) : Option String → Effect
  | some _ => .done .misuse
  | none => effect

def long (o : Options) (name : String) (value? : Option String) : Effect :=
  match name with
  | "precision" => valued (setPrecision? o) value?
  | "config" => valued (setConfig? o) value?
  | "json" => plain (.ofOption (setJson? o)) value?
  | "demarche" => plain (.ofOption (setWalkthrough? o)) value?
  | "version" => plain (.done .version) value?
  | "help" => plain (.done .help) value?
  | _ => .done .misuse

def attached? : List Char → Option String
  | [] => none
  | '=' :: cs => some (String.ofList cs)
  | cs => some (String.ofList cs)

def short (o : Options) (letter : Char) (rest : List Char) : Effect :=
  match letter with
  | 'p' => valued (setPrecision? o) (attached? rest)
  | 'c' => valued (setConfig? o) (attached? rest)
  | 'V' => .done .version
  | 'h' => .done .help
  | _ => .done .misuse

def effect (o : Options) (arg : String) : Effect :=
  match arg.toList with
  | '-' :: '-' :: cs =>
    let name := cs.takeWhile (· ≠ '=')
    match cs.dropWhile (· ≠ '=') with
    | _ :: value => long o (String.ofList name) (some (String.ofList value))
    | [] => long o (String.ofList name) none
  | '-' :: letter :: rest => short o letter rest
  | _ => .update { o with words := o.words ++ [arg] }

theorem nextValue?_shorter {args rest : List String} {value : String}
    (h : nextValue? args = some (value, rest)) : rest.length < args.length := by
  cases args with
  | nil => simp [nextValue?] at h
  | cons arg more =>
    simp only [nextValue?] at h
    split at h
    · simp at h
    · simp only [Option.some.injEq, Prod.mk.injEq] at h
      simp [h.2]

def parse (o : Options) (args : List String) : Command :=
  match args with
  | [] => .run o
  | arg :: rest =>
    if arg = "--" then .run { o with words := o.words ++ rest }
    else
      match effect o arg with
      | .update o => parse o rest
      | .done c => c
      | .takesValue set? =>
        match _ : nextValue? rest with
        | none => .misuse
        | some (value, rest) =>
          match set? value with
          | some o => parse o rest
          | none => .misuse
termination_by args.length
decreasing_by
  · exact Nat.lt_succ_self _
  · exact Nat.lt_succ_of_lt (nextValue?_shorter ‹_›)

end CommandLine

def Command.ofArgs (args : List String) : Command := CommandLine.parse {} args

end Reckoner
