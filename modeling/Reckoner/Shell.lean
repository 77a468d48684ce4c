import Reckoner.CommandLine
import Reckoner.Session

set_option autoImplicit false

namespace Reckoner

namespace Shell

def title : String := "Calculatrice sûre"

def prompt : String := "> "

def helpText : String :=
  "Commandes :
  <expression>    évalue et ajoute à l'historique
  :history        affiche l'historique (plus récent en tête)
  :recall <id>    recharge une entrée de l'historique
  :delete <id>    supprime une entrée
  :clear          vide l'historique
  :help           cette aide
  :quit           quitte"

def banner (s : Session) : String :=
  s!"{title} (précision {s.precision}), :help pour l'aide\n"

def resultText (o : Options) (live : Live) : String :=
  if o.json then live.reply.json
  else
    match live with
    | .value x => x.text
    | other => other.text

def walkthroughText (o : Options) (s : Session) (expression : String) : String :=
  if o.walkthrough then
    match s.evaluator.walkthrough expression with
    | .ok w => w.text ++ "\n"
    | .error _ => ""
  else ""

inductive Entry where
  | blank
  | quit
  | help
  | history
  | clear
  | reload (argument : String)
  | delete (argument : String)
  | unknown (command : String)
  | expression (text : String)
  deriving DecidableEq, Repr

/-- The first word of a line and what follows the blank after it. -/
def splitCommand (line : List Char) : List Char × List Char :=
  (line.takeWhile fun c => !Text.isBlank c, (line.dropWhile fun c => !Text.isBlank c).drop 1)

/-- Reads a line without the blanks around it. Only a line that begins with a colon is a command. -/
def Entry.ofLine (line : String) : Entry :=
  let text := Text.trimChars line.toList
  if text.isEmpty then .blank
  else
    let (word, rest) := splitCommand text
    let argument := String.ofList (Text.trimChars rest)
    match String.ofList word with
    | ":quit" | ":q" => .quit
    | ":help" => .help
    | ":history" => .history
    | ":clear" => .clear
    | ":recall" => .reload argument
    | ":delete" => .delete argument
    | command =>
      if word.head? = some ':' then .unknown command else .expression (String.ofList text)

/-- What a line comes to: the text printed, the text printed as diagnostics, the session afterwards,
whether its stamp went to a new item, and whether it ends the run. -/
structure Turn where
  printed : String
  diagnostics : String := ""
  session : Session
  added : Bool := false
  isLast : Bool := false
  deriving DecidableEq, Repr

def unknownId (argument : String) : String := s!"! identifiant inconnu: {argument}\n"

def reload (s : Session) (argument : String) : Turn :=
  match (Uuid.ofText? argument).bind s.reload? with
  | some r => { printed := s!"{r.input}  {r.live.text}\n", session := r }
  | none => { printed := unknownId argument, session := s }

def delete (s : Session) (argument : String) : Turn :=
  match (Uuid.ofText? argument).bind s.delete? with
  | some r => { printed := "supprimé\n", session := r }
  | none => { printed := unknownId argument, session := s }

def calculate (o : Options) (stamp : Stamp) (s : Session) (line : String) : Turn :=
  match (s.enter line).submit stamp with
  | (.ok item, s') =>
    { printed := resultText o (.value item.result) ++ "\n"
      diagnostics := walkthroughText o s' line, session := s', added := true }
  | (.error _, s') =>
    { printed := resultText o s'.live ++ "\n"
      diagnostics := walkthroughText o s' line, session := s' }

/-- The stamp marks the item that the entry may add. -/
def answer (o : Options) (stamp : Stamp) (s : Session) : Entry → Turn
  | .blank => { printed := "", session := s }
  | .quit => { printed := "", session := s, isLast := true }
  | .help => { printed := helpText ++ "\n", session := s }
  | .history => { printed := s.history.text ++ "\n", session := s }
  | .clear => { printed := "historique vidé\n", session := s.clearHistory }
  | .reload argument => reload s argument
  | .delete argument => delete s argument
  | .unknown command => { printed := s!"! commande inconnue: {command}\n", session := s }
  | .expression text => calculate o stamp s text

def respond (o : Options) (stamp : Stamp) (s : Session) (line : String) : Turn :=
  answer o stamp s (.ofLine line)

/-- Answers lines until one ends the run; the items added take the stamps from the n-th on. -/
def converse (o : Options) (stamp : Nat → Stamp) (s : Session) (n : Nat) : List String → List Turn
  | [] => []
  | line :: rest =>
    let t := respond o (stamp n) s line
    if t.isLast then [t]
    else t :: converse o stamp t.session (if t.added then n + 1 else n) rest

end Shell

structure Outcome where
  code : Nat
  printed : String := ""
  diagnostics : String := ""
  deriving DecidableEq, Repr

namespace Outcome

def failure (context : String) (causes : List String) : Outcome :=
  let listed := match causes with
    | [cause] => [s!"    {cause}"]
    | causes => causes.mapIdx fun i cause => s!"    {i}: {cause}"
  { code := 1
    diagnostics := s!"Error: {context}\n\nCaused by:\n" ++ "\n".intercalate listed ++ "\n" }

end Outcome

namespace Options

def settings (o : Options) (files : Files) : Except SettingsError Settings := do
  let s ← Settings.load files o.configPath
  return s.withPrecision o.precision

def answerOnce (o : Options) (s : Session) : Outcome :=
  let expression := " ".intercalate o.words
  let s' := s.enter expression
  { code := match s'.live with
      | .value _ => 0
      | _ => 1
    printed := Shell.resultText o s'.live ++ "\n"
    diagnostics := Shell.walkthroughText o s' expression }

end Options

/-- What a command does: all of it, or the lines that are still to be answered. -/
inductive Launch where
  | finished (outcome : Outcome)
  | interactive (options : Options) (session : Session)

/-- Everything up to the first line typed. -/
def Command.launch (files : Files) : Command → Launch
  | .version => .finished { code := 0, printed := "calculatrice 0.1.0\n" }
  | .help => .finished { code := 0, printed := Shell.title ++ "\n" }
  | .misuse => .finished { code := 2 }
  | .run o =>
    match o.settings files with
    | .error e => .finished (.failure "chargement de la configuration" e.messages)
    | .ok c =>
      let s := Session.start c
      if o.words.isEmpty then .interactive o s else .finished (o.answerOnce s)

end Reckoner
