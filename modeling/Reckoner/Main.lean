import Reckoner.Shell
import Std.Time.DateTime.Timestamp

set_option autoImplicit false

namespace Reckoner.Terminal

/-- A random identifier, marked as one of version 4. -/
def freshId : IO Uuid := do
  let bytes ← IO.getRandomBytes 16
  let bits := BitVec.ofNat 128 (bytes.toList.foldl (fun n b => 256 * n + b.toNat) 0)
  let marked : BitVec 128 := BitVec.ofNat 128 (0xF <<< 76 ||| 0xC <<< 60)
  let mark : BitVec 128 := BitVec.ofNat 128 (0x4 <<< 76 ||| 0x8 <<< 60)
  return ⟨(bits &&& ~~~marked) ||| mark⟩

def freshStamp : IO Stamp := do
  let now ← Std.Time.Timestamp.now
  return ⟨← freshId, now.toMillisecondsSinceUnixEpoch.toInt⟩

/-- The number of a system error, which some calls give negated. -/
def systemNumber (code : UInt32) : Nat :=
  if code.toNat < 2147483648 then code.toNat else 4294967296 - code.toNat

def cause : IO.Error → ReadFailure
  | .noFileOrDirectory .. => .missing
  | .permissionDenied .. => .denied
  | .inappropriateType _ code _ => if systemNumber code = 21 then .directory else .notDirectory
  | e@(.invalidArgument _ code _) =>
    if systemNumber code = 36 then .longName else .other (toString e)
  | e => .other (toString e)

def readText (path : String) : IO (Except ReadFailure String) := do
  try
    match String.fromUTF8? (← IO.FS.readBinFile path) with
    | some content => return .ok content
    | none => return .error .notText
  catch e => return .error (cause e)

/-- The directory of settings files: the one that the environment names, or the usual one in the
home directory. -/
def settingsDirectory? : IO (Option String) := do
  if let some dir ← IO.getEnv "XDG_CONFIG_HOME" then
    if dir.startsWith "/" then return some dir
  return (← IO.getEnv "HOME").map (· ++ "/.config")

def standardPath? : IO (Option String) := do
  match ← settingsDirectory? with
  | some dir =>
    let path := dir ++ "/calculatrice/config.toml"
    return if ← (System.mkFilePath [path]).pathExists then some path else none
  | none => return none

def filesFor : Command → IO Files
  | .run o => do
    let standard? ← standardPath?
    match o.configPath <|> standard? with
    | some path =>
      let content ← readText path
      return ⟨fun _ => content, standard?⟩
    | none => return ⟨fun _ => .error .missing, none⟩
  | _ => return ⟨fun _ => .error .missing, none⟩

partial def talk (o : Options) (s : Session) : IO Unit := do
  let out ← IO.getStdout
  out.putStr Shell.prompt
  out.flush
  let line ← (← IO.getStdin).getLine
  if line.isEmpty then return
  let t := Shell.respond o (← freshStamp) s line
  out.putStr t.printed
  (← IO.getStderr).putStr t.diagnostics
  unless t.isLast do talk o t.session

def run (args : List String) : IO UInt32 := do
  let command := Command.ofArgs args
  match command.launch (← filesFor command) with
  | .finished outcome =>
    (← IO.getStdout).putStr outcome.printed
    (← IO.getStderr).putStr outcome.diagnostics
    return UInt32.ofNat outcome.code
  | .interactive o s =>
    (← IO.getStdout).putStr (Shell.banner s)
    talk o s
    return 0

end Reckoner.Terminal

def main (args : List String) : IO UInt32 := Reckoner.Terminal.run args
