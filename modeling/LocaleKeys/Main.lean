import LocaleKeys.Invocation

/-! The program itself: requests are answered by the system on which it runs. -/
namespace LocaleKeys.Main

/-- The cause of a failed access, as far as programs tell causes apart. -/
def cause : IO.Error → Access.Failure
  | .noFileOrDirectory .. => .notFound
  | .alreadyExists .. => .alreadyExists
  | .inappropriateType .. => .isDirectory
  | e => .other (toString e)

/-- An access as a result that programs can look at. -/
def access {A : Type} (action : IO A) : IO (Except Access.Failure A) := do
  return (← action.toBaseIO).mapError cause

def isPresent (path : String) : IO Bool := do
  match ← access (IO.FS.Handle.mk path .read) with
  | .ok _ => return true
  | .error _ => return false

def read (path : String) : IO (Except Access.Failure String) := do
  match ← access (IO.FS.readBinFile path) with
  | .error e => return .error e
  | .ok bytes =>
      match String.fromUTF8? bytes with
      | some text => return .ok text
      | none => return .error .notText

/-- An output is shown at once. -/
def tell (display : Console.Display) (output : Console.Output) : IO Unit := do
  (← IO.getStdout).putStr (Console.stdoutText display [output])
  (← IO.getStderr).putStr (Console.stderrText display [output])

/-- The reply of the system to a request. -/
def reply (display : Console.Display) : (request : Request) → IO request.Reply
  | .workingDirectory => return (← IO.currentDir).toString
  | .isPresent path => isPresent path
  | .read path => read path
  | .createDirectories path => access (IO.FS.createDirAll path)
  | .write path text => access (IO.FS.writeFile path text)
  | .tell output => tell display output
  | .seed => IO.rand 0 (1 <<< 31)

/-- A program carried out by the system. -/
def carryOut {A : Type} (display : Console.Display) : Program A → IO A
  | .done result => pure result
  | .query request next => do carryOut display (next (← reply display request))

/-- What the environment says about the display. -/
def environment : IO Environment := do
  let noColor := (← IO.getEnv "NO_COLOR").isSome
  let forced := (← IO.getEnv "CLICOLOR_FORCE").isSome
  let threshold := (← IO.getEnv "LUTKEY_LOG").bind Log.Level.ofName?
  return { colored := forced && !noColor, threshold }

def overview : String :=
  "Usage: lutkey [COMMAND]\n\n" ++
    "Commands:\n" ++
    "  init    Initialize a new .lutkeyrc.json configuration file\n" ++
    "  key     Derive the key for a single text\n" ++
    "  batch   Derive keys for every entry of a JSON batch file\n" ++
    "  export  Print the table as a nested tree\n" ++
    "  check   Report keys that would collide when the table is nested\n"

/-- What is said about words that are no command. -/
def refusal : Usage → String
  | .displayHelp | .displayVersion => overview
  | .invalidSubcommand => "error: unrecognized subcommand"
  | .unknownArgument => "error: unexpected argument"
  | .missingRequiredArgument => "error: a required argument was not provided"
  | .invalidValue => "error: a value is required"
  | .argumentConflict => "error: an argument was given more than once"
  | .tooManyValues => "error: unexpected value for a flag"

def run (words : List String) : IO Nat := do
  match Invocation.ofWords words with
  | .overview =>
      IO.print overview
      return 0
  | .version =>
      IO.println Invocation.versionLine
      return 0
  | .refused usage =>
      if usage.exitCode = 0 then IO.print (refusal usage) else IO.eprintln (refusal usage)
      return usage.exitCode
  | .command command =>
      let display := Invocation.display (← environment) command.verbose
      return (← carryOut display (Task.perform command)).code

end LocaleKeys.Main

def main (words : List String) : IO UInt32 := do
  return (← LocaleKeys.Main.run words).toUInt32
