import LocaleKeys.Task

/-! One run of the program: the words of the command line, the environment, and
what is shown and returned. -/
namespace LocaleKeys

/-- What the words of a command line ask for. -/
inductive Invocation
  /-- No command at all. -/
  | overview
  | version
  | refused (usage : Usage)
  | command (found : Command)
  deriving DecidableEq, Repr

/-- What the environment says about the display. -/
structure Environment where
  colored : Bool := false
  /-- The threshold of the log, if one is set. -/
  threshold : Option Log.Level := none

namespace Invocation

def ofWords (words : List String) : Invocation :=
  match Arguments.parse words with
  | .ok none => .overview
  | .ok (some found) => .command found
  | .error .displayVersion => .version
  | .error usage => .refused usage

/-- The name of the program with its version. -/
def versionLine : String := "lutkey 0.1.0"

/-- The display of a command: warnings are shown, and with the verbose option
also what helps to find a fault. -/
def display (environment : Environment) (verbose : Bool) : Console.Display where
  colored := environment.colored
  threshold := environment.threshold.getD (if verbose then .debug else .warn)

/-- What a run leaves behind. -/
structure Ended where
  exitCode : Nat
  stdout : String
  stderr : String
  files : FileSystem

/-- A command carried out on a file system. -/
def perform (environment : Environment) (seed : Nat) (files : FileSystem) (command : Command) :
    Ended :=
  let (status, world) := (Task.perform command).run { files, seed }
  let display := display environment command.verbose
  { exitCode := status.code
    stdout := Console.stdoutText display world.shown
    stderr := Console.stderrText display world.shown
    files := world.files }

end Invocation
end LocaleKeys
