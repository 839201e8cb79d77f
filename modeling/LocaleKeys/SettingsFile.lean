import LocaleKeys.Program
import LocaleKeys.Settings

/-! The settings file of a project. It is looked for in a directory and in those
above it, up to the directory that holds the repository. -/
namespace LocaleKeys.SettingsFile

def fileName : String := ".lutkeyrc.json"

/-- Marks the directory of a repository. -/
def repositoryMark : String := ".git"

inductive Failure
  | unreadable (cause : Access.Failure)
  | malformed (path : String)
  | invalid (fault : Settings.Fault)
  deriving DecidableEq, Repr

/-- The messages of a failure, from what was tried to why it failed. -/
def Failure.messages : Failure → List String
  | .unreadable cause => [cause.message]
  | .malformed path => ["Failed to parse config file: " ++ Text.quoted path]
  | .invalid fault => [fault.message]

/-- The first settings file in a list of directories. The directory of a
repository is the last one that is searched. -/
def findIn : List String → Program (Option String)
  | [] => pure none
  | directory :: above => do
      let path := Path.join directory fileName
      if ← Program.isPresent path then return some path
      else if ← Program.isPresent (Path.join directory repositoryMark) then return none
      else findIn above

/-- The settings file that holds for a directory. -/
def find (directory : String) : Program (Option String) := findIn (Path.lineage directory)

/-- The settings that the text of a file holds. -/
def parse (path text : String) : Except Failure Settings :=
  match Settings.ofText? text with
  | none => .error (.malformed path)
  | some settings =>
      match settings.fault? with
      | some fault => .error (.invalid fault)
      | none => .ok settings

/-- The settings that hold for a directory, with the file that they come from. -/
def load (directory : String) : ExceptT Failure Program (Settings × Option String) := do
  match ← find directory with
  | none => return ({}, none)
  | some path =>
      let text ← Program.attempt (Program.read path) .unreadable
      let settings ← ExceptT.mk (pure (parse path text))
      Program.log (.settingsLoaded path)
      return (settings, some path)

end LocaleKeys.SettingsFile
