import LocaleKeys.Json.Reader
import LocaleKeys.Json.Writer
import LocaleKeys.Program

/-! Tables in files. A table is read from an object of texts, nested or flat,
and written flat with its keys ascending. A file that is not there stands for
the empty table; a file that would lose an entry is refused. -/
namespace LocaleKeys.TableFile

inductive Failure
  | unreadable (path : String) (cause : Access.Failure)
  | malformed (path : String)
  | notObject (path : String)
  | lossy (path : String) (cause : Tree.FlattenError)
  | noDirectory (directory : String) (cause : Access.Failure)
  | unwritable (path : String) (cause : Access.Failure)
  deriving DecidableEq, Repr

/-- The messages of a failure, from what was tried to why it failed. -/
def Failure.messages : Failure → List String
  | .unreadable path cause => ["Failed to read file: " ++ path, cause.message]
  | .malformed path => ["Failed to parse JSON: " ++ path]
  | .notObject path => ["Root of JSON file must be an object: " ++ path]
  | .lossy path cause => ["Invalid table file " ++ path ++ ": " ++ cause.message]
  | .noDirectory directory cause => ["Failed to create directory: " ++ directory, cause.message]
  | .unwritable path cause => ["Failed to write file: " ++ path, cause.message]

/-- The table that the text of a file holds. -/
def parse (path text : String) : Except Failure Table :=
  match Json.ofText? text with
  | none => .error (.malformed path)
  | some value =>
      if value.isObject then (Tree.flatten? value).mapError (.lossy path)
      else .error (.notObject path)

/-- The table of a file. -/
def load (path : String) : ExceptT Failure Program Table := do
  if ← Program.isPresent path then
    let text ← Program.attempt (Program.read path) (.unreadable path)
    let table ← ExceptT.mk (pure (parse path text))
    Program.log (.tableLoaded path table.size)
    return table
  else
    Program.log (.tableMissing path)
    return .empty

/-- The text of a file that holds a value. -/
def textOf (value : Json) : String := value.prettyText ++ "\n"

/-- A value is written to a file, after the directories that lead to it. -/
def write (path : String) (value : Json) : ExceptT Failure Program Unit := do
  let directory := (Path.parent? path).getD ""
  if directory ≠ "" then
    Program.attempt (Program.createDirectories directory) (.noDirectory directory)
  Program.attempt (Program.write path (textOf value)) (.unwritable path)
  Program.log (.fileWritten path)

/-- A table is written to a file. -/
def save (path : String) (t : Table) : ExceptT Failure Program Unit := write path t.toJson

end LocaleKeys.TableFile
