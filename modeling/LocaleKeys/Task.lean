import LocaleKeys.Arguments
import LocaleKeys.Batch
import LocaleKeys.Pseudo
import LocaleKeys.SettingsFile
import LocaleKeys.TableFile

/-! The commands as programs. A command finds the settings and the table that
hold for the working directory, answers, and saves a changed table only when it
was asked to and nothing failed before. -/
namespace LocaleKeys

/-- How a command ended. -/
inductive ExitStatus
  | success
  /-- The command was carried out and found something to attend to. -/
  | attention
  | error
  deriving DecidableEq, Repr

def ExitStatus.code : ExitStatus → Nat
  | .success => 0
  | .attention => 1
  | .error => 2

namespace Task

inductive Failure
  | settings (cause : SettingsFile.Failure)
  | table (cause : TableFile.Failure)
  | settingsUnwritable (cause : Access.Failure)
  | batchUnreadable (path : String) (cause : Access.Failure)
  | batchMalformed
  | noKey (cause : NoFreeKey)
  | noKeyForEntry (index : Nat) (cause : NoFreeKey)
  deriving DecidableEq, Repr

/-- The messages of a failure, from what was tried to why it failed. -/
def Failure.messages : Failure → List String
  | .settings cause => cause.messages
  | .table cause => cause.messages
  | .settingsUnwritable cause => [cause.message]
  | .batchUnreadable path cause => ["Failed to read batch file: " ++ path, cause.message]
  | .batchMalformed => ["Batch input must be a JSON array of entries"]
  | .noKey cause => [cause.message]
  | .noKeyForEntry index cause =>
      ["Failed to derive key for entry " ++ toString index, cause.message]

/-- The messages of a failure in one line. -/
def Failure.line (e : Failure) : String := "Error: " ++ ": ".intercalate e.messages

/-- A program that may fail. -/
abbrev Attempt := ExceptT Failure Program

/-- A step whose failure is one of a task's. -/
def within {E A : Type} (wrap : E → Failure) (step : ExceptT E Program A) : Attempt A :=
  Program.attempt step.run wrap

/-- What a command works with. -/
structure Context where
  settings : Settings
  tablePath : String
  verbose : Bool

/-- The context of the working directory. A table named by an argument is used
as it is named. -/
def context (arguments : TableArguments) : Attempt Context := do
  let directory ← Program.workingDirectory
  let (settings, file) ← within .settings (SettingsFile.load directory)
  if arguments.verbose ∧ file = none then
    Program.err (Console.plain
      ("Note: No " ++ SettingsFile.fileName ++ " found, using default configuration"))
  return {
    settings
    tablePath := arguments.table.getD (Path.join directory settings.tableFile)
    verbose := arguments.verbose }

/-- The table of a context. -/
def loadTable (c : Context) : Attempt Table := within .table (TableFile.load c.tablePath)

/-- A namer with the table of a context. Overlaps in the table are reported and
end nothing. -/
def loadNamer (c : Context) : Attempt Namer := do
  let t ← loadTable c
  if t.overlaps ≠ [] then
    Program.log (.overlapsFound t.overlaps.length c.tablePath)
  return c.settings.namer.withTable t

/-- The table of a namer is saved. -/
def saveTable (c : Context) (n : Namer) : Attempt Unit :=
  within .table (TableFile.save c.tablePath n.table)

/-- A request to a namer, with its events in the log. -/
def request (n : Namer) (text : String) (labels : List String) (suffix : String) :
    ExceptT NoFreeKey Program (String × Namer) := do
  (Log.Event.ofRequest n text labels suffix).forM fun event => Program.log event
  match n.name text labels suffix with
  | (.ok outcome, next) => return (outcome.key, next)
  | (.error e, _) => throw e

/-- The note on new entries that were not asked to be saved. -/
def reportDryRun (count : Nat) : Attempt Unit :=
  Program.err (Console.warning
    (toString count ++ " new entr" ++ Console.entries count ++
      " not saved (dry run, use --apply to save)"))

/-- Settings are written to the working directory, unless there are some. -/
def init : Attempt ExitStatus := do
  if ← Program.isPresent SettingsFile.fileName then
    Program.err (Console.plain ("Error: " ++ SettingsFile.fileName ++ " already exists"))
    return .attention
  Program.attempt (Program.write SettingsFile.fileName (Settings.defaultText ++ "\n"))
    .settingsUnwritable
  Program.out (Console.success ("Created " ++ SettingsFile.fileName))
  return .success

/-- The key of one text. -/
def key (arguments : KeyArguments) : Attempt ExitStatus := do
  let c ← context arguments.toTableArguments
  let n ← loadNamer c
  let labels := c.settings.context arguments.file arguments.path
  let (key, next) ← within .noKey (request n arguments.text labels arguments.suffix)
  Program.out (Console.plain key)
  let count := next.table.size - n.table.size
  if count > 0 then
    if arguments.apply then saveTable c next else reportDryRun count
  return .success

/-- The keys of the entries of a batch from an index on, each shown as soon as
it is found. -/
def nameEntries (settings : Settings) : Nat → List Batch.Entry → Namer → Attempt Namer
  | _, [], n => pure n
  | index, entry :: rest, n => do
      let labels := settings.context entry.file entry.path
      let (key, next) ←
        within (.noKeyForEntry index) (request n entry.text labels entry.suffix)
      Program.out (Console.plain (key ++ "\t" ++ entry.text))
      nameEntries settings (index + 1) rest next

/-- The entries of a batch file. -/
def loadBatch (path : String) : Attempt (List Batch.Entry) := do
  let text ← Program.attempt (Program.read path) (.batchUnreadable path)
  match Batch.ofText? text with
  | some entries => return entries
  | none => throw .batchMalformed

/-- The keys of all entries of a batch file. -/
def batch (arguments : BatchArguments) : Attempt ExitStatus := do
  let c ← context arguments.toTableArguments
  let entries ← loadBatch arguments.input
  let n := (← loadNamer c).beginUnit
  let next ← nameEntries c.settings 0 entries n
  if !next.hasRequests then
    Program.err (Console.plain ("No entries in " ++ arguments.input))
    return .success
  let count := next.table.size - n.table.size
  if c.verbose then
    Program.err (Console.plain
      (toString next.ledger.requests ++ " key(s) derived, " ++ toString count ++ " new entr" ++
        Console.entries count))
  if count > 0 then
    if arguments.apply then
      saveTable c next
      Program.out (Console.success
        ("Saved " ++ toString next.table.size ++ " entries to " ++ c.tablePath))
    else reportDryRun count
  return .success

/-- The table as a tree. -/
def exportTree (arguments : ExportArguments) : Attempt ExitStatus := do
  let c ← context arguments.toTableArguments
  let t ← loadTable c
  let tree ←
    if arguments.pseudo then do
      let seed ← Program.seed
      pure (Tree.ofTable .texts (t.pseudo (.ofSeed seed)))
    else pure (Tree.ofTable (if arguments.values then .texts else .keys) t)
  (Tree.clashes t).forM fun clash => Program.log (.clash clash)
  match arguments.output with
  | some path =>
      within .table (TableFile.write path tree)
      Program.out (Console.success ("Exported " ++ toString t.size ++ " entries to " ++ path))
  | none => Program.out (Console.plain tree.prettyText)
  return .success

/-- The overlapping keys of the table. -/
def check (arguments : TableArguments) : Attempt ExitStatus := do
  let c ← context arguments
  let t ← loadTable c
  if t.overlaps = [] then
    Program.out (Console.success ("No overlapping keys in " ++ toString t.size ++ " entries"))
    return .success
  t.overlaps.forM fun pair =>
    Program.out [{ paint := some .boldRed, text := "error" },
      { text := ": key \u0060" ++ pair.1 ++ "\u0060 has nested key \u0060" ++ pair.2 ++ "\u0060" }]
  Program.out (Console.plain "")
  Program.out (Console.failure
    (toString t.overlaps.length ++ " overlapping key pair(s) in " ++ toString t.size ++ " entries"))
  return .attention

/-- A command, which may fail. -/
def attempt : Command → Attempt ExitStatus
  | .init => init
  | .key arguments => key arguments
  | .batch arguments => batch arguments
  | .exportTree arguments => exportTree arguments
  | .check arguments => check arguments

/-- A command up to its exit status. A failure is shown and is an error. -/
def perform (command : Command) : Program ExitStatus := do
  match ← (attempt command).run with
  | .ok status => return status
  | .error e =>
      Program.err (Console.plain e.line)
      return .error

end Task
end LocaleKeys
