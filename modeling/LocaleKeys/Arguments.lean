/-! The command line. Words are read one after another: a word that starts with
a dash names options, two dashes alone end them, and any other word is the value
of an option that waits for one, or else the command's operand. A value is
checked when the next argument begins, so an earlier fault of the kind "unknown"
wins over a value that is still waiting. -/
namespace LocaleKeys

/-- Arguments that all commands on a table have. -/
structure TableArguments where
  table : Option String := none
  verbose : Bool := false
  deriving DecidableEq, Repr

structure KeyArguments extends TableArguments where
  text : String
  path : List String := []
  suffix : String := ""
  file : Option String := none
  apply : Bool := false
  deriving DecidableEq, Repr

structure BatchArguments extends TableArguments where
  input : String
  apply : Bool := false
  deriving DecidableEq, Repr

structure ExportArguments extends TableArguments where
  values : Bool := false
  pseudo : Bool := false
  output : Option String := none
  deriving DecidableEq, Repr

inductive Command
  | init
  | key (arguments : KeyArguments)
  | batch (arguments : BatchArguments)
  | exportTree (arguments : ExportArguments)
  | check (arguments : TableArguments)
  deriving DecidableEq, Repr

/-- Why the words are no command that can be carried out. -/
inductive Usage
  | displayHelp
  | displayVersion
  | invalidSubcommand
  | unknownArgument
  | missingRequiredArgument
  | invalidValue
  | argumentConflict
  | tooManyValues
  deriving DecidableEq, Repr

namespace Usage

/-- Asking for help or for the version is no mistake. -/
def exitCode : Usage → Nat
  | .displayHelp | .displayVersion => 0
  | _ => 2

end Usage

namespace Command

def verbose : Command → Bool
  | .init => false
  | .key a => a.verbose
  | .batch a => a.verbose
  | .exportTree a => a.verbose
  | .check a => a.verbose

end Command

namespace Arguments

/-- An argument that a command knows. -/
structure Argument where
  name : String
  short : Option Char := none
  takesValue : Bool := true
  /-- Whether it may be given more than once. -/
  repeats : Bool := false
  /-- Whether its value is a path, which must not be empty. -/
  isPath : Bool := false
  deriving DecidableEq, Repr

def flag (name : String) (short : Option Char) : Argument :=
  { name, short, takesValue := false }

def help : Argument := flag "help" (some 'h')

/-- The arguments of a command: its options and its operand. -/
structure Form where
  options : List Argument
  operand : Option Argument := none

def tableOptions : List Argument :=
  [{ name := "table", isPath := true }, flag "verbose" (some 'v'), help]

def initForm : Form := { options := [help] }

def keyForm : Form where
  options :=
    [{ name := "path", repeats := true }, { name := "suffix" }, { name := "file", isPath := true },
      flag "apply" none] ++ tableOptions
  operand := some { name := "TEXT" }

def batchForm : Form where
  options := flag "apply" none :: tableOptions
  operand := some { name := "INPUT", isPath := true }

def exportForm : Form where
  options :=
    [flag "values" none, flag "pseudo" none,
      { name := "output", short := some 'o', isPath := true }] ++ tableOptions

def checkForm : Form where
  options := tableOptions

/-- What was read so far. -/
structure Reading where
  /-- Arguments with their values, in order; flags have an empty value. -/
  given : List (String × String) := []
  /-- The argument that was met last, with its value if it has one already. -/
  pending : Option (Argument × Option String) := none

namespace Reading

def has (r : Reading) (a : Argument) : Bool := r.given.any fun entry => entry.1 = a.name

/-- An argument is checked and taken. -/
def accept (r : Reading) (a : Argument) (value : Option String) : Except Usage Reading :=
  if a.takesValue && value.isNone then .error .invalidValue
  else if r.has a && !a.repeats then .error .argumentConflict
  else if a.isPath && value = some "" then .error .invalidValue
  else .ok { given := r.given ++ [(a.name, value.getD "")], pending := none }

/-- The argument met last is checked and taken. -/
def settle (r : Reading) : Except Usage Reading :=
  match r.pending with
  | none => .ok r
  | some (a, value) => r.accept a value

/-- An argument that is complete: what was met before it is settled first. -/
def take (r : Reading) (a : Argument) (value : Option String) : Except Usage Reading := do
  if a = help then
    let _ ← r.settle
    throw .displayHelp
  (← r.settle).accept a value

/-- An argument whose value is still to be checked, or still to come. -/
def await (r : Reading) (a : Argument) (value : Option String) : Except Usage Reading := do
  return { ← r.settle with pending := some (a, value) }

/-- A word that is no option and for which no option waits. -/
def operand (r : Reading) (f : Form) (word : String) : Except Usage Reading :=
  match f.operand with
  | none => .error .unknownArgument
  | some a =>
      if r.has a || (r.pending.map Prod.fst) = some a then .error .unknownArgument
      else r.await a (some word)

/-- An option by its long name, with the value written behind an equals sign. -/
def long (r : Reading) (f : Form) (name : List Char) (attached : Option (List Char)) :
    Except Usage Reading :=
  match f.options.find? fun a => a.name.toList = name with
  | none => .error .unknownArgument
  | some a =>
      match attached with
      | some value =>
          if a.takesValue then r.take a (some (String.ofList value)) else .error .tooManyValues
      | none => if a.takesValue then r.await a none else r.take a none

/-- Options by their letters. An option with a value takes the rest of the word,
less an equals sign at its start. -/
def cluster (f : Form) : List Char → Reading → Except Usage Reading
  | [], r => .ok r
  | letter :: rest, r =>
      match f.options.find? fun a => a.short = some letter with
      | none => .error .unknownArgument
      | some a =>
          if a.takesValue then
            match rest with
            | [] => r.await a none
            | '=' :: value => r.take a (some (String.ofList value))
            | value => r.take a (some (String.ofList value))
          else do cluster f rest (← r.take a none)

/-- One word while options are still possible. -/
def word (r : Reading) (f : Form) (w : String) : Except Usage Reading :=
  match w.toList with
  | '-' :: '-' :: body =>
      let name := body.takeWhile (· ≠ '=')
      match body.dropWhile (· ≠ '=') with
      | [] => r.long f name none
      | _ :: value => r.long f name (some value)
  | '-' :: letter :: rest => cluster f (letter :: rest) r
  | _ =>
      match r.pending with
      | some (a, none) => .ok { r with pending := some (a, some w) }
      | _ => r.operand f w

/-- All words of a command. -/
def words (f : Form) : List String → Reading → Except Usage Reading
  | [], r => r.settle
  | w :: rest, r => do
      if w = "--" then
        let r ← rest.foldlM (fun r w => r.operand f w) r
        r.settle
      else words f rest (← r.word f w)

/-- The last value of an argument. -/
def value? (r : Reading) (name : String) : Option String :=
  (r.given.reverse.find? fun entry => entry.1 = name).map Prod.snd

def values (r : Reading) (name : String) : List String :=
  (r.given.filter fun entry => entry.1 = name).map Prod.snd

def isSet (r : Reading) (name : String) : Bool := (r.value? name).isSome

def required (r : Reading) (name : String) : Except Usage String :=
  match r.value? name with
  | some value => .ok value
  | none => .error .missingRequiredArgument

def tableArguments (r : Reading) : TableArguments :=
  { table := r.value? "table", verbose := r.isSet "verbose" }

end Reading

/-- The command of a name with its words; none when there is no such command. -/
def command? (name : String) (words : List String) : Option (Except Usage Command) :=
  match name with
  | "init" => some do
      let _ ← Reading.words initForm words {}
      return .init
  | "key" => some do
      let r ← Reading.words keyForm words {}
      return .key { r.tableArguments with
        text := ← r.required "TEXT"
        path := r.values "path"
        suffix := (r.value? "suffix").getD ""
        file := r.value? "file"
        apply := r.isSet "apply" }
  | "batch" => some do
      let r ← Reading.words batchForm words {}
      return .batch { r.tableArguments with
        input := ← r.required "INPUT"
        apply := r.isSet "apply" }
  | "export" => some do
      let r ← Reading.words exportForm words {}
      return .exportTree { r.tableArguments with
        values := r.isSet "values"
        pseudo := r.isSet "pseudo"
        output := r.value? "output" }
  | "check" => some do
      let r ← Reading.words checkForm words {}
      return .check r.tableArguments
  | _ => none

/-- The names of the commands; help is one, and it can be asked for each of them. -/
def commandNames : List String := ["init", "key", "batch", "export", "check", "help"]

/-- An option before any command. -/
def leadingOption : List Char → Usage
  | '-' :: body =>
      let known : Option Usage :=
        match String.ofList (body.takeWhile (· ≠ '=')) with
        | "help" => some .displayHelp
        | "version" => some .displayVersion
        | _ => none
      match known with
      | none => .unknownArgument
      | some usage => if '=' ∈ body then .tooManyValues else usage
  | 'h' :: _ => .displayHelp
  | 'V' :: _ => .displayVersion
  | _ => .unknownArgument

/-- The command that the words ask for, if they ask for one. Two dashes end the
options, and behind them no word is a command any more. -/
def parse : List String → Except Usage (Option Command)
  | [] => .ok none
  | ["--"] => .ok none
  | "--" :: w :: _ => .error (if w ∈ commandNames then .unknownArgument else .invalidSubcommand)
  | "help" :: topics =>
      match topics with
      | [] => .error .displayHelp
      | [topic] => .error (if topic ∈ commandNames then .displayHelp else .invalidSubcommand)
      | _ => .error .invalidSubcommand
  | w :: rest =>
      match w.toList with
      | '-' :: letter :: more => .error (leadingOption (letter :: more))
      | _ =>
          match command? w rest with
          | some result => result.map some
          | none => .error .invalidSubcommand

end Arguments
end LocaleKeys
