import LocaleKeys.Invocation
import LocaleKeys.Proofs.Arguments

/-! Commands and the words that ask for them. A command line can ask for every command in
which no path is empty, and for no other one: the argument of a path refuses an empty value,
and any other text can be written behind the equals sign of its option. Words are texts
here. What an operating system refuses in the words of a process, such as a zero character,
is no matter of the reading. -/
namespace LocaleKeys

open Arguments

/-- What the options of the table are given. -/
def TableArguments.columns (a : TableArguments) : Columns :=
  [({ name := "table", isPath := true }, a.table.toList),
    (flag "verbose" (some 'v'), flagged a.verbose)]

namespace Command

/-- The name of a command on the command line. -/
def name : Command → String
  | .init => "init"
  | .key _ => "key"
  | .batch _ => "batch"
  | .exportTree _ => "export"
  | .check _ => "check"

/-- The form in which a command is given. -/
def form : Command → Form
  | .init => initForm
  | .key _ => keyForm
  | .batch _ => batchForm
  | .exportTree _ => exportForm
  | .check _ => checkForm

/-- What the options of a command are given. -/
def columns : Command → Columns
  | .init => []
  | .key a =>
      [({ name := "path", repeats := true }, a.path), ({ name := "suffix" }, [a.suffix]),
        ({ name := "file", isPath := true }, a.file.toList),
        (flag "apply" none, flagged a.apply)] ++ a.toTableArguments.columns
  | .batch a => (flag "apply" none, flagged a.apply) :: a.toTableArguments.columns
  | .exportTree a =>
      [(flag "values" none, flagged a.values), (flag "pseudo" none, flagged a.pseudo),
        ({ name := "output", short := some 'o', isPath := true }, a.output.toList)] ++
      a.toTableArguments.columns
  | .check a => a.columns

/-- What the operand of a command is given, if it has one. -/
def operand : Command → Columns
  | .key a => [({ name := "TEXT" }, [a.text])]
  | .batch a => [({ name := "INPUT", isPath := true }, [a.input])]
  | _ => []

/-- The paths among the values of a command. -/
def paths : Command → List String
  | .init => []
  | .key a => a.file.toList ++ a.table.toList
  | .batch a => a.input :: a.table.toList
  | .exportTree a => a.output.toList ++ a.table.toList
  | .check a => a.table.toList

/-- Words that give a command what it has: each value in the word of its option, and the
operand behind two dashes. -/
def given (c : Command) : List String :=
  Columns.words c.columns ++ c.operand.flatMap fun column => "--" :: column.2

/-- No two arguments of a command have one name, so each can be read back by its own. -/
theorem distinct_columns (c : Command) : Columns.Distinct (c.columns ++ c.operand) := by
  cases c <;> simp [Columns.Distinct, columns, operand, TableArguments.columns, flag]

theorem writes_table {f : Form} {a : TableArguments} (h : a.table ≠ some "")
    (hTable : f.Knows { name := "table", isPath := true })
    (hVerbose : f.Knows (flag "verbose" (some 'v'))) : ∀ c ∈ a.columns, f.Writes c.1 c.2 := by
  simp only [TableArguments.columns, List.forall_mem_cons]
  exact ⟨.of_option hTable rfl fun _ => h, .of_flag hVerbose rfl a.verbose, by simp⟩

/-- The options of a command can be written unless a path in it is empty. This is the only
place in which the forms of the commands are looked up. -/
theorem writes_columns {c : Command} (h : "" ∉ c.paths) :
    ∀ column ∈ c.columns, c.form.Writes column.1 column.2 := by
  cases c with
  | init => simp [columns]
  | key a =>
      have hPaths : a.file ≠ some "" ∧ a.table ≠ some "" := by simpa [paths] using h
      simp only [form, columns, List.forall_mem_append, List.forall_mem_cons]
      refine ⟨⟨?_, ?_, ?_, ?_, by simp⟩, writes_table hPaths.2 (by decide) (by decide)⟩
      · exact .of_repeated (by decide) rfl rfl rfl a.path
      · have hSuffix : keyForm.Writes { name := "suffix" } (some a.suffix).toList :=
          .of_option (by decide) rfl (by simp)
        exact hSuffix
      · exact .of_option (by decide) rfl fun _ => hPaths.1
      · exact .of_flag (by decide) rfl a.apply
  | batch a =>
      have hPaths : a.input ≠ "" ∧ a.table ≠ some "" := by
        simpa [paths, eq_comm (a := "")] using h
      simp only [form, columns, List.forall_mem_cons]
      exact ⟨.of_flag (by decide) rfl a.apply, writes_table hPaths.2 (by decide) (by decide)⟩
  | exportTree a =>
      have hPaths : a.output ≠ some "" ∧ a.table ≠ some "" := by simpa [paths] using h
      simp only [form, columns, List.forall_mem_append, List.forall_mem_cons]
      refine ⟨⟨?_, ?_, ?_, by simp⟩, writes_table hPaths.2 (by decide) (by decide)⟩
      · exact .of_flag (by decide) rfl a.values
      · exact .of_flag (by decide) rfl a.pseudo
      · exact .of_option (by decide) rfl fun _ => hPaths.1
  | check a =>
      simp only [form, columns]
      exact writes_table (by simpa [paths] using h) (by decide) (by decide)

end Command

namespace Arguments

theorem exists_reading_of_options {c : Command} (h : "" ∉ c.paths) (hOperand : c.operand = []) :
    ∃ r, Reading.words c.form c.given {} = .ok r ∧
      ∀ column ∈ c.columns ++ c.operand, r.values column.1.name = column.2 := by
  have hDistinct := c.distinct_columns
  rw [hOperand, List.append_nil] at hDistinct
  rw [Command.given, hOperand, List.flatMap_nil, List.append_nil, List.append_nil]
  exact Reading.exists_of_columns (Command.writes_columns h) hDistinct

/-- The words of a command are read as the values that it has, those of its options and the
one of its operand. -/
theorem exists_reading {c : Command} (h : "" ∉ c.paths) :
    ∃ r, Reading.words c.form c.given {} = .ok r ∧
      ∀ column ∈ c.columns ++ c.operand, r.values column.1.name = column.2 := by
  have hWrites := Command.writes_columns h
  have hDistinct := c.distinct_columns
  cases c with
  | key a => exact Reading.exists_of_columns_operand rfl (by simp) hWrites hDistinct
  | batch a =>
      have hInput : a.input ≠ "" := fun hEmpty => h (by simp [Command.paths, hEmpty])
      exact Reading.exists_of_columns_operand rfl (fun _ => hInput) hWrites hDistinct
  | init | exportTree a | check a => exact exists_reading_of_options h rfl

/-- The values that were read make the command: each field is the value of its own
argument. -/
theorem command?_of_values {c : Command} {given : List String} {r : Reading}
    (hRead : Reading.words c.form given {} = .ok r)
    (hValues : ∀ column ∈ c.columns ++ c.operand, r.values column.1.name = column.2) :
    command? c.name given = some (.ok c) := by
  simp only [Command.columns, Command.operand, TableArguments.columns, flag,
    List.forall_mem_append] at hValues
  cases c with
  | init => exact congrArg some (bind_eq_ok_iff.mpr ⟨r, hRead, rfl⟩)
  | key a =>
      simp only [List.forall_mem_append, List.forall_mem_cons] at hValues
      obtain ⟨⟨⟨hPath, hSuffix, hFile, hApply, -⟩, hTable, hVerbose, -⟩, hText, -⟩ := hValues
      have hSome : r.value? "suffix" = some a.suffix := Reading.value?_of_values hSuffix
      refine congrArg some (bind_eq_ok_iff.mpr ⟨r, hRead,
        bind_eq_ok_iff.mpr ⟨a.text, Reading.required_of_values hText, ?_⟩⟩)
      rw [Reading.tableArguments, hPath, hSome, Reading.value?_of_values hFile,
        Reading.isSet_of_values hApply, Reading.value?_of_values hTable,
        Reading.isSet_of_values hVerbose]
      rfl
  | batch a =>
      simp only [List.forall_mem_cons] at hValues
      obtain ⟨⟨hApply, hTable, hVerbose, -⟩, hInput, -⟩ := hValues
      refine congrArg some (bind_eq_ok_iff.mpr ⟨r, hRead,
        bind_eq_ok_iff.mpr ⟨a.input, Reading.required_of_values hInput, ?_⟩⟩)
      rw [Reading.tableArguments, Reading.isSet_of_values hApply, Reading.value?_of_values hTable,
        Reading.isSet_of_values hVerbose]
      rfl
  | exportTree a =>
      simp only [List.forall_mem_append, List.forall_mem_cons] at hValues
      obtain ⟨⟨⟨hTexts, hPseudo, hOutput, -⟩, hTable, hVerbose, -⟩, -⟩ := hValues
      refine congrArg some (bind_eq_ok_iff.mpr ⟨r, hRead, ?_⟩)
      rw [Reading.tableArguments, Reading.isSet_of_values hTexts, Reading.isSet_of_values hPseudo,
        Reading.value?_of_values hOutput, Reading.value?_of_values hTable,
        Reading.isSet_of_values hVerbose]
      rfl
  | check a =>
      simp only [List.forall_mem_cons] at hValues
      obtain ⟨⟨hTable, hVerbose, -⟩, -⟩ := hValues
      refine congrArg some (bind_eq_ok_iff.mpr ⟨r, hRead, ?_⟩)
      rw [Reading.tableArguments, Reading.value?_of_values hTable,
        Reading.isSet_of_values hVerbose]
      rfl

/-- A word that is neither help nor an option is the name of a command, and what follows is
read by the form of that command. -/
theorem parse_cons {name : String} (hHelp : name ≠ "help")
    (hWord : ∀ rest, name.toList ≠ '-' :: rest) (rest : List String) :
    parse (name :: rest) =
      match command? name rest with
      | some result => result.map some
      | none => .error .invalidSubcommand := by
  have hDashes : name ≠ "--" := by
    rintro rfl
    exact hWord ['-'] (by decide)
  rw [parse.eq_def]
  split
  next h => cases h
  next h => exact absurd (List.cons.inj h).1 hDashes
  next h => exact absurd (List.cons.inj h).1 hDashes
  next h => exact absurd (List.cons.inj h).1 hHelp
  next h =>
    obtain ⟨rfl, rfl⟩ := List.cons.inj h
    split
    next h => exact absurd h (hWord _)
    next => rfl

/-- The words of a command are read as that command unless a path in it is empty. -/
theorem parse_given {c : Command} (h : "" ∉ c.paths) :
    parse (c.name :: c.given) = .ok (some c) := by
  obtain ⟨r, hRead, hValues⟩ := exists_reading h
  have hHelp : c.name ≠ "help" := by cases c <;> simp [Command.name]
  have hWord (rest : List Char) : c.name.toList ≠ '-' :: rest := by
    cases c <;> simp [Command.name]
  rw [parse_cons hHelp hWord, command?_of_values hRead hValues]
  rfl

/-- Every command that was read was read by the form of some command, whatever stood
before. -/
theorem exists_of_parse {words : List String} {c : Command} (h : parse words = .ok (some c)) :
    ∃ name rest, command? name rest = some (.ok c) := by
  rw [parse.eq_def] at h
  split at h
  next => cases h
  next => cases h
  next => cases h
  next => split at h <;> cases h
  next name rest _ _ _ =>
    split at h
    next => cases h
    next =>
      split at h
      next result hResult =>
        cases result with
        | error usage => cases h
        | ok found =>
            obtain rfl := Option.some.inj (Except.ok.inj h)
            exact ⟨name, rest, hResult⟩
      next => cases h

/-- No command that was read has an empty path. The cases are those of the names, and each
form knows its paths as paths. -/
theorem not_mem_paths_of_command? {name : String} {given : List String} {c : Command}
    (h : command? name given = some (.ok c)) : "" ∉ c.paths := by
  rw [command?.eq_def] at h
  split at h
  next =>
    obtain ⟨r, -, hC⟩ := bind_eq_ok_iff.mp (Option.some.inj h)
    obtain rfl := Except.ok.inj hC
    simp [Command.paths]
  next =>
    obtain ⟨r, hRead, hC⟩ := bind_eq_ok_iff.mp (Option.some.inj h)
    obtain ⟨text, -, hC⟩ := bind_eq_ok_iff.mp hC
    obtain rfl := Except.ok.inj hC
    have hFile : r.value? "file" ≠ some "" := Reading.value?_ne_of_words hRead (by decide)
    have hTable : r.value? "table" ≠ some "" := Reading.value?_ne_of_words hRead (by decide)
    simpa [Command.paths, Reading.tableArguments] using And.intro hFile hTable
  next =>
    obtain ⟨r, hRead, hC⟩ := bind_eq_ok_iff.mp (Option.some.inj h)
    obtain ⟨input, hGiven, hC⟩ := bind_eq_ok_iff.mp hC
    obtain rfl := Except.ok.inj hC
    have hInput : r.value? "INPUT" ≠ some "" := Reading.value?_ne_of_words hRead (by decide)
    have hTable : r.value? "table" ≠ some "" := Reading.value?_ne_of_words hRead (by decide)
    have hSome : r.value? "INPUT" = some input := by
      rw [Reading.required] at hGiven
      split at hGiven
      next hValue => exact Except.ok.inj hGiven ▸ hValue
      next => cases hGiven
    rw [hSome] at hInput
    simpa [Command.paths, Reading.tableArguments, eq_comm (a := "")] using And.intro hInput hTable
  next =>
    obtain ⟨r, hRead, hC⟩ := bind_eq_ok_iff.mp (Option.some.inj h)
    obtain rfl := Except.ok.inj hC
    have hOutput : r.value? "output" ≠ some "" := Reading.value?_ne_of_words hRead (by decide)
    have hTable : r.value? "table" ≠ some "" := Reading.value?_ne_of_words hRead (by decide)
    simpa [Command.paths, Reading.tableArguments] using And.intro hOutput hTable
  next =>
    obtain ⟨r, hRead, hC⟩ := bind_eq_ok_iff.mp (Option.some.inj h)
    obtain rfl := Except.ok.inj hC
    have hTable : r.value? "table" ≠ some "" := Reading.value?_ne_of_words hRead (by decide)
    simpa [Command.paths, Reading.tableArguments] using hTable
  next => cases h

end Arguments

namespace Invocation

open Arguments (parse)

theorem ofWords_eq_command_iff {words : List String} {c : Command} :
    ofWords words = .command c ↔ parse words = .ok (some c) := by
  rw [ofWords]
  split
  next hParse => simp [hParse]
  next found hParse => simp [hParse]
  next hParse => simp [hParse]
  next usage _ hParse => simp [hParse]

/-- A command line can ask for a command exactly when no path in it is empty. Empty texts,
texts that look like options and texts with equals signs or spaces can all be given. -/
theorem exists_words_iff {c : Command} :
    (∃ words, ofWords words = .command c) ↔ "" ∉ c.paths := by
  simp only [ofWords_eq_command_iff]
  constructor
  · rintro ⟨words, hParse⟩
    obtain ⟨name, rest, hCommand⟩ := Arguments.exists_of_parse hParse
    exact Arguments.not_mem_paths_of_command? hCommand
  · intro hPaths
    exact ⟨c.name :: c.given, Arguments.parse_given hPaths⟩

/-- A text that looks like an option is written all the same. -/
example : ofWords ["key", "--path=Menu", "--suffix=", "--apply", "--", "--file"] =
    .command (.key { text := "--file", path := ["Menu"], apply := true }) := by
  decide

end Invocation
end LocaleKeys
