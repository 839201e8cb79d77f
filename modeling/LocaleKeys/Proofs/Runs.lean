import LocaleKeys.Proofs.CommandLine
import LocaleKeys.Proofs.Commands

/-! Runs of the program one after another. A batch that was applied does what its entries
do as single commands, and when it is applied again it answers the same and changes no
file. -/
namespace LocaleKeys

open Program (Gives effect)
open TableFile (Updates)

namespace Console

@[simp] theorem render_plain (colored : Bool) (text : String) :
    (plain text).render colored = text := by
  simp [plain, Line.render, Span.render]

theorem rendered_append (colored : Bool) (first second : List Line) :
    rendered colored (first ++ second) = rendered colored first ++ rendered colored second := by
  simp [rendered]

end Console

/-- The text that a batch prints for its entries. -/
def Batch.reportText (keys : List String) (entries : List Entry) : String :=
  String.join (List.zipWith (fun key entry => key ++ "\t" ++ entry.text ++ "\n") keys entries)

theorem Batch.rendered_report (colored : Bool) (keys : List String) (entries : List Entry) :
    Console.rendered colored (report keys entries) = reportText keys entries := by
  simp [Console.rendered, report, reportText, List.map_zipWith]

/-- The command that names one entry of a batch with the same table. An entry is data of a
file and may hold what a command line refuses, so this is the command and not its words:
`Invocation.exists_words_command_iff` says for which entries there are some. -/
def BatchArguments.command (a : BatchArguments) (entry : Batch.Entry) : Command :=
  .key { a.toTableArguments with
    text := entry.text
    path := entry.path
    suffix := entry.suffix
    file := entry.file
    apply := a.apply }

namespace Invocation

/-- The command of an entry can be asked for on a command line, like the batch itself, unless
the entry has an empty text for its file. The command of such an entry answers as the batch
does; only its words are refused. -/
theorem exists_words_command_iff {a : BatchArguments} {entry : Batch.Entry}
    (hBatch : ∃ words, ofWords words = .command (.batch a)) :
    (∃ words, ofWords words = .command (a.command entry)) ↔ entry.file ≠ some "" := by
  have hTable : a.table ≠ some "" := by
    rw [exists_words_iff] at hBatch
    simpa [Command.paths] using fun hEmpty => hBatch (by simp [Command.paths, hEmpty])
  rw [exists_words_iff]
  simp [Command.paths, BatchArguments.command, hTable]

variable {environment : Environment} {seed : Nat} {files later : FileSystem} {command : Command}
  {lines : List Console.Line}

/-- A failure is an error and prints nothing. -/
theorem effect_perform (command : Command) : effect seed (Task.perform command) files =
    (match (effect seed (Task.attempt command).run files).1 with
      | .ok status => status
      | .error _ => .error,
      (effect seed (Task.attempt command).run files).2) := by
  rw [Task.perform, Program.effect_bind]
  obtain ⟨result, later, lines⟩ := effect seed (Task.attempt command).run files
  cases result <;> simp

theorem perform_eq_effect : (perform environment seed files command).exitCode =
      (effect seed (Task.perform command) files).1.code ∧
    (perform environment seed files command).files =
      (effect seed (Task.perform command) files).2.1 ∧
    (perform environment seed files command).stdout =
      Console.rendered environment.colored (effect seed (Task.perform command) files).2.2 :=
  ⟨rfl, rfl, Console.stdoutText_eq _ _⟩

/-- Whatever a command does and however it ends, it leaves a well-formed file system, so
the next command can be described as the first one was. -/
theorem perform_wellFormed (h : files.WellFormed) :
    (perform environment seed files command).files.WellFormed :=
  Program.run_wellFormed (Task.perform command) h

/-- A command that succeeds ends with its status, leaves its files and prints its lines. -/
theorem perform_of_gives (environment : Environment) {status : ExitStatus}
    (h : Gives seed (Task.attempt command) files status later lines) :
    (perform environment seed files command).exitCode = status.code ∧
      (perform environment seed files command).files = later ∧
      (perform environment seed files command).stdout =
        Console.rendered environment.colored lines := by
  have hEffect : effect seed (Task.perform command) files = (status, later, lines) := by
    rw [Gives] at h
    rw [effect_perform, h]
  rw [perform_eq_effect.1, perform_eq_effect.2.1, perform_eq_effect.2.2, hEffect]
  exact ⟨rfl, rfl, rfl⟩

/-- A run that ends well is one of a command that succeeds. -/
theorem gives_of_perform (h : (perform environment seed files command).exitCode = 0) :
    ∃ lines, Gives seed (Task.attempt command) files .success
        (perform environment seed files command).files lines ∧
      (perform environment seed files command).stdout =
        Console.rendered environment.colored lines := by
  rw [perform_eq_effect.1, effect_perform] at h
  rw [perform_eq_effect.2.1, perform_eq_effect.2.2, effect_perform]
  simp only [Gives]
  generalize effect seed (Task.attempt command).run files = ended at h ⊢
  obtain ⟨result, later, lines⟩ := ended
  cases result with
  | error e => cases h
  | ok status =>
      cases status with
      | success => exact ⟨lines, rfl, rfl⟩
      | attention | error => cases h

/-- Commands carried out one after another, each on the files that the one before it has
left. -/
def performAll (environment : Environment) (seed : Nat) : FileSystem → List Command → List Ended
  | _, [] => []
  | files, command :: rest =>
      let ended := perform environment seed files command
      ended :: performAll environment seed ended.files rest

/-- The files after all of the commands. -/
def filesAfter (environment : Environment) (seed : Nat) (files : FileSystem)
    (commands : List Command) : FileSystem :=
  commands.foldl (fun files command => (perform environment seed files command).files) files

variable {a : BatchArguments} {c : Task.Context}

/-- The entries of a batch as single commands: each succeeds and prints the key that the
batch gives it, and the files in the end are those that saving the last table leaves. -/
theorem performAll_of_keyed {t after : Table} {entries : List Batch.Entry} {keys : List String}
    {last : FileSystem} (hApply : a.apply = true)
    (hSettings : SettingsFile.fileName ∉ Path.names c.tablePath)
    (hRepository : SettingsFile.repositoryMark ∉ Path.names c.tablePath)
    (hKeyed : Batch.Keyed c.settings t entries keys after) (hFiles : files.WellFormed)
    (hContext : c.Holds files a.toTableArguments) (hTable : TableFile.Holds files c.tablePath t)
    (hUpdates : Updates files c.tablePath t after last) :
    (performAll environment seed files (entries.map a.command)).map
        (fun ended => (ended.exitCode, ended.stdout)) = keys.map (fun key => (0, key ++ "\n")) ∧
      filesAfter environment seed files (entries.map a.command) = last := by
  induction hKeyed generalizing files with
  | nil t =>
      rw [Updates, if_neg (Nat.lt_irrefl t.size)] at hUpdates
      exact ⟨rfl, hUpdates.symm⟩
  | @cons t after entry entries outcome keys hPlace hRest ih =>
      have hGrows := (Table.after_of_place hPlace).1
      obtain ⟨middle, hHere, hThere⟩ := hUpdates.through hGrows hRest.grows
      have hGives : Gives seed (Task.attempt (a.command entry)) files .success middle
          [Console.plain outcome.key] :=
        (Task.gives_key hApply).mpr
          ⟨rfl, c, t, outcome, hContext, hTable, hPlace, hHere, rfl⟩
      obtain ⟨hCode, hLeft, hShown⟩ := perform_of_gives environment hGives
      have hMiddle : middle.WellFormed := hLeft ▸ perform_wellFormed hFiles
      have hSame := hContext.of_updates hFiles hHere hSettings hRepository
      obtain ⟨hAnswers, hLast⟩ := ih hMiddle hSame (hHere.holds hGrows hTable) hThere
      constructor
      · simp [performAll, hCode, hShown, hLeft, hAnswers, ExitStatus.code, Console.rendered]
      · simp only [filesAfter, List.map_cons, List.foldl_cons, hLeft]
        exact hLast

/-- What a batch that was applied has done: its entries were given keys in the table that
was loaded, the table was saved if it had grown, and the keys were printed. -/
theorem exists_of_batch (hApply : a.apply = true)
    (hContext : ((Task.context a.toTableArguments).run.run { files, seed }).1 = .ok c)
    (hBatch : (perform environment seed files (.batch a)).exitCode = 0) :
    c.Holds files a.toTableArguments ∧ ∃ text entries t keys after,
      files.read a.input = .ok text ∧ Batch.ofText? text = some entries ∧
      TableFile.Holds files c.tablePath t ∧ Batch.Keyed c.settings t entries keys after ∧
      Updates files c.tablePath t after (perform environment seed files (.batch a)).files ∧
      (perform environment seed files (.batch a)).stdout = Batch.reportText keys entries ++
        Console.rendered environment.colored (Task.savedNotice c.tablePath t after) := by
  obtain ⟨lines, hGives, hShown⟩ := gives_of_perform hBatch
  obtain ⟨-, found, text, entries, t, keys, after, hFound, hRead, hParse, hTable, hKeyed, hUpdates,
    rfl⟩ := (Task.gives_batch hApply).mp hGives
  obtain rfl := hFound.eq_of_run hContext
  rw [Console.rendered_append, Batch.rendered_report] at hShown
  exact ⟨hFound, text, entries, t, keys, after, hRead, hParse, hTable, hKeyed, hUpdates, hShown⟩

/-- A project with a nested table, and a batch that gives one text twice. -/
def menuFiles : FileSystem where
  nodes := [
    (["work"], .directory),
    (["work", "lut.json"], .file (.text "\x7b\"menu\": \x7b\"paragraph\": \"Menu\"\x7d\x7d")),
    (["work", "batch.json"], .file (.text
      "[[\"Save\", [\"Menu\", \"p\"]], [\"Open\", [\"Menu\"]], [\"Save\", [\"Menu\", \"p\"]]]"))]
  workingDirectory := ["work"]

def menuBatch : BatchArguments where
  table := some "lut.json"
  input := "batch.json"
  apply := true

example : (perform {} 0 menuFiles (.batch menuBatch)).stdout =
    "menu.paragraph1\tSave\nmenu.value\tOpen\nmenu.paragraph1\tSave\n" ++
      "\u2713 Saved 3 entries to lut.json\n" := by
  decide +kernel

/-- Applying a batch is applying its entries as single commands, one after another. If the
batch ends well, so does every command; each prints the key that the batch prints for its
entry, and the files in the end are the same, so the same table is loaded from them. The
path of the table must not have the name of a settings file or of a repository, because
saving could change which settings are found. -/
theorem batch_eq_single_commands (environment : Environment) (seed : Nat) (files : FileSystem)
    (a : BatchArguments) (c : Task.Context) (hFiles : files.WellFormed) (hApply : a.apply = true)
    (hContext : ((Task.context a.toTableArguments).run.run { files, seed }).1 = .ok c)
    (hSettings : SettingsFile.fileName ∉ Path.names c.tablePath)
    (hRepository : SettingsFile.repositoryMark ∉ Path.names c.tablePath)
    (hBatch : (perform environment seed files (.batch a)).exitCode = 0) :
    let batch := perform environment seed files (.batch a)
    ∃ text entries keys before after,
      files.read a.input = .ok text ∧ Batch.ofText? text = some entries ∧
      keys.length = entries.length ∧
      ((TableFile.load c.tablePath).run.run { files }).1 = .ok before ∧
      batch.stdout = Batch.reportText keys entries ++
        Console.rendered environment.colored (Task.savedNotice c.tablePath before after) ∧
      (performAll environment seed files (entries.map a.command)).map
        (fun ended => (ended.exitCode, ended.stdout)) = keys.map (fun key => (0, key ++ "\n")) ∧
      filesAfter environment seed files (entries.map a.command) = batch.files ∧
      ((TableFile.load c.tablePath).run.run { files := batch.files }).1 = .ok after := by
  intro batch
  obtain ⟨hHolds, text, entries, t, keys, after, hRead, hParse, hTable, hKeyed, hUpdates,
    hShown⟩ := exists_of_batch hApply hContext hBatch
  obtain ⟨hAnswers, hLast⟩ := performAll_of_keyed hApply hSettings hRepository hKeyed hFiles
    hHolds hTable hUpdates
  have hAfter := hUpdates.holds hKeyed.grows hTable
  exact ⟨text, entries, keys, t, after, hRead, hParse, hKeyed.length_eq, hTable.load, hShown,
    hAnswers, hLast, hAfter.load⟩

/-- The project of the menu: one text is given twice where another one is stored. -/
theorem menu_batch_eq_single_commands :
    let batch := perform {} 0 menuFiles (.batch menuBatch)
    batch.exitCode = 0 ∧ ∃ text entries keys before after,
      menuFiles.read "batch.json" = .ok text ∧ Batch.ofText? text = some entries ∧
      keys.length = entries.length ∧
      ((TableFile.load "lut.json").run.run { files := menuFiles }).1 = .ok before ∧
      batch.stdout = Batch.reportText keys entries ++
        Console.rendered false (Task.savedNotice "lut.json" before after) ∧
      (performAll {} 0 menuFiles (entries.map menuBatch.command)).map
        (fun ended => (ended.exitCode, ended.stdout)) = keys.map (fun key => (0, key ++ "\n")) ∧
      filesAfter {} 0 menuFiles (entries.map menuBatch.command) = batch.files ∧
      ((TableFile.load "lut.json").run.run { files := batch.files }).1 = .ok after :=
  ⟨by decide +kernel, batch_eq_single_commands {} 0 menuFiles menuBatch
    { settings := {}, tablePath := "lut.json", verbose := false } (by decide +kernel) rfl rfl
    (by decide +kernel) (by decide +kernel) (by decide +kernel)⟩

/-- A batch that was applied and is applied again answers as before and changes no file.
The second run prints the key and the text of every entry, as the first one did, and what
was loaded before the first run is on disk with its texts. The batch must not be read from
the file in which the table is saved. -/
theorem batch_again (environment : Environment) (seed again : Nat) (files : FileSystem)
    (a : BatchArguments) (c : Task.Context) (hFiles : files.WellFormed) (hApply : a.apply = true)
    (hContext : ((Task.context a.toTableArguments).run.run { files, seed }).1 = .ok c)
    (hInput : files.destination a.input ≠ files.destination c.tablePath)
    (hSettings : SettingsFile.fileName ∉ Path.names c.tablePath)
    (hRepository : SettingsFile.repositoryMark ∉ Path.names c.tablePath)
    (hBatch : (perform environment seed files (.batch a)).exitCode = 0) :
    let first := perform environment seed files (.batch a)
    let second := perform environment again first.files (.batch a)
    second.exitCode = 0 ∧ second.files = first.files ∧
    ∃ text entries keys before after,
      files.read a.input = .ok text ∧ Batch.ofText? text = some entries ∧
      keys.length = entries.length ∧
      first.stdout = Batch.reportText keys entries ++
        Console.rendered environment.colored (Task.savedNotice c.tablePath before after) ∧
      second.stdout = Batch.reportText keys entries ∧
      ((TableFile.load c.tablePath).run.run { files }).1 = .ok before ∧
      ((TableFile.load c.tablePath).run.run { files := second.files }).1 = .ok after ∧
      ∀ key text, before.lookup key = some text → after.lookup key = some text := by
  intro first second
  obtain ⟨hHolds, text, entries, t, keys, after, hRead, hParse, hTable, hKeyed, hUpdates,
    hShown⟩ := exists_of_batch hApply hContext hBatch
  have hSame := hHolds.of_updates hFiles hUpdates hSettings hRepository
  have hReadAgain : first.files.read a.input = .ok text :=
    hUpdates.keeps (P := fun files => files.read a.input = .ok text) hRead
      fun _ hStores => hStores.read hFiles hInput hRead
  have hAfter := hUpdates.holds hKeyed.grows hTable
  have hGives : Gives again (Task.attempt (.batch a)) first.files .success first.files
      (Batch.report keys entries ++ Task.savedNotice c.tablePath after after) :=
    (Task.gives_batch hApply).mpr ⟨rfl, c, text, entries, after, keys, after, hSame, hReadAgain,
      hParse, hAfter, hKeyed.again (.refl after), .refl _ _ after, rfl⟩
  have hQuiet : Task.savedNotice c.tablePath after after = [] :=
    if_neg (Nat.lt_irrefl after.size)
  obtain ⟨hCode, hLeft, hAgain⟩ := perform_of_gives environment hGives
  rw [hQuiet, List.append_nil, Batch.rendered_report] at hAgain
  refine ⟨hCode, hLeft, text, entries, keys, t, after, hRead, hParse, hKeyed.length_eq, hShown,
    hAgain, hTable.load, ?_, hKeyed.grows.keeps⟩
  rw [hLeft]
  exact hAfter.load

/-- The batch of the menu answers again from the table that it has saved. -/
theorem menu_batch_again :
    let first := perform {} 0 menuFiles (.batch menuBatch)
    let second := perform {} 1 first.files (.batch menuBatch)
    second.exitCode = 0 ∧ second.files = first.files ∧
    ∃ text entries keys before after,
      menuFiles.read "batch.json" = .ok text ∧ Batch.ofText? text = some entries ∧
      keys.length = entries.length ∧
      first.stdout = Batch.reportText keys entries ++
        Console.rendered false (Task.savedNotice "lut.json" before after) ∧
      second.stdout = Batch.reportText keys entries ∧
      ((TableFile.load "lut.json").run.run { files := menuFiles }).1 = .ok before ∧
      ((TableFile.load "lut.json").run.run { files := second.files }).1 = .ok after ∧
      ∀ key text, before.lookup key = some text → after.lookup key = some text :=
  batch_again {} 0 1 menuFiles menuBatch
    { settings := {}, tablePath := "lut.json", verbose := false } (by decide +kernel) rfl rfl
    (by decide +kernel) (by decide +kernel) (by decide +kernel) (by decide +kernel)

end Invocation
end LocaleKeys
