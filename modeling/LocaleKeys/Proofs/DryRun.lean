import LocaleKeys.Proofs.Exporting
import LocaleKeys.Proofs.Looking

/-! Runs that change no file. A run that does not succeed leaves every file as it was, and
one that is only asked for an answer leaves everything so. A run that succeeds has changed
one file at most, and its answers are those that it gives without saving. -/
namespace LocaleKeys.Invocation

open FileSystem (KeepsFiles KeepsFilesBut)
open Program (Gives)

variable {environment : Environment} {seed : Nat} {files : FileSystem} {command : Command}

theorem keepsFiles_of_failed (h : (perform environment seed files command).exitCode ≠ 0) :
    KeepsFiles files (perform environment seed files command).files := by
  have hKept := Task.keepsFiles_attempt command seed files
  rw [perform_eq_effect.1, effect_perform] at h
  rw [perform_eq_effect.2.1, effect_perform]
  refine hKept fun hDone => h ?_
  simp only [hDone]
  rfl

theorem files_of_isDry (h : command.isDry = true) :
    (perform environment seed files command).files = files := by
  rw [perform_eq_effect.2.1, effect_perform]
  exact Task.onlyLooks_attempt h seed files

/-- A run changes what its success would change, or nothing. -/
theorem keepsFilesBut_of_success {there : Location → Prop}
    (h : (perform environment seed files command).exitCode = 0 →
      KeepsFilesBut there files (perform environment seed files command).files) :
    KeepsFilesBut there files (perform environment seed files command).files := by
  by_cases hCode : (perform environment seed files command).exitCode = 0
  · exact h hCode
  · exact (keepsFiles_of_failed hCode).mono fun _ => False.elim

/-- Saving a table, if that was asked for, changes no other file. -/
theorem keepsFilesBut_of_updates {apply : Bool} {path : String} {before after : Table}
    {later : FileSystem}
    (h : if apply then TableFile.Updates files path before after later else later = files) :
    KeepsFilesBut (· = files.destination path) files later := by
  split at h
  · exact h.keeps (P := KeepsFilesBut (· = files.destination path) files) (.refl _ files)
      fun _ hStores => hStores.keepsFilesBut
  · rw [h]
    exact .refl _ files

section

variable {c : Task.Context}

theorem keepsFilesBut_key (a : KeyArguments)
    (hContext : ((Task.context a.toTableArguments).run.run { files, seed }).1 = .ok c) :
    KeepsFilesBut (· = files.destination c.tablePath) files
      (perform environment seed files (.key a)).files := by
  refine keepsFilesBut_of_success fun hCode => ?_
  obtain ⟨lines, hGives, -⟩ := gives_of_perform hCode
  obtain ⟨-, found, t, outcome, hFound, -, -, hLater, -⟩ := Task.gives_key_iff.mp hGives
  obtain rfl := hFound.eq_of_run hContext
  exact keepsFilesBut_of_updates hLater

theorem keepsFilesBut_batch (a : BatchArguments)
    (hContext : ((Task.context a.toTableArguments).run.run { files, seed }).1 = .ok c) :
    KeepsFilesBut (· = files.destination c.tablePath) files
      (perform environment seed files (.batch a)).files := by
  refine keepsFilesBut_of_success fun hCode => ?_
  obtain ⟨lines, hGives, -⟩ := gives_of_perform hCode
  obtain ⟨-, found, text, entries, t, keys, after, hFound, -, -, -, -, hLater, -⟩ :=
    Task.gives_batch_iff.mp hGives
  obtain rfl := hFound.eq_of_run hContext
  exact keepsFilesBut_of_updates hLater

end

theorem keepsFilesBut_exportTree (a : ExportArguments) {output : String}
    (hOutput : a.output = some output) :
    KeepsFilesBut (· = files.destination output) files
      (perform environment seed files (.exportTree a)).files := by
  refine keepsFilesBut_of_success fun hCode => ?_
  obtain ⟨lines, hGives, -⟩ := gives_of_perform hCode
  obtain ⟨-, c, t, -, -, hStored⟩ := Task.gives_exportTree.mp hGives
  rw [hOutput] at hStored
  exact hStored.1.keepsFilesBut

/-- A text that is given its key and saved is given the same key without saving. -/
theorem key_stdout (a : KeyArguments)
    (hApplied : (perform environment seed files (.key { a with apply := true })).exitCode = 0) :
    let dry := perform environment seed files (.key { a with apply := false })
    dry.exitCode = 0 ∧
      dry.stdout = (perform environment seed files (.key { a with apply := true })).stdout := by
  intro dry
  obtain ⟨lines, hGives, hShown⟩ := gives_of_perform hApplied
  obtain ⟨-, c, t, outcome, hContext, hTable, hPlace, -, rfl⟩ := Task.gives_key_iff.mp hGives
  have hDry : Gives seed (Task.attempt (.key { a with apply := false })) files .success files
      [Console.plain outcome.key] :=
    Task.gives_key_iff.mpr ⟨rfl, c, t, outcome, hContext, hTable, hPlace, rfl, rfl⟩
  obtain ⟨hCode, -, hAnswer⟩ := perform_of_gives environment hDry
  exact ⟨hCode, hAnswer.trans hShown.symm⟩

/-- A batch that is saved is given the same keys without saving. -/
theorem batch_stdout (a : BatchArguments)
    (hApplied : (perform environment seed files (.batch { a with apply := true })).exitCode = 0) :
    let dry := perform environment seed files (.batch { a with apply := false })
    dry.exitCode = 0 ∧ ∃ text entries keys path before after,
      files.read a.input = .ok text ∧ Batch.ofText? text = some entries ∧
      keys.length = entries.length ∧ dry.stdout = Batch.reportText keys entries ∧
      (perform environment seed files (.batch { a with apply := true })).stdout =
        Batch.reportText keys entries ++
          Console.rendered environment.colored (Task.savedNotice path before after) := by
  intro dry
  obtain ⟨lines, hGives, hShown⟩ := gives_of_perform hApplied
  obtain ⟨-, c, text, entries, t, keys, after, hContext, hRead, hParse, hTable, hKeyed, -, rfl⟩ :=
    Task.gives_batch_iff.mp hGives
  have hDry : Gives seed (Task.attempt (.batch { a with apply := false })) files .success files
      (Batch.report keys entries ++ []) :=
    Task.gives_batch_iff.mpr
      ⟨rfl, c, text, entries, t, keys, after, hContext, hRead, hParse, hTable, hKeyed, rfl, rfl⟩
  obtain ⟨hCode, -, hAnswer⟩ := perform_of_gives environment hDry
  rw [List.append_nil, Batch.rendered_report] at hAnswer
  rw [if_pos rfl, Console.rendered_append, Batch.rendered_report] at hShown
  exact ⟨hCode, text, entries, keys, c.tablePath, t, after, hRead, hParse, hKeyed.length_eq,
    hAnswer, hShown⟩

/-- Runs that fail and runs that save nothing leave every file as it was. Whatever the
command and the files are: when the exit code is not 0, no file is created and none changed;
a command that is only asked for an answer changes nothing; naming texts changes at most the
file of the table, and an export at most the file to which it is written. What is printed
when the keys are saved is what is printed when they are not, and for a batch the notice
behind it that they were. -/
theorem files_after_perform (environment : Environment) (seed : Nat) (files : FileSystem) :
    (∀ command, (perform environment seed files command).exitCode ≠ 0 →
      KeepsFiles files (perform environment seed files command).files) ∧
    (∀ command, command.isDry = true → (perform environment seed files command).files = files) ∧
    (∀ (a : KeyArguments) (c : Task.Context),
      ((Task.context a.toTableArguments).run.run { files, seed }).1 = .ok c →
        KeepsFilesBut (· = files.destination c.tablePath) files
          (perform environment seed files (.key a)).files) ∧
    (∀ (a : BatchArguments) (c : Task.Context),
      ((Task.context a.toTableArguments).run.run { files, seed }).1 = .ok c →
        KeepsFilesBut (· = files.destination c.tablePath) files
          (perform environment seed files (.batch a)).files) ∧
    (∀ (a : ExportArguments) (output : String), a.output = some output →
      KeepsFilesBut (· = files.destination output) files
        (perform environment seed files (.exportTree a)).files) ∧
    (∀ a : KeyArguments,
      let applied := perform environment seed files (.key { a with apply := true })
      let dry := perform environment seed files (.key { a with apply := false })
      applied.exitCode = 0 → dry.exitCode = 0 ∧ dry.stdout = applied.stdout) ∧
    (∀ a : BatchArguments,
      let applied := perform environment seed files (.batch { a with apply := true })
      let dry := perform environment seed files (.batch { a with apply := false })
      applied.exitCode = 0 → dry.exitCode = 0 ∧ ∃ text entries keys path before after,
        files.read a.input = .ok text ∧ Batch.ofText? text = some entries ∧
        keys.length = entries.length ∧ dry.stdout = Batch.reportText keys entries ∧
        applied.stdout = Batch.reportText keys entries ++
          Console.rendered environment.colored (Task.savedNotice path before after)) := by
  refine ⟨fun _ => keepsFiles_of_failed, fun _ => files_of_isDry, ?_, ?_, ?_, ?_, ?_⟩
  · exact fun a c hContext => keepsFilesBut_key a hContext
  · exact fun a c hContext => keepsFilesBut_batch a hContext
  · exact fun a output hOutput => keepsFilesBut_exportTree a hOutput
  · exact fun a hApplied => key_stdout a hApplied
  · exact fun a hApplied => batch_stdout a hApplied

/-- A batch that finds a key for its first entry and none for its second one: the first key
is printed, and neither is saved. -/
theorem half_batch_saves_nothing :
    let files : FileSystem := {
      nodes := [
        (["work"], .directory),
        (["work", ".lutkeyrc.json"], .file (.text "\x7b\"maxIterations\": 1\x7d")),
        (["work", "lut.json"], .file (.text "\x7b\"menu.paragraph\": \"Menu\"\x7d")),
        (["work", "batch.json"],
          .file (.text "[[\"Open\", [\"Title\"]], [\"Save\", [\"Menu\", \"p\"]]]"))]
      workingDirectory := ["work"] }
    let ended := perform {} 0 files (.batch menuBatch)
    ended.exitCode = 2 ∧ ended.stdout = "title\tOpen\n" ∧ KeepsFiles files ended.files := by
  intro files ended
  have hCode : ended.exitCode = 2 := by decide +kernel
  have hFailed : ended.exitCode ≠ 0 := by
    rw [hCode]
    decide
  exact ⟨hCode, by decide +kernel, (files_after_perform {} 0 files).1 (.batch menuBatch) hFailed⟩

end LocaleKeys.Invocation
