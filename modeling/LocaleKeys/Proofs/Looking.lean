import LocaleKeys.Proofs.Contents
import LocaleKeys.Proofs.Context

/-! Programs that only look. A program that changes no file may stand in front of any
other: what the second one does to files is what both do. So all that a command may change
is told by the step in which it stores something. -/
namespace LocaleKeys

open FileSystem (KeepsFiles)

/-- The requests that are answered without a change to the files. -/
def Request.Looks : Request → Prop
  | .createDirectories _ | .write _ _ => False
  | _ => True

namespace Program

/-- Whatever a program results in, the result and the files before and after it are
related so. -/
def Leaves {A : Type} (program : Program A) (Q : A → FileSystem → FileSystem → Prop) : Prop :=
  ∀ seed files, Q (effect seed program files).1 files (effect seed program files).2.1

/-- No file and no directory is changed, whatever the result. -/
abbrev OnlyLooks {A : Type} (program : Program A) : Prop :=
  program.Leaves fun _ files later => later = files

variable {A B E F : Type}

section

variable {Q : B → FileSystem → FileSystem → Prop} {program : Program A} {next : A → Program B}

/-- What holds when nothing has changed holds of a program that only looks. So commands that
store nothing fit every description of what a command may do to files. -/
theorem OnlyLooks.leaves {Q : A → FileSystem → FileSystem → Prop} (h : program.OnlyLooks)
    (hQ : ∀ result files, Q result files files) : program.Leaves Q := by
  intro seed files
  rw [h seed files]
  exact hQ _ files

/-- A program that only looks may stand in front of any other, and what the second one does to
the files is what both do. All results on commands are led back to their storing step by
this. -/
theorem OnlyLooks.before (h : program.OnlyLooks) (hNext : ∀ value, (next value).Leaves Q) :
    (program >>= next).Leaves Q := by
  intro seed files
  have hFirst := h seed files
  have hSecond := hNext (effect seed program files).1 seed files
  simp only [effect_bind, hFirst]
  exact hSecond

end

/-- Each single request that is answered without a change only looks. The proofs for steps
below start from this one. -/
theorem onlyLooks_ask (request : Request) (h : request.Looks) : (ask request).OnlyLooks := by
  intro seed files
  cases request with
  | createDirectories path | write path text => cases h
  | _ => rfl

/-! Steps that may fail. -/

section

variable {step : ExceptT E Program A} {next : A → ExceptT E Program B}
  {Q : Except E B → FileSystem → FileSystem → Prop}

/-- A step that only looks may stand in front of any other one. It may also fail, and then the
rest is left out, so the description must allow that nothing is done. -/
theorem OnlyLooks.bind_leaves (h : step.run.OnlyLooks) (hQ : ∀ result files, Q result files files)
    (hNext : ∀ value, (next value).run.Leaves Q) : (step >>= next).run.Leaves Q := by
  rw [run_bind_eq]
  refine h.before fun outcome => ?_
  cases outcome with
  | ok value => exact hNext value
  | error e => exact fun _ files => hQ (.error e) files

theorem OnlyLooks.bind (h : step.run.OnlyLooks) (hNext : ∀ value, (next value).run.OnlyLooks) :
    (step >>= next).run.OnlyLooks :=
  OnlyLooks.bind_leaves h (fun _ _ => rfl) hNext

theorem OnlyLooks.lift {program : Program A} (h : program.OnlyLooks) :
    (liftM program : ExceptT E Program A).run.OnlyLooks :=
  h.before fun _ _ _ => rfl

theorem OnlyLooks.attempt {program : Program (Except E A)} (h : program.OnlyLooks)
    (wrap : E → F) : (attempt program wrap).run.OnlyLooks :=
  h.before fun _ _ _ => rfl

/-- A step for each item of a list, as when all overlaps or events are told: it only looks if
the step does for every item. -/
theorem onlyLooks_forM {step : A → ExceptT E Program PUnit} (items : List A)
    (h : ∀ item, (step item).run.OnlyLooks) : (forM items step).run.OnlyLooks := by
  induction items with
  | nil => exact fun _ _ => rfl
  | cons item rest ih =>
      rw [List.forM_cons]
      exact (h item).bind fun _ => ih

end

end Program

open Program (OnlyLooks onlyLooks_ask onlyLooks_forM)

namespace SettingsFile

/-- Settings are found and read without a change, whether there are any, and whether they are
read or refused. -/
theorem onlyLooks_load (directory : String) : (load directory).run.OnlyLooks := by
  have hFind : (find directory).OnlyLooks := fun seed files => by simp [find, effect_findIn]
  rw [load]
  refine hFind.lift.bind fun found => ?_
  cases found with
  | none => exact fun _ _ => rfl
  | some path =>
      refine ((onlyLooks_ask (.read path) trivial).attempt _).bind fun text => ?_
      exact OnlyLooks.bind (fun _ _ => rfl) fun settings _ _ => rfl

end SettingsFile

namespace TableFile

/-- A table is read without a change. A file that is missing is an empty table, and it is not
created by being looked for. -/
theorem onlyLooks_load (path : String) : (load path).run.OnlyLooks := by
  rw [load]
  refine (onlyLooks_ask (.isPresent path) trivial).lift.bind fun present => ?_
  cases present with
  | false => exact fun _ _ => rfl
  | true =>
      refine ((onlyLooks_ask (.read path) trivial).attempt _).bind fun text => ?_
      exact OnlyLooks.bind (fun _ _ => rfl) fun t _ _ => rfl

end TableFile

namespace Task

variable {E A : Type}

theorem onlyLooks_within {step : ExceptT E Program A} (h : step.run.OnlyLooks)
    (wrap : E → Failure) : (within wrap step).run.OnlyLooks :=
  h.attempt wrap

/-- Every command starts with its context, so nothing changes before a command's own steps. -/
theorem onlyLooks_context (arguments : TableArguments) : (context arguments).run.OnlyLooks := by
  rw [context]
  refine (onlyLooks_ask .workingDirectory trivial).lift.bind fun directory => ?_
  refine (onlyLooks_within (SettingsFile.onlyLooks_load directory) _).bind ?_
  rintro ⟨settings, file⟩
  dsimp only
  split
  · exact fun _ _ => rfl
  · exact fun _ _ => rfl

theorem onlyLooks_loadTable (c : Context) : (loadTable c).run.OnlyLooks :=
  onlyLooks_within (TableFile.onlyLooks_load c.tablePath) _

theorem onlyLooks_loadNamer (c : Context) : (loadNamer c).run.OnlyLooks := by
  rw [loadNamer]
  refine (onlyLooks_loadTable c).bind fun t => ?_
  dsimp only
  split
  · exact fun _ _ => rfl
  · exact fun _ _ => rfl

/-- A key is found in memory. Its events are logged, and no file is touched before the table
is saved. -/
theorem onlyLooks_request (n : Namer) (text : String) (labels : List String) (suffix : String) :
    (request n text labels suffix).run.OnlyLooks := by
  rw [request]
  refine (onlyLooks_forM _ fun event => (onlyLooks_ask (.tell _) trivial).lift).bind fun _ => ?_
  split <;> exact fun _ _ => rfl

/-- The entries of a batch are named one after another, and the keys are shown as they are
found; a failure at any entry leaves the files as they were. -/
theorem onlyLooks_nameEntries (settings : Settings) (index : Nat) (entries : List Batch.Entry)
    (n : Namer) : (nameEntries settings index entries n).run.OnlyLooks := by
  induction entries generalizing index n with
  | nil => exact fun _ _ => rfl
  | cons entry rest ih =>
      rw [nameEntries]
      refine (onlyLooks_within (onlyLooks_request n _ _ _) _).bind ?_
      rintro ⟨key, next⟩
      exact (onlyLooks_ask (.tell _) trivial).lift.bind fun _ => ih (index + 1) next

theorem onlyLooks_loadBatch (path : String) : (loadBatch path).run.OnlyLooks := by
  rw [loadBatch]
  refine ((onlyLooks_ask (.read path) trivial).attempt _).bind fun text => ?_
  split <;> exact fun _ _ => rfl

/-- A check only reports, whether it finds overlaps or not. -/
theorem onlyLooks_check (arguments : TableArguments) : (check arguments).run.OnlyLooks := by
  rw [check]
  refine (onlyLooks_context arguments).bind fun c => (onlyLooks_loadTable c).bind fun t => ?_
  split
  · exact fun _ _ => rfl
  · refine (onlyLooks_forM _ fun pair => (onlyLooks_ask (.tell _) trivial).lift).bind fun _ => ?_
    exact fun _ _ => rfl

end Task

/-! Steps that store something. -/

namespace Program

variable {A B E F : Type}

/-- When the step fails no file has changed. -/
def FailsCleanly (step : ExceptT E Program A) : Prop :=
  step.run.Leaves fun result files later => ∀ e, result = .error e → KeepsFiles files later

/-- Whatever the files, the step succeeds with this value. -/
def Yields (step : ExceptT E Program A) (value : A) : Prop :=
  ∀ seed files, (effect seed step.run files).1 = .ok value

section

variable {step : ExceptT E Program A} {next : A → ExceptT E Program B}

/-- A step that keeps the files, even if it creates directories, may stand in front of a step
that fails cleanly. -/
theorem FailsCleanly.of_kept (h : step.run.Leaves fun _ => KeepsFiles)
    (hNext : ∀ value, FailsCleanly (next value)) : FailsCleanly (step >>= next) := by
  intro seed files e hError
  have hKept := h seed files
  simp only [run_bind_eq, effect_bind] at hError ⊢
  generalize effect seed step.run files = ended at hKept hError ⊢
  obtain ⟨outcome, middle, lines⟩ := ended
  cases outcome with
  | error cause => exact hKept
  | ok value => exact hKept.trans (hNext value seed middle e hError)

/-- What cannot fail may stand behind a step that fails cleanly: when the two end in any other
way than with the last value, the step has failed and no file has changed. -/
theorem FailsCleanly.bind_yields (h : FailsCleanly step) (last : B)
    (hNext : ∀ value, Yields (next value) last) :
    (step >>= next).run.Leaves fun result files later =>
      result ≠ .ok last → KeepsFiles files later := by
  intro seed files hLast
  have hKept := h seed files
  simp only [run_bind_eq, effect_bind] at hLast ⊢
  generalize effect seed step.run files = ended at hKept hLast ⊢
  obtain ⟨outcome, middle, lines⟩ := ended
  cases outcome with
  | error e => exact hKept e rfl
  | ok value => exact absurd (hNext value seed middle) hLast

end

/-- Wrapping a failure leaves open what was done before it, so a step still fails cleanly. -/
theorem FailsCleanly.attempt {program : Program (Except E A)}
    (h : FailsCleanly (ExceptT.mk program)) (wrap : E → F) :
    FailsCleanly (attempt program wrap) := by
  intro seed files e hError
  have hKept := h seed files
  have hRun : (Program.attempt program wrap).run =
      program >>= fun value => pure (value.mapError wrap) := rfl
  simp only [hRun, effect_bind, effect_pure] at hError ⊢
  simp only [ExceptT.run_mk] at hKept
  generalize effect seed program files = ended at hKept hError ⊢
  obtain ⟨outcome, middle, lines⟩ := ended
  cases outcome with
  | error cause => exact hKept cause rfl
  | ok value => cases hError

/-- A file is written as a whole or not at all. -/
theorem failsCleanly_write (path text : String) : FailsCleanly (ExceptT.mk (write path text)) := by
  intro seed files e hError
  rw [ExceptT.run_mk, effect_write] at hError ⊢
  cases hWrite : files.write path text with
  | ok later => simp [hWrite] at hError
  | error cause => exact .refl _ files

end Program

namespace TableFile

open Program (FailsCleanly)

/-- A table or a tree is written with the directories that lead to it. Directories may be left
behind by a failure, but no file is. -/
theorem failsCleanly_write (path : String) (value : Json) : FailsCleanly (write path value) := by
  have hWrite := (Program.failsCleanly_write path (textOf value)).attempt (Failure.unwritable path)
  have hWritten : FailsCleanly (Program.attempt (Program.write path (textOf value))
      (Failure.unwritable path) >>= fun _ => liftM (Program.log (.fileWritten path))) :=
    fun seed files e hError =>
      hWrite.bind_yields () (fun _ _ _ => rfl) seed files fun hDone => by
        cases hError.symm.trans hDone
  rw [write]
  dsimp only
  split
  · refine FailsCleanly.of_kept (fun seed files => ?_) fun _ => hWritten
    exact FileSystem.keepsFiles_createDirectories files _
  · exact hWritten

end TableFile

namespace Task

open Program (FailsCleanly Yields)

/-! A command that may store something does to files what that step does. -/

variable {Q : Except Failure ExitStatus → FileSystem → FileSystem → Prop}

/-- What the key of one text may do to files is nothing, or what saving the table does. What
stands behind the saving step is only known to end well. -/
theorem leaves_key {a : KeyArguments} (hQ : ∀ result files, Q result files files)
    (hSave : a.apply = true → ∀ c n (rest : Attempt ExitStatus), Yields rest .success →
      (saveTable c n >>= fun _ => rest).run.Leaves Q) :
    (key a).run.Leaves Q := by
  rw [key]
  refine (onlyLooks_context _).bind_leaves hQ fun c => ?_
  refine (onlyLooks_loadNamer c).bind_leaves hQ fun n => ?_
  refine (onlyLooks_within (onlyLooks_request n _ _ _) _).bind_leaves hQ ?_
  rintro ⟨key, next⟩
  refine (onlyLooks_ask (.tell _) trivial).lift.bind_leaves hQ fun _ => ?_
  dsimp only
  split
  · split
    next hApply => exact hSave hApply c next _ fun _ _ => rfl
    next => exact fun _ files => hQ (.ok .success) files
  · exact fun _ files => hQ (.ok .success) files

/-- What a batch may do to files is nothing, or what saving the table does once behind all
entries. A failed entry ends the batch before that step. -/
theorem leaves_batch {a : BatchArguments} (hQ : ∀ result files, Q result files files)
    (hSave : a.apply = true → ∀ c n (rest : Attempt ExitStatus), Yields rest .success →
      (saveTable c n >>= fun _ => rest).run.Leaves Q) :
    (batch a).run.Leaves Q := by
  rw [batch]
  refine (onlyLooks_context _).bind_leaves hQ fun c => ?_
  refine (onlyLooks_loadBatch _).bind_leaves hQ fun entries => ?_
  refine (onlyLooks_loadNamer c).bind_leaves hQ fun n => ?_
  refine (onlyLooks_nameEntries _ _ _ _).bind_leaves hQ fun next => ?_
  -- The end of a batch, which stands behind the summary or alone.
  have hEnd (count : Nat) (line : Console.Line) :
      (if count > 0 then
        if a.apply = true then saveTable c next >>= fun _ =>
          liftM (Program.out line) >>= fun _ => pure .success
        else reportDryRun count >>= fun _ => pure .success
      else pure .success : Attempt ExitStatus).run.Leaves Q := by
    split
    · split
      next hApply => exact hSave hApply c next _ fun _ _ => rfl
      next => exact fun _ files => hQ (.ok .success) files
    · exact fun _ files => hQ (.ok .success) files
  dsimp only
  split
  · exact fun _ files => hQ (.ok .success) files
  · split
    · exact (onlyLooks_ask (.tell _) trivial).lift.bind_leaves hQ fun _ => hEnd _ _
    · exact hEnd _ _

/-- What an export may do to files is nothing, or what writing the tree to the path of the
output does. The table itself is only read. -/
theorem leaves_exportTree {a : ExportArguments} (hQ : ∀ result files, Q result files files)
    (hStore : ∀ path tree (rest : Attempt ExitStatus), a.output = some path →
      Yields rest .success →
        (within .table (TableFile.write path tree) >>= fun _ => rest).run.Leaves Q) :
    (exportTree a).run.Leaves Q := by
  rw [exportTree]
  refine (onlyLooks_context _).bind_leaves hQ fun c => ?_
  refine (onlyLooks_loadTable c).bind_leaves hQ fun t => ?_
  -- Whatever is done with the tree, making it only looks.
  have hTree (rest : Json → Attempt ExitStatus) (hRest : ∀ tree, (rest tree).run.Leaves Q) :
      (if a.pseudo = true then liftM Program.seed >>= fun seed =>
          pure (Tree.ofTable .texts (t.pseudo (.ofSeed seed))) >>= rest
        else pure (Tree.ofTable (if a.values then .texts else .keys) t) >>= rest).run.Leaves Q := by
    split
    · refine (onlyLooks_ask .seed trivial).lift.bind_leaves hQ fun seed => ?_
      rw [pure_bind]
      exact hRest _
    · rw [pure_bind]
      exact hRest _
  refine hTree _ fun tree => ?_
  refine (onlyLooks_forM _ fun clash =>
    (onlyLooks_ask (.tell _) trivial).lift).bind_leaves hQ fun _ => ?_
  cases hOutput : a.output with
  | some path => exact hStore path tree _ hOutput fun _ _ => rfl
  | none => exact fun _ files => hQ (.ok .success) files

/-- Unless it succeeds a command creates no file and changes none. Each command has one step
that stores something, which fails cleanly, and only steps that look before it. -/
theorem keepsFiles_attempt (command : Command) : (attempt command).run.Leaves
    fun result files later => result ≠ .ok .success → KeepsFiles files later := by
  have hQ (result : Except Failure ExitStatus) (files : FileSystem) :
      result ≠ .ok .success → KeepsFiles files files := fun _ => .refl _ files
  have hWrite (path : String) (value : Json) {rest : Attempt ExitStatus}
      (hRest : Yields rest ExitStatus.success) :=
    ((TableFile.failsCleanly_write path value).attempt Failure.table).bind_yields
      ExitStatus.success fun _ => hRest
  cases command with
  | init =>
      refine (onlyLooks_ask (.isPresent _) trivial).lift.bind_leaves hQ fun present => ?_
      cases present with
      | true => exact fun _ files _ => .refl _ files
      | false =>
          exact ((Program.failsCleanly_write _ _).attempt _).bind_yields ExitStatus.success
            fun _ _ _ => rfl
  | key a => exact leaves_key hQ fun _ c n rest hRest => hWrite c.tablePath n.table.toJson hRest
  | batch a => exact leaves_batch hQ fun _ c n rest hRest => hWrite c.tablePath n.table.toJson hRest
  | exportTree a => exact leaves_exportTree hQ fun path tree rest _ hRest => hWrite path tree hRest
  | check arguments => exact (onlyLooks_check arguments).leaves hQ

end Task

/-- Whether a command is only asked for an answer. -/
def Command.isDry : Command → Bool
  | .init => false
  | .key a => !a.apply
  | .batch a => !a.apply
  | .exportTree a => a.output.isNone
  | .check _ => true

/-- A command that is only asked for an answer changes nothing at all. -/
theorem Task.onlyLooks_attempt {command : Command} (h : command.isDry = true) :
    (attempt command).run.OnlyLooks := by
  cases command with
  | init => cases h
  | key a =>
      exact leaves_key (fun _ _ => rfl) fun hApply => by simp [Command.isDry, hApply] at h
  | batch a =>
      exact leaves_batch (fun _ _ => rfl) fun hApply => by simp [Command.isDry, hApply] at h
  | exportTree a =>
      exact leaves_exportTree (fun _ _ => rfl) fun path tree rest hOutput => by
        simp [Command.isDry, hOutput] at h
  | check arguments => exact onlyLooks_check arguments

end LocaleKeys
