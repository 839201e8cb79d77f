import LocaleKeys.Proofs.Program
import LocaleKeys.Task

/-! The context of a command: the settings that hold for the working directory and the
path of the table. It is read from files alone, and a file that is stored elsewhere
does not change it. -/
namespace LocaleKeys

open FileSystem (Stores)
open Program (Gives effect)

namespace FileSystem

variable {files later : FileSystem} {path text : String}

/-- Storing a text is not seen in the directories above the working directory, under any
name that the path does not have. -/
theorem Stores.find?_join (h : files.WellFormed) (hStores : Stores files path text later)
    {directory : String} (hDirectory : directory ∈ Path.lineage (pathOf files.workingDirectory))
    {name : String} (hName : Path.IsName name) (hOther : name ∉ Path.names path) :
    later.find? (Path.join directory name) = files.find? (Path.join directory name) := by
  obtain ⟨hLater, hChanges⟩ := hStores.changes h
  obtain ⟨hRoot, hAbove⟩ := Path.pieces_of_mem_lineage hDirectory
  have hAbsolute := hRoot (isAbsolute_pathOf _)
  have hSome : directory ≠ "" := by
    rintro rfl
    exact absurd hAbsolute (by decide)
  obtain ⟨front, hPieces, hFront⟩ := Path.exists_pieces_join_eq hSome hName
  refine hChanges.find?_eq h hLater hPieces ?_ hName ?_
  · -- The working directory is written with names only, and so is all that is above it.
    intro hMem
    rcases hAbove ".." (hFront ".." hMem) with hEmpty | hPiece
    · exact absurd hEmpty (by decide)
    · rcases pieces_pathOf h.names hPiece with hEmpty | hListed
      · exact absurd hEmpty (by decide)
      · exact (h.names ".." hListed).notUp rfl
  · rintro ⟨-, above, last, hPlace, hLast⟩
    rw [destination, hPieces, foldl_step_append_name hName] at hPlace
    obtain rfl := List.singleton_inj.mp (List.append_inj' hPlace rfl).2
    exact hOther hLast

end FileSystem

namespace SettingsFile

variable {seed : Nat} {files later : FileSystem} {directory : String} {lines : List Console.Line}
  {loaded : Settings × Option String}

/-- The first settings file in a list of directories, up to a repository's. -/
def foundIn (files : FileSystem) : List String → Option String
  | [] => none
  | directory :: above =>
      if files.isPresent (Path.join directory fileName) then some (Path.join directory fileName)
      else if files.isPresent (Path.join directory repositoryMark) then none
      else foundIn files above

/-- The search for settings looks and prints nothing, and its result is a function of the
files. -/
theorem effect_findIn (directories : List String) :
    effect seed (findIn directories) files = (foundIn files directories, files, []) := by
  induction directories with
  | nil => rfl
  | cons directory above ih =>
      simp only [findIn, foundIn, Program.effect_bind, Program.effect_isPresent]
      by_cases hFile : files.isPresent (Path.join directory fileName) = true
      · simp [hFile]
      · by_cases hMark : files.isPresent (Path.join directory repositoryMark) = true
        · simp [hFile, hMark]
        · simp [hFile, hMark, ih]

theorem mem_of_foundIn {directories : List String} {path : String}
    (h : foundIn files directories = some path) :
    ∃ directory ∈ directories, path = Path.join directory fileName := by
  induction directories with
  | nil => cases h
  | cons directory above ih =>
      rw [foundIn] at h
      split at h
      · exact ⟨directory, by simp, (Option.some.inj h).symm⟩
      · split at h
        · cases h
        · obtain ⟨found, hFound, hPath⟩ := ih h
          exact ⟨found, by simp [hFound], hPath⟩

/-- The search sees no more of the files than the two names in the directories that it goes
through. What is stored elsewhere makes no difference to it. -/
theorem foundIn_congr {directories : List String}
    (hFile : ∀ directory ∈ directories,
      later.find? (Path.join directory fileName) = files.find? (Path.join directory fileName))
    (hMark : ∀ directory ∈ directories, later.find? (Path.join directory repositoryMark) =
      files.find? (Path.join directory repositoryMark)) :
    foundIn later directories = foundIn files directories := by
  induction directories with
  | nil => rfl
  | cons directory above ih =>
      obtain ⟨hFileHere, hFileAbove⟩ := List.forall_mem_cons.mp hFile
      obtain ⟨hMarkHere, hMarkAbove⟩ := List.forall_mem_cons.mp hMark
      have hFilePresent : later.isPresent (Path.join directory fileName) =
          files.isPresent (Path.join directory fileName) := congrArg Option.isSome hFileHere
      have hMarkPresent : later.isPresent (Path.join directory repositoryMark) =
          files.isPresent (Path.join directory repositoryMark) := congrArg Option.isSome hMarkHere
      rw [foundIn, foundIn, hFilePresent, hMarkPresent, ih hFileAbove hMarkAbove]

/-- The settings that hold for a directory, with the file that they come from. -/
def Holds (files : FileSystem) (directory : String) (loaded : Settings × Option String) : Prop :=
  match foundIn files (Path.lineage directory) with
  | none => loaded = ({}, none)
  | some path => ∃ text settings, files.read path = .ok text ∧ parse path text = .ok settings ∧
      loaded = (settings, some path)

/-- Settings are loaded exactly when they hold for the directory: those of the file that is
found, or the default ones if there is none. -/
theorem gives_load : Gives seed (load directory) files loaded later lines ↔
    Holds files directory loaded ∧ files = later ∧ lines = [] := by
  rw [load, Holds]
  cases hFound : foundIn files (Path.lineage directory) with
  | none =>
      simp [find, effect_findIn, hFound]
      grind
  | some path =>
      simp [find, effect_findIn, hFound]
      grind

/-- A file stored under other names leaves the settings as they are. -/
theorem Holds.of_stores {path text : String} (hFiles : files.WellFormed)
    (hStores : Stores files path text later) (hFile : fileName ∉ Path.names path)
    (hMark : repositoryMark ∉ Path.names path)
    (h : Holds files (FileSystem.pathOf files.workingDirectory) loaded) :
    Holds later (FileSystem.pathOf files.workingDirectory) loaded := by
  have hFileSame : ∀ directory ∈ Path.lineage (FileSystem.pathOf files.workingDirectory),
      later.find? (Path.join directory fileName) = files.find? (Path.join directory fileName) :=
    fun directory hDirectory => hStores.find?_join hFiles hDirectory (by decide) hFile
  have hMarkSame : ∀ directory ∈ Path.lineage (FileSystem.pathOf files.workingDirectory),
      later.find? (Path.join directory repositoryMark) =
        files.find? (Path.join directory repositoryMark) :=
    fun directory hDirectory => hStores.find?_join hFiles hDirectory (by decide) hMark
  rw [Holds] at h ⊢
  rw [foundIn_congr hFileSame hMarkSame]
  cases hFound : foundIn files (Path.lineage (FileSystem.pathOf files.workingDirectory)) with
  | none => simpa [hFound] using h
  | some found =>
      rw [hFound] at h
      obtain ⟨text, settings, hRead, hParse, hLoaded⟩ := h
      obtain ⟨directory, hDirectory, rfl⟩ := mem_of_foundIn hFound
      refine ⟨text, settings, ?_, hParse, hLoaded⟩
      rw [FileSystem.read_eq_ok_iff, hFileSame directory hDirectory]
      exact FileSystem.read_eq_ok_iff.mp hRead

end SettingsFile

namespace Task

variable {seed : Nat} {files later : FileSystem} {arguments : TableArguments} {c : Context}
  {lines : List Console.Line}

@[simp] theorem gives_within {E A : Type} (wrap : E → Failure) (step : ExceptT E Program A)
    {result : A} : Gives seed (within wrap step) files result later lines ↔
      Gives seed step files result later lines :=
  Program.gives_attempt step.run wrap

/-- The context of the working directory. -/
def Context.Holds (files : FileSystem) (arguments : TableArguments) (c : Context) : Prop :=
  ∃ loaded, SettingsFile.Holds files (FileSystem.pathOf files.workingDirectory) loaded ∧
    c.settings = loaded.1 ∧ c.verbose = arguments.verbose ∧
    c.tablePath = arguments.table.getD
      (Path.join (FileSystem.pathOf files.workingDirectory) loaded.1.tableFile)

/-- A command works with the context that holds for its arguments. Whether it may tell that
there are no settings makes no difference to the files and the output. -/
theorem gives_context : Gives seed (context arguments) files c later lines ↔
    c.Holds files arguments ∧ files = later ∧ lines = [] := by
  obtain ⟨settings, tablePath, verbose⟩ := c
  rw [context, Context.Holds]
  simp [SettingsFile.gives_load]
  grind

/-- The context that was found is the one that holds. -/
theorem Context.Holds.eq_of_run {found : Context} (h : found.Holds files arguments)
    (hRun : ((context arguments).run.run { files, seed }).1 = .ok c) : found = c := by
  obtain ⟨lines, hGives⟩ := Program.gives_of_run hRun
  exact (gives_context.mpr ⟨h, rfl, rfl⟩).unique hGives

/-- A file stored under other names leaves the context as it is. -/
theorem Context.Holds.of_stores {path text : String} (hFiles : files.WellFormed)
    (hStores : Stores files path text later) (hFile : SettingsFile.fileName ∉ Path.names path)
    (hMark : SettingsFile.repositoryMark ∉ Path.names path) (h : c.Holds files arguments) :
    c.Holds later arguments := by
  obtain ⟨loaded, hLoaded, hContext⟩ := h
  have hDirectory : later.workingDirectory = files.workingDirectory :=
    (hStores.changes hFiles).2.workingDirectory
  refine ⟨loaded, ?_, ?_⟩
  · rw [hDirectory]
    exact hLoaded.of_stores hFiles hStores hFile hMark
  · rw [hDirectory]
    exact hContext

end Task
end LocaleKeys
