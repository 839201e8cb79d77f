import LocaleKeys.Invocation
import LocaleKeys.Proofs.Context
import LocaleKeys.Proofs.Keying
import LocaleKeys.Proofs.TableFile

/-! What the commands that name texts do when they are asked to save. Each of them is
described by when it succeeds, with the files that it leaves and the lines that it
prints. -/
namespace LocaleKeys

open FileSystem (Stores)
open Program (Gives effect)

namespace TableFile

variable {files middle later : FileSystem} {path : String} {a b c t : Table}

/-- A table that has become larger is stored; otherwise no file changes. -/
def Updates (files : FileSystem) (path : String) (before after : Table) (later : FileSystem) :
    Prop :=
  if before.size < after.size then Stores files path (textOf after.toJson) later
  else later = files

namespace Updates

theorem refl (files : FileSystem) (path : String) (t : Table) : Updates files path t t files := by
  rw [Updates, if_neg (Nat.lt_irrefl t.size)]

/-- What storing keeps is kept. -/
theorem keeps {P : FileSystem → Prop} (h : Updates files path a b later) (hFiles : P files)
    (hStores : ∀ text, Stores files path text later → P later) : P later := by
  rw [Updates] at h
  split at h
  · exact hStores _ h
  · exact h ▸ hFiles

/-- A file that held the smaller table holds the larger one afterwards. -/
theorem holds (h : Updates files path a b later) (hGrows : a.Grows b)
    (hHolds : Holds files path a) : Holds later path b := by
  rw [Updates] at h
  split at h
  next => exact .of_stores h
  next hSize =>
    subst h
    rwa [hGrows.eq_of_size_le (Nat.le_of_not_lt hSize)]

/-- A table can be stored on the way to a larger one. -/
theorem through (hFirst : a.Grows b) (hSecond : b.Grows c) (h : Updates files path a c later) :
    ∃ middle, Updates files path a b middle ∧ Updates middle path b c later := by
  by_cases hGrown : a.size < b.size
  · have hStores : Stores files path (textOf c.toJson) later := by
      rwa [Updates, if_pos (Nat.lt_of_lt_of_le hGrown hSecond.size_le)] at h
    obtain ⟨middle, hMiddle, -⟩ := hStores.again (textOf b.toJson)
    obtain ⟨last, hLast, hRest⟩ := hMiddle.again (textOf c.toJson)
    obtain rfl := hStores.unique hLast
    refine ⟨middle, by rwa [Updates, if_pos hGrown], ?_⟩
    by_cases hMore : b.size < c.size
    · rwa [Updates, if_pos hMore]
    · obtain rfl := hSecond.eq_of_size_le (Nat.le_of_not_lt hMore)
      rw [Updates, if_neg hMore]
      exact hStores.unique hMiddle
  · obtain rfl := hFirst.eq_of_size_le (Nat.le_of_not_lt hGrown)
    exact ⟨files, .refl files path b, h⟩

end Updates
end TableFile

/-- The text of a command as an entry. -/
def KeyArguments.entry (a : KeyArguments) : Batch.Entry where
  text := a.text
  path := a.path
  suffix := a.suffix
  file := a.file

@[simp] theorem Settings.table_namerAt (s : Settings) (t : Table) (requests : Nat) :
    (s.namerAt t requests).table = t := rfl

@[simp] theorem Settings.hasRequests_namerAt (s : Settings) (t : Table) (requests : Nat) :
    (s.namerAt t requests).hasRequests = true ↔ 0 < requests := decide_eq_true_iff

/-- The lines that a batch prints for its entries. -/
def Batch.report (keys : List String) (entries : List Entry) : List Console.Line :=
  List.zipWith (fun key entry => Console.plain (key ++ "\t" ++ entry.text)) keys entries

namespace Task

open TableFile (Updates)

variable {seed : Nat} {files later : FileSystem} {lines : List Console.Line} {c : Context}
  {status : ExitStatus}

/-- A table saved under other names leaves the context as it is. -/
theorem Context.Holds.of_updates {arguments : TableArguments} {path : String} {t after : Table}
    (hFiles : files.WellFormed) (hUpdates : Updates files path t after later)
    (hFile : SettingsFile.fileName ∉ Path.names path)
    (hMark : SettingsFile.repositoryMark ∉ Path.names path) (h : c.Holds files arguments) :
    c.Holds later arguments :=
  hUpdates.keeps (P := fun files => c.Holds files arguments) h
    fun _ hStores => h.of_stores hFiles hStores hFile hMark

theorem gives_loadNamer {n : Namer} : Gives seed (loadNamer c) files n later lines ↔
    (∃ t, TableFile.Holds files c.tablePath t ∧ c.settings.namerAt t 0 = n) ∧
      files = later ∧ lines = [] := by
  have hNamer (t : Table) : c.settings.namer.withTable t = c.settings.namerAt t 0 := rfl
  rw [loadNamer, loadTable]
  simp [TableFile.gives_load, hNamer]
  grind

theorem gives_forM_log {E A : Type} (event : A → Log.Event) (items : List A) {result : PUnit} :
    Gives seed (forM items fun item => (liftM (Program.log (event item)) : ExceptT E Program Unit))
        files result later lines ↔ files = later ∧ lines = [] := by
  induction items with
  | nil => simp
  | cons item rest ih => simp [ih]

/-- A request for an entry is answered by its place in the table. -/
theorem gives_request {s : Settings} {t : Table} {requests : Nat} (entry : Batch.Entry)
    {answer : String × Namer} :
    Gives seed (request (s.namerAt t requests) entry.text (s.context entry.file entry.path)
        entry.suffix) files answer later lines ↔
      (∃ outcome, s.place t entry = .ok outcome ∧
        (outcome.key, s.namerAt (t.after entry.text outcome) (requests + 1)) = answer) ∧
        files = later ∧ lines = [] := by
  rw [request, s.name_namerAt]
  cases s.place t entry with
  | ok outcome => simp [gives_forM_log fun event => event, and_comm]
  | error e => simp [gives_forM_log fun event => event]

/-- A text is given its key in the table that is loaded. The key is printed, and the table
is saved if that was asked for and the key is new. -/
theorem gives_key_iff {a : KeyArguments} : Gives seed (key a) files status later lines ↔
    status = .success ∧ ∃ c t outcome, Context.Holds files a.toTableArguments c ∧
      TableFile.Holds files c.tablePath t ∧ c.settings.place t a.entry = .ok outcome ∧
      (if a.apply then Updates files c.tablePath t (t.after a.text outcome) later
        else later = files) ∧
      lines = [Console.plain outcome.key] := by
  have hRequest (s : Settings) (t : Table) (answer : String × Namer) (later : FileSystem)
      (lines : List Console.Line) :
      Gives seed (request (s.namerAt t 0) a.text (s.context a.file a.path) a.suffix) files answer
        later lines ↔ _ := gives_request a.entry
  have hText : a.entry.text = a.text := rfl
  rw [key]
  simp [gives_context, gives_loadNamer, hRequest, hText, saveTable, reportDryRun,
    TableFile.gives_save, Updates]
  grind

theorem gives_key {a : KeyArguments} (hApply : a.apply = true) :
    Gives seed (key a) files status later lines ↔
      status = .success ∧ ∃ c t outcome, Context.Holds files a.toTableArguments c ∧
        TableFile.Holds files c.tablePath t ∧ c.settings.place t a.entry = .ok outcome ∧
        Updates files c.tablePath t (t.after a.text outcome) later ∧
        lines = [Console.plain outcome.key] := by
  simp only [gives_key_iff, hApply, if_true]

/-- Naming the entries of a batch is giving them keys one after another; no file changes
before all of them have one. -/
theorem gives_nameEntries {s : Settings} {t : Table} {index requests : Nat}
    {entries : List Batch.Entry} {next : Namer} :
    Gives seed (nameEntries s index entries (s.namerAt t requests)) files next later lines ↔
      (∃ keys after, Batch.Keyed s t entries keys after ∧ Batch.report keys entries = lines ∧
        s.namerAt after (requests + entries.length) = next) ∧ files = later := by
  induction entries generalizing t index requests lines with
  | nil =>
      simp [nameEntries, Batch.keyed_nil_iff, Batch.report]
      grind
  | cons entry rest ih =>
      have hCount : requests + 1 + rest.length = requests + (rest.length + 1) := by omega
      have hReport (key : String) (keys : List String) :
          Batch.report (key :: keys) (entry :: rest) =
            Console.plain (key ++ "\t" ++ entry.text) :: Batch.report keys rest := rfl
      simp [nameEntries, gives_request, ih, Batch.keyed_cons_iff, hCount, hReport]
      grind

theorem gives_loadBatch {path : String} {entries : List Batch.Entry} :
    Gives seed (loadBatch path) files entries later lines ↔
      (∃ text, files.read path = .ok text ∧ Batch.ofText? text = some entries) ∧
        files = later ∧ lines = [] := by
  rw [loadBatch]
  cases hRead : files.read path with
  | error e => simp [hRead]
  | ok text => cases hParse : Batch.ofText? text <;> simp [hRead, hParse]

/-- What a batch says about a table that it has saved. -/
def savedNotice (path : String) (before after : Table) : List Console.Line :=
  if before.size < after.size then
    [Console.success ("Saved " ++ toString after.size ++ " entries to " ++ path)]
  else []

/-- The entries of a batch are given their keys in the table that is loaded. Each key is
printed with its text, and the table is saved once if that was asked for and any key is new. -/
theorem gives_batch_iff {a : BatchArguments} : Gives seed (batch a) files status later lines ↔
    status = .success ∧ ∃ c text entries t keys after, Context.Holds files a.toTableArguments c ∧
      files.read a.input = .ok text ∧ Batch.ofText? text = some entries ∧
      TableFile.Holds files c.tablePath t ∧ Batch.Keyed c.settings t entries keys after ∧
      (if a.apply then Updates files c.tablePath t after later else later = files) ∧
      lines = Batch.report keys entries ++
        if a.apply then savedNotice c.tablePath t after else [] := by
  have hNamer (s : Settings) (t : Table) : (s.namerAt t 0).beginUnit = s.namerAt t 0 := rfl
  -- A table is larger in the end only if there were entries at all.
  have hSome (s : Settings) (t after : Table) (entries : List Batch.Entry) (keys : List String) :
      Batch.Keyed s t entries keys after → t.size < after.size → 0 < entries.length :=
    fun hKeyed => hKeyed.length_pos
  rw [batch]
  cases a.apply with
  | true =>
      simp [gives_context, gives_loadBatch, gives_loadNamer, hNamer, gives_nameEntries, saveTable,
        TableFile.gives_save, Updates, savedNotice]
      grind
  | false =>
      -- Whatever is said about the entries, the end is the same.
      have hEnd (lines : List Console.Line) :
          (ExitStatus.success = status ∧ files = later ∧ lines = []) ↔
            (files = later ∧ lines = [] ∧ ExitStatus.success = status) := by grind
      simp [gives_context, gives_loadBatch, gives_loadNamer, hNamer, gives_nameEntries,
        reportDryRun]
      simp only [hEnd, and_assoc, ite_self]
      grind

theorem gives_batch {a : BatchArguments} (hApply : a.apply = true) :
    Gives seed (batch a) files status later lines ↔
      status = .success ∧ ∃ c text entries t keys after, Context.Holds files a.toTableArguments c ∧
        files.read a.input = .ok text ∧ Batch.ofText? text = some entries ∧
        TableFile.Holds files c.tablePath t ∧ Batch.Keyed c.settings t entries keys after ∧
        Updates files c.tablePath t after later ∧
        lines = Batch.report keys entries ++ savedNotice c.tablePath t after := by
  simp only [gives_batch_iff, hApply, if_true]

end Task
end LocaleKeys
