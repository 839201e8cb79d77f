import LocaleKeys.Proofs.Depth
import LocaleKeys.Proofs.Nesting
import LocaleKeys.Proofs.Runs

/-! Exported trees as files of tables. A table whose keys are made of segments and do not
overlap is loaded from the file to which its tree was exported. No key may have more
segments than a value may have groups open at once; that is all that the text of a tree
can lose. -/
namespace LocaleKeys

open FileSystem (Stores)
open Program (Gives)

namespace Tree

variable {t : Table}

/-- The leaves of a groupable table's tree are its entries. -/
theorem leaves_of_groupable (h : t.Groupable) : (leaves (ofTable .texts t)).Perm
    (t.entries.map fun entry => (entry.1, .string entry.2)) := by
  have hLeaves := (endings_perm .texts h.apart).map fun ending => (dotted ending.1, ending.2)
  rw [← leaves_eq, List.map_map] at hLeaves
  refine hLeaves.trans (List.Perm.of_eq (List.map_congr_left fun entry hEntry => ?_))
  have hKey := Table.mem_keys_iff.mpr ⟨entry.2, hEntry⟩
  simp [LeafContent.of, dotted_way_of_spelled (h.spelled entry.1 hKey)]

/-- The tree of a groupable table is flattened without loss. -/
theorem flatten?_of_groupable (h : t.Groupable) : flatten? (ofTable .texts t) = .ok t :=
  flatten?_eq_ok_iff.mpr (leaves_of_groupable h)

end Tree

namespace TableFile

variable {path : String} {t : Table} {named : String → Prop} {value : Json}

/-- The table in the text of a tree of texts is what the tree is flattened to, if the tree
is no deeper than a value may be. -/
theorem parse_textOf_eq_ok_iff (h : Json.TextTree named value) (hObject : value.isObject = true) :
    parse path (textOf value) = .ok t ↔
      Json.nesting value ≤ Json.Document.depthLimit ∧ Tree.flatten? value = .ok t := by
  have hRead (read : Json) : Json.ofText? (textOf value) = some read ↔ _ :=
    h.ofText?_eq_some_iff (by decide)
  simp only [parse_eq_ok_iff, hRead]
  constructor
  · rintro ⟨read, ⟨hDepth, rfl⟩, -, hFlat⟩
    exact ⟨hDepth, hFlat⟩
  · rintro ⟨hDepth, hFlat⟩
    exact ⟨value, ⟨hDepth, rfl⟩, hObject, hFlat⟩

/-- A table of keys of segments that do not overlap is read back from the text of its tree
unless a key has more segments than groups may be open at once. -/
theorem parse_tree_eq_ok_iff (hOverlaps : t.overlaps = [])
    (hWhole : ∀ key ∈ t.keys, Key.Whole key) :
    parse path (textOf (Tree.ofTable .texts t)) = .ok t ↔
      ∀ key ∈ t.keys, (Key.segments key).length ≤ Json.Document.depthLimit := by
  have hTree : Json.TextTree (fun _ => True) (Tree.ofTable .texts t) :=
    Tree.textTree_membersOf fun _ _ _ _ => trivial
  have hFlat := Tree.flatten?_of_groupable (Table.groupable_of_whole hWhole hOverlaps)
  have hWays : (∀ key ∈ t.keys, (Tree.way key).length ≤ Json.Document.depthLimit) ↔
      ∀ key ∈ t.keys, (Key.segments key).length ≤ Json.Document.depthLimit :=
    forall₂_congr fun key hKey => by rw [Tree.way_of_whole (hWhole key hKey)]
  rw [parse_textOf_eq_ok_iff hTree rfl, Tree.nesting_ofTable_le_iff, hWays, hFlat]
  simp [Json.Document.depthLimit]

end TableFile

/-- What an export shows of a table. -/
def ExportArguments.tree (a : ExportArguments) (seed : Nat) (t : Table) : Json :=
  if a.pseudo then Tree.ofTable .texts (t.pseudo (.ofSeed seed))
  else Tree.ofTable (if a.values then .texts else .keys) t

namespace Task

variable {seed : Nat} {files later : FileSystem} {lines : List Console.Line} {c : Context}
  {status : ExitStatus} {t : Table}

theorem gives_loadTable : Gives seed (loadTable c) files t later lines ↔
    TableFile.Holds files c.tablePath t ∧ files = later ∧ lines = [] := by
  rw [loadTable, gives_within, TableFile.gives_load]

/-- The table that is loaded is shown as a tree, or the tree is stored in a file. -/
theorem gives_exportTree {a : ExportArguments} :
    Gives seed (exportTree a) files status later lines ↔
      status = .success ∧ ∃ c t, Context.Holds files a.toTableArguments c ∧
        TableFile.Holds files c.tablePath t ∧
        match a.output with
        | some path => Stores files path (TableFile.textOf (a.tree seed t)) later ∧
            lines = [Console.success ("Exported " ++ toString t.size ++ " entries to " ++ path)]
        | none => files = later ∧ lines = [Console.plain (a.tree seed t).prettyText] := by
  rw [exportTree]
  cases a.output with
  | some path =>
      simp [gives_context, gives_loadTable, gives_forM_log, TableFile.gives_write,
        ExportArguments.tree]
      grind
  | none =>
      simp [gives_context, gives_loadTable, gives_forM_log, ExportArguments.tree]
      grind

end Task

namespace Invocation

/-- An exported tree can be used as a table. The tree of a table whose keys do not overlap,
have no empty segments and have no more segments than a value may have groups open at once
is written as a text that holds the table; once it was written to a file, or a command has
exported it with its texts, the table is what is loaded from there. -/
theorem exported_tree_is_loaded (t : Table) (hOverlaps : t.overlaps = [])
    (hWhole : ∀ key ∈ t.keys, Key.Whole key)
    (hDepth : ∀ key ∈ t.keys, (Key.segments key).length ≤ Json.Document.depthLimit) :
    (∀ path, TableFile.parse path (TableFile.textOf (Tree.ofTable .texts t)) = .ok t) ∧
    (∀ (path : String) (w : Program.World),
      let written := (TableFile.write path (Tree.ofTable .texts t)).run.run w
      written.1 = .ok () → ((TableFile.load path).run.run written.2).1 = .ok t) ∧
    ∀ (environment : Environment) (seed : Nat) (files : FileSystem) (a : ExportArguments)
      (c : Task.Context) (output : String),
      a.values = true → a.pseudo = false → a.output = some output →
      ((Task.context a.toTableArguments).run.run { files, seed }).1 = .ok c →
      ((TableFile.load c.tablePath).run.run { files }).1 = .ok t →
      let exported := perform environment seed files (.exportTree a)
      exported.exitCode = 0 →
        ((TableFile.load output).run.run { files := exported.files }).1 = .ok t := by
  have hParse (path : String) :
      TableFile.parse path (TableFile.textOf (Tree.ofTable .texts t)) = .ok t :=
    (TableFile.parse_tree_eq_ok_iff hOverlaps hWhole).mpr hDepth
  refine ⟨hParse, ?_, ?_⟩
  · intro path w written hWritten
    obtain ⟨lines, hGives⟩ := Program.gives_of_run hWritten
    have hHolds := TableFile.Holds.of_parse (TableFile.gives_write.mp hGives).1 (hParse path)
    exact (Program.run_of_gives (TableFile.gives_load.mpr ⟨hHolds, rfl, rfl⟩)).1
  · intro environment seed files a c output hValues hPseudo hOutput hContext hLoad exported hCode
    obtain ⟨lines, hGives, -⟩ := gives_of_perform hCode
    obtain ⟨-, found, loaded, hFound, hLoaded, hStored⟩ := Task.gives_exportTree.mp hGives
    obtain rfl := hFound.eq_of_run hContext
    obtain rfl : loaded = t := Except.ok.inj (hLoaded.load.symm.trans hLoad)
    have hTree : a.tree seed loaded = Tree.ofTable .texts loaded := by
      simp [ExportArguments.tree, hValues, hPseudo]
    rw [hOutput, hTree] at hStored
    exact (TableFile.Holds.of_parse hStored.1 (hParse output)).load

/-- A project whose table is a nested file, with texts beside groups and a dotted name. -/
def shopFiles : FileSystem where
  nodes := [
    (["work"], .directory),
    (["work", "lut.json"], .file (.text ("\x7b\"title\": \"Shop\"," ++
      " \"menu\": \x7b\"paragraph\": \"Menu\"," ++
        " \"user\": \x7b\"name\": \"Name\", \"role.heading\": \"Role\"\x7d\x7d," ++
      " \"footer\": \x7b\"link\": \"Home\", \"item\": \"Help\"\x7d\x7d")))]
  workingDirectory := ["work"]

/-- The table of the shop. -/
def shopTable : Table := .ofList
  [("title", "Shop"), ("menu.paragraph", "Menu"), ("menu.user.name", "Name"),
    ("menu.user.role.heading", "Role"), ("footer.link", "Home"), ("footer.item", "Help")]

/-- A tree of six texts at four depths is exported to a directory that was not there before,
and its table is loaded from there. -/
theorem exported_shop_is_loaded :
    let a : ExportArguments :=
      { table := some "lut.json", values := true, output := some "trees/shop.json" }
    let exported := perform {} 0 shopFiles (.exportTree a)
    exported.exitCode = 0 ∧
      ((TableFile.load "trees/shop.json").run.run { files := exported.files }).1 =
        .ok shopTable := by
  intro a exported
  have hCode : exported.exitCode = 0 := by decide +kernel
  obtain ⟨-, -, hExport⟩ := exported_tree_is_loaded shopTable
    (by decide +kernel) (by decide +kernel) (by decide +kernel)
  exact ⟨hCode, hExport {} 0 shopFiles a
    { settings := {}, tablePath := "lut.json", verbose := false } "trees/shop.json" rfl rfl rfl rfl
    (by decide +kernel) hCode⟩

end Invocation
end LocaleKeys
