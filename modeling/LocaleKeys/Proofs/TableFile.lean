import LocaleKeys.Proofs.Program
import LocaleKeys.Proofs.Reading
import LocaleKeys.Proofs.Strictness
import LocaleKeys.TableFile

/-! Saved tables. A table is written as one group of texts, and reading it back
gives the same table, whatever its keys and texts are made of. -/
namespace LocaleKeys

namespace Table

theorem textTree_toJson (t : Table) : Json.TextTree (fun _ => True) t.toJson := by
  refine .group ?_ (fun _ _ => trivial) ?_
  · rw [List.map_map]
    exact t.keys_nodup
  · intro member hMember
    obtain ⟨entry, -, rfl⟩ := List.mem_map.mp hMember
    exact .text entry.2

theorem nesting_toJson (t : Table) : Json.nesting t.toJson ≤ 1 := by
  have hMembers (entries : List (String × String)) :
      Json.nestingOfMembers (entries.map fun entry => (entry.1, .string entry.2)) = 0 := by
    induction entries with
    | nil => rfl
    | cons entry rest ih => simp [Json.nestingOfMembers, Json.nesting, ih]
  rw [toJson, Json.nesting, hMembers]

end Table

namespace Tree

theorem leavesOfMembers_texts (entries : List (String × String)) :
    leavesOfMembers "" (entries.map fun entry => (entry.1, .string entry.2)) =
      entries.map fun entry => (entry.1, .string entry.2) := by
  induction entries with
  | nil => rfl
  | cons entry rest ih => simp [leavesOfMembers, leavesUnder, under, ih]

/-- A table is what its object of texts flattens to. -/
theorem flatten?_toJson (t : Table) : flatten? t.toJson = .ok t := by
  have hLeaves : leaves t.toJson = t.entries.map fun entry => (entry.1, .string entry.2) :=
    leavesOfMembers_texts t.entries
  exact flatten?_eq_ok_iff.mpr (List.Perm.of_eq hLeaves)

end Tree

namespace TableFile

open FileSystem (Stores)
open Program (Gives effect)

/-- A text holds a table when its value is an object that is flattened without loss. -/
theorem parse_eq_ok_iff {path text : String} {t : Table} : parse path text = .ok t ↔
    ∃ value, Json.ofText? text = some value ∧ value.isObject = true ∧
      Tree.flatten? value = .ok t := by
  rw [parse]
  cases Json.ofText? text with
  | none => simp
  | some value =>
      by_cases hObject : value.isObject = true
      · cases hFlat : Tree.flatten? value <;> simp [hObject, hFlat, Except.mapError]
      · simp [hObject]

/-- The text of a saved table holds the table. -/
theorem parse_textOf (path : String) (t : Table) : parse path (textOf t.toJson) = .ok t := by
  have hRead : Json.ofText? (textOf t.toJson) = some t.toJson :=
    t.textTree_toJson.ofText?_prettyText (t.nesting_toJson.trans (by decide)) (by decide)
  exact parse_eq_ok_iff.mpr ⟨t.toJson, hRead, rfl, Tree.flatten?_toJson t⟩

/-- The table that is loaded from a path: none that is there stands for the empty one. -/
def Holds (files : FileSystem) (path : String) (t : Table) : Prop :=
  if files.isPresent path then ∃ text, files.read path = .ok text ∧ parse path text = .ok t
  else t = .empty

variable {seed : Nat} {files later : FileSystem} {path : String} {t : Table}
  {lines : List Console.Line}

theorem gives_load : Gives seed (load path) files t later lines ↔
    Holds files path t ∧ files = later ∧ lines = [] := by
  rw [load]
  by_cases hPresent : files.isPresent path = true
  · simp [Holds, hPresent]
    grind
  · simp [Holds, hPresent]
    grind

theorem gives_write {value : Json} {result : Unit} :
    Gives seed (write path value) files result later lines ↔
      Stores files path (textOf value) later ∧ lines = [] := by
  rw [write]
  by_cases hDirectory : (Path.parent? path).getD "" = ""
  · simp [hDirectory, Stores, FileSystem.prepare]
  · simp [hDirectory, Stores, FileSystem.prepare]
    grind

theorem gives_save {result : Unit} : Gives seed (save path t) files result later lines ↔
    Stores files path (textOf t.toJson) later ∧ lines = [] :=
  gives_write

/-- What a stored text holds is what is loaded. -/
theorem Holds.of_parse {text : String} (h : Stores files path text later)
    (hParse : parse path text = .ok t) : Holds later path t := by
  have hFound := h.find?
  have hPresent : later.isPresent path = true := by simp [FileSystem.isPresent, hFound]
  rw [Holds, if_pos hPresent]
  exact ⟨text, FileSystem.read_eq_ok_iff.mpr hFound, hParse⟩

/-- What was saved is what is loaded. -/
theorem Holds.of_stores (h : Stores files path (textOf t.toJson) later) : Holds later path t :=
  .of_parse h (parse_textOf path t)

/-- A program that loads the table gets what the file holds. -/
theorem Holds.load (h : Holds files path t) :
    ((TableFile.load path).run.run { files }).1 = .ok t := by
  have hGives : Gives 0 (TableFile.load path) files t files [] := gives_load.mpr ⟨h, rfl, rfl⟩
  exact (Program.run_of_gives (w := { files }) hGives).1

/-- Saving a table and loading it is the identity. The text that is written holds the
table, and once it was written, to whatever files, the path gives the table again and
loading it changes no file. -/
theorem load_after_save (path : String) (t : Table) : parse path (textOf t.toJson) = .ok t ∧
    ∀ w : Program.World, ((save path t).run.run w).1 = .ok () →
      let saved := ((save path t).run.run w).2
      ((load path).run.run saved).1 = .ok t ∧
        ((load path).run.run saved).2.files = saved.files := by
  refine ⟨parse_textOf path t, fun w hSaved => ?_⟩
  obtain ⟨lines, hGives⟩ := Program.gives_of_run hSaved
  have hHolds := Holds.of_stores (gives_save.mp hGives).1
  exact Program.run_of_gives (gives_load.mpr ⟨hHolds, rfl, rfl⟩)

/-- Empty and overlapping keys, dots, quotes, backslashes and controls come back from a
file whose directory was not there before. -/
theorem odd_texts_are_loaded :
    let t := Table.ofList [("", "empty"), ("..", "\"a\\b\""), ("a", "\x07\n"), ("a.b", "\u00e9")]
    let saved := ((save "new/table.json" t).run.run { files := {} }).2
    ((load "new/table.json").run.run saved).1 = .ok t ∧
      ((load "new/table.json").run.run saved).2.files = saved.files :=
  (load_after_save "new/table.json" _).2 { files := {} } (by decide +kernel)

end TableFile
end LocaleKeys
