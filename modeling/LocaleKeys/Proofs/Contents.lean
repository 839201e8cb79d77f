import LocaleKeys.Proofs.Storing

/-! What files hold. New directories change nothing about it: only writing to a path gives a
file another content, and only the file to which the path leads. -/
namespace LocaleKeys.FileSystem

variable {fs middle later : FileSystem} {place : Location} {path text : String}

/-- What the file at a place holds; nothing where there is no file. -/
def content? (fs : FileSystem) (place : Location) : Option Content :=
  match fs.node? place with
  | some (.file content) => some content
  | _ => none

/-- No file is created or given another content, apart from those at certain places. -/
structure KeepsFilesBut (there : Location → Prop) (fs later : FileSystem) : Prop where
  workingDirectory : later.workingDirectory = fs.workingDirectory
  content : ∀ place, ¬ there place → later.content? place = fs.content? place

/-- No file is created or given another content. -/
abbrev KeepsFiles (fs later : FileSystem) : Prop := KeepsFilesBut (fun _ => False) fs later

namespace KeepsFilesBut

variable {there more : Location → Prop}

theorem refl (there : Location → Prop) (fs : FileSystem) : KeepsFilesBut there fs fs :=
  ⟨rfl, fun _ _ => rfl⟩

/-- What each of two steps keeps is kept by both. The changes of a command are put together by
this. -/
theorem trans (hFirst : KeepsFilesBut there fs middle)
    (hSecond : KeepsFilesBut there middle later) : KeepsFilesBut there fs later where
  workingDirectory := hSecond.workingDirectory.trans hFirst.workingDirectory
  content := fun place h => (hSecond.content place h).trans (hFirst.content place h)

theorem mono (h : KeepsFilesBut there fs later) (hMore : ∀ place, there place → more place) :
    KeepsFilesBut more fs later where
  workingDirectory := h.workingDirectory
  content := fun place hNot => h.content place fun hThere => hNot (hMore place hThere)

/-- Where a path leads stays the same, so what is changed can be named by its path. -/
theorem destination (h : KeepsFilesBut there fs later) (path : String) :
    later.destination path = fs.destination path := by
  simp only [FileSystem.destination, start, h.workingDirectory]

end KeepsFilesBut

theorem keepsFiles_put_directory (hNone : fs.node? place = none) :
    KeepsFiles fs (fs.put place .directory) where
  workingDirectory := rfl
  content := by
    intro other _
    have hPlace : fs.node? place ≠ some .directory := by simp [hNone]
    rw [content?, content?, node?_put fs (ne_nil_of_node? hPlace)]
    by_cases hOther : other = place
    · rw [if_pos hOther, hOther, hNone]
    · rw [if_neg hOther]

/-- Directories that are created change no file, even if they are not all created. -/
theorem keepsFiles_createDirectories (fs : FileSystem) (path : String) :
    KeepsFiles fs (fs.createDirectories path).2 := by
  refine makeDirectories_keeps (P := KeepsFiles fs) ?_ (.refl _ fs)
  intro inner _ middle later hKept hMade
  obtain ⟨place, -, hNone, -, -, rfl⟩ := makeDirectory_eq_ok_iff.mp hMade
  exact hKept.trans (keepsFiles_put_directory hNone)

/-- A write that ends well changes the file to which its path leads, and no other one. -/
theorem keepsFilesBut_write (h : fs.write path text = .ok later) :
    KeepsFilesBut (· = fs.destination path) fs later := by
  obtain ⟨-, place, hLocate, hPlace, rfl⟩ := write_eq_ok_iff.mp h
  obtain rfl := eq_destination_of_locate hLocate
  refine ⟨rfl, fun other hOther => ?_⟩
  rw [content?, content?, node?_put fs (ne_nil_of_node? hPlace), if_neg hOther]

theorem keepsFiles_prepare (fs : FileSystem) (path : String) :
    KeepsFiles fs (fs.prepare path).2 := by
  simp only [FileSystem.prepare]
  split
  · exact keepsFiles_createDirectories fs _
  · exact .refl _ fs

/-- Storing a text changes no file but the one to which the path leads. -/
theorem Stores.keepsFilesBut (h : Stores fs path text later) :
    KeepsFilesBut (· = fs.destination path) fs later := by
  obtain ⟨prepared, hPrepared, hWrite⟩ := h
  have hKept := keepsFiles_prepare fs path
  rw [hPrepared] at hKept
  have hWritten := keepsFilesBut_write hWrite
  rw [hKept.destination path] at hWritten
  exact (hKept.mono fun _ => False.elim).trans hWritten

end LocaleKeys.FileSystem
