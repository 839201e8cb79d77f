import LocaleKeys.Proofs.FileSystem
import Mathlib.Data.List.TakeWhile

/-! Storing a text in a file, after the directories that lead to it. The file then
holds the text, the directories are found when another text is stored in it, and
nothing is seen to change but what the path names. -/
namespace LocaleKeys.FileSystem

variable {fs later : FileSystem} {place found : Location} {path text : String}
  {pieces : List String}

/-- A directory is created where nothing is, through a path that does not end with dots. -/
theorem makeDirectory_eq_ok_iff : fs.makeDirectory path = .ok later ↔
    ∃ place, fs.locatePieces path (barePieces path) = .ok place ∧ fs.node? place = none ∧
      (barePieces path).getLast? ≠ some "." ∧ (barePieces path).getLast? ≠ some ".." ∧
      later = fs.put place .directory := by
  simp only [makeDirectory]
  cases hLocate : fs.locatePieces path (barePieces path) with
  | error e => simp
  | ok place =>
      cases hNode : fs.node? place with
      | some node => simp [hNode]
      | none =>
        by_cases hDot : (barePieces path).getLast? = some "."
        · simp [hDot]
        by_cases hUp : (barePieces path).getLast? = some ".."
        · simp [hUp]
        · simp [hDot, hUp, eq_comm, hNode]

/-- What every new directory keeps is kept by making directories, also when it fails. -/
theorem makeDirectories_keeps {P : FileSystem → Prop} {paths : List String}
    (hStep : ∀ path ∈ paths, ∀ fs later,
      P fs → fs.makeDirectory path = .ok later → P later)
    (h : P fs) : P (fs.makeDirectories paths).2 := by
  induction paths generalizing fs with
  | nil => exact h
  | cons path above ih =>
      obtain ⟨hHere, hAbove⟩ := List.forall_mem_cons.mp hStep
      rw [makeDirectories]
      split
      · exact h
      · split
        next later hMade => exact hHere fs later h hMade
        next =>
          have hKept := ih hAbove h
          split
          next e middle hFailed =>
            rw [hFailed] at hKept
            exact hKept
          next middle hMade =>
            rw [hMade] at hKept
            split
            next later hMade => exact hHere middle later hKept hMade
            next => split <;> exact hKept
        next => split <;> exact h

/-- What is left out at the end of a path says nothing. -/
theorem exists_pieces_eq (path : String) :
    ∃ empties, Path.pieces path = barePieces path ++ empties ∧
      ∀ piece ∈ empties, piece = "" := by
  refine ⟨((Path.pieces path).reverse.takeWhile (· = "")).reverse, ?_, fun piece hPiece => ?_⟩
  · rw [barePieces, ← List.reverse_append, List.takeWhile_append_dropWhile, List.reverse_reverse]
  · simpa using List.mem_takeWhile_imp (List.mem_reverse.mp hPiece)

theorem follow_of_idle (hDirectory : fs.node? place = some .directory)
    (hIdle : ∀ piece ∈ pieces, Path.isIdle piece = true) :
    fs.follow place pieces = .ok place := by
  induction pieces with
  | nil => rfl
  | cons piece rest ih =>
      obtain ⟨hFirst, hRest⟩ := List.forall_mem_cons.mp hIdle
      rw [follow_cons_eq_ok_iff, step, if_pos hFirst]
      exact ⟨hDirectory, .inl hFirst, ih hRest⟩

theorem eq_of_follow_of_idle (h : fs.follow place pieces = .ok found)
    (hIdle : ∀ piece ∈ pieces, Path.isIdle piece = true) : found = place := by
  induction pieces generalizing place with
  | nil => simpa [follow] using h.symm
  | cons piece rest ih =>
      obtain ⟨hFirst, hRest⟩ := List.forall_mem_cons.mp hIdle
      have hStep := (follow_cons_eq_ok_iff.mp h).2.2
      rw [step, if_pos hFirst] at hStep
      exact ih hStep hRest

theorem isDirectory_of_makeDirectory (h : fs.makeDirectory path = .ok later) :
    later.isDirectory path = true := by
  obtain ⟨place, hLocate, hNew, -, -, rfl⟩ := makeDirectory_eq_ok_iff.mp h
  have hPlace : fs.node? place ≠ some .directory := by simp [hNew]
  have hMade : (fs.put place .directory).node? place = some .directory := by
    rw [node?_put fs (ne_nil_of_node? hPlace), if_pos rfl]
  obtain ⟨hUsable, hFollow⟩ := locatePieces_eq_ok_iff.mp
    ((changesAt_put hPlace .directory).locatePieces hLocate)
  obtain ⟨empties, hPieces, hEmpty⟩ := exists_pieces_eq path
  rw [isDirectory_iff, find?_eq_some_iff]
  refine ⟨place, locatePieces_eq_ok_iff.mpr ⟨hUsable, ?_⟩, hMade⟩
  rw [hPieces, follow_append_eq_ok_iff]
  refine ⟨place, hFollow, follow_of_idle hMade fun piece hPiece => ?_⟩
  simp [Path.isIdle, hEmpty piece hPiece]

/-- Directories are there once they were made. -/
theorem isDirectory_of_makeDirectories {above : List String} (hPath : path ≠ "")
    (h : fs.makeDirectories (path :: above) = (.ok (), later)) : later.isDirectory path = true := by
  have hTested {middle : FileSystem} {e : Access.Failure}
      (hEnd : ((if middle.isDirectory path then .ok () else .error e : Except Access.Failure Unit),
        middle) = (.ok (), later)) : later.isDirectory path = true := by
    obtain ⟨hOk, rfl⟩ := Prod.mk.inj hEnd
    by_contra hNot
    rw [if_neg hNot] at hOk
    cases hOk
  rw [makeDirectories, if_neg hPath] at h
  split at h
  next middle hMade =>
    obtain ⟨_, rfl⟩ := Prod.mk.inj h
    exact isDirectory_of_makeDirectory hMade
  next =>
    split at h
    · cases (Prod.mk.inj h).1
    · split at h
      next last hMade =>
        obtain ⟨_, rfl⟩ := Prod.mk.inj h
        exact isDirectory_of_makeDirectory hMade
      next => exact hTested h
  next => exact hTested h

/-- A directory that is there is not made once more. -/
theorem makeDirectories_of_isDirectory {above : List String} (h : fs.isDirectory path = true) :
    fs.makeDirectories (path :: above) = (.ok (), fs) := by
  obtain ⟨place, hLocate, hNode⟩ := find?_eq_some_iff.mp (isDirectory_iff.mp h)
  obtain ⟨hUsable, hFollow⟩ := locatePieces_eq_ok_iff.mp hLocate
  obtain ⟨empties, hPieces, hEmpty⟩ := exists_pieces_eq path
  rw [hPieces, follow_append_eq_ok_iff] at hFollow
  obtain ⟨middle, hBare, hRest⟩ := hFollow
  obtain rfl := eq_of_follow_of_idle hRest fun piece hPiece => by
    simp [Path.isIdle, hEmpty piece hPiece]
  have hMade : fs.makeDirectory path = .error .alreadyExists := by
    simp [makeDirectory, locatePieces_eq_ok_iff.mpr ⟨hUsable, hBare⟩, hNode]
  simp [makeDirectories, hUsable.some, hMade, h]

/-- The places that a path may create: nothing is there yet, and the last name is one
of the path. -/
def New (fs : FileSystem) (path : String) (place : Location) : Prop :=
  fs.node? place = none ∧ ∃ above name, place = above ++ [name] ∧ name ∈ Path.names path

theorem New.mono {inner : String} (hNames : ∀ name ∈ Path.names inner, name ∈ Path.names path)
    (h : New fs inner place) : New fs path place :=
  h.imp_right fun ⟨above, name, hPlace, hName⟩ => ⟨above, name, hPlace, hNames name hName⟩

/-- What a path may still create it might have created before. -/
theorem ChangesAt.new_of_new {middle : FileSystem} (h : ChangesAt (New fs path) fs middle)
    (hNew : New middle path place) : New fs path place := by
  refine ⟨?_, hNew.2⟩
  by_contra hSome
  have hSame := h.elsewhere place fun hThere => hSome hThere.1
  exact hSome (hSame.symm.trans hNew.1)

/-- A path that leads to no directory ends with one of its names, in a directory. -/
theorem WellFormed.exists_name_of_locatePieces (h : fs.WellFormed)
    (hPieces : ∀ piece ∈ pieces, piece ∈ Path.pieces path)
    (hLocate : fs.locatePieces path pieces = .ok place)
    (hPlace : fs.node? place ≠ some .directory) :
    fs.node? place.dropLast = some .directory ∧
      ∃ above name, place = above ++ [name] ∧ name ∈ Path.names path := by
  obtain ⟨above, name, rfl, hAbove, hName, hIdle, hUp⟩ :=
    h.exists_name_of_follow (start_isDirectory h path) (locatePieces_eq_ok_iff.mp hLocate).2 hPlace
  rw [List.dropLast_concat]
  exact ⟨hAbove, above, name, rfl, Path.mem_names_iff.mpr ⟨hPieces name hName, hIdle, hUp⟩⟩

theorem WellFormed.makeDirectory (h : fs.WellFormed) (hMade : fs.makeDirectory path = .ok later) :
    later.WellFormed ∧ ChangesAt (New fs path) fs later := by
  obtain ⟨place, hLocate, hNone, -, -, rfl⟩ := makeDirectory_eq_ok_iff.mp hMade
  obtain ⟨empties, hPieces, -⟩ := exists_pieces_eq path
  have hPlace : fs.node? place ≠ some .directory := by simp [hNone]
  obtain ⟨hAbove, hName⟩ := h.exists_name_of_locatePieces
    (fun piece hPiece => by simp [hPieces, hPiece]) hLocate hPlace
  refine ⟨h.put hAbove hPlace .directory, (changesAt_put hPlace .directory).mono ?_⟩
  rintro other rfl
  exact ⟨hNone, hName⟩

theorem WellFormed.createDirectories (h : fs.WellFormed) (path : String) :
    (fs.createDirectories path).2.WellFormed ∧
      ChangesAt (New fs path) fs (fs.createDirectories path).2 := by
  rw [FileSystem.createDirectories]
  refine makeDirectories_keeps
    (P := fun later => later.WellFormed ∧ ChangesAt (New fs path) fs later) ?_ ⟨h, .refl _ fs⟩
  rintro inner hInner middle last ⟨hMiddle, hChanges⟩ hMade
  obtain ⟨hLast, hMore⟩ := hMiddle.makeDirectory hMade
  have hNames := Path.names_subset (Path.pieces_of_mem_lineage hInner).2
  refine ⟨hLast, hChanges.trans (hMore.mono fun place hNew => ?_)⟩
  exact hChanges.new_of_new (hNew.mono hNames)

/-! Writing. -/

theorem putNode_putNode (place : Location) (old new : Node) (nodes : List (Location × Node)) :
    putNode place new (putNode place old nodes) = putNode place new nodes := by
  induction nodes with
  | nil => simp [putNode]
  | cons head rest ih =>
      obtain ⟨other, first⟩ := head
      by_cases h : other = place
      · simp [putNode, h]
      · simp [putNode, h, ih]

/-- A text is written to a place that is no directory, through a path that does not end
with a slash. -/
theorem write_eq_ok_iff : fs.write path text = .ok later ↔
    path.toList.getLast? ≠ some '/' ∧ ∃ place, fs.locate path = .ok place ∧
      fs.node? place ≠ some .directory ∧ later = fs.put place (.file (.text text)) := by
  rw [write]
  by_cases hSlash : path.toList.getLast? = some '/'
  · rw [if_pos hSlash]
    cases fs.locatePieces path ((barePieces path).dropLast ++ ["."]) <;> simp [hSlash]
  · rw [if_neg hSlash]
    cases fs.locate path with
    | error e => simp
    | ok place =>
        by_cases hDirectory : fs.node? place = some .directory
        · simp [hDirectory]
        · simp [hDirectory, hSlash, eq_comm (a := later)]

/-- The places that storing at a path may change: they end with one of its names, and
nothing was there but what the path leads to. -/
def Touched (fs : FileSystem) (path : String) (place : Location) : Prop :=
  (fs.node? place = none ∨ place = fs.destination path) ∧
    ∃ above name, place = above ++ [name] ∧ name ∈ Path.names path

theorem WellFormed.write (h : fs.WellFormed) (hWrite : fs.write path text = .ok later) :
    later.WellFormed ∧ ChangesAt (Touched fs path) fs later := by
  obtain ⟨-, place, hLocate, hPlace, rfl⟩ := write_eq_ok_iff.mp hWrite
  obtain ⟨hAbove, hName⟩ :=
    h.exists_name_of_locatePieces (fun _ hPiece => hPiece) hLocate hPlace
  refine ⟨h.put hAbove hPlace _, (changesAt_put hPlace _).mono ?_⟩
  rintro other rfl
  exact ⟨.inr (eq_destination_of_locate hLocate), hName⟩

/-- The directories that lead to a file. -/
def prepare (fs : FileSystem) (path : String) : Except Access.Failure Unit × FileSystem :=
  let directory := (Path.parent? path).getD ""
  if directory ≠ "" then fs.createDirectories directory else (.ok (), fs)

/-- Directories that were prepared are found later. -/
theorem prepare_of_prepare {prepared : FileSystem} {there : Location → Prop}
    (h : fs.prepare path = (.ok (), prepared)) (hChanges : ChangesAt there prepared later) :
    later.prepare path = (.ok (), later) := by
  simp only [prepare] at h ⊢
  split at h
  next hSome =>
    rw [if_pos hSome]
    rw [createDirectories] at h ⊢
    obtain ⟨above, hLineage⟩ := Path.exists_lineage_eq ((Path.parent? path).getD "")
    rw [hLineage] at h ⊢
    have hDirectory := isDirectory_of_makeDirectories hSome h
    obtain ⟨place, hLocate, hNode⟩ := find?_eq_some_iff.mp (isDirectory_iff.mp hDirectory)
    refine makeDirectories_of_isDirectory (isDirectory_iff.mpr (find?_eq_some_iff.mpr ?_))
    exact ⟨place, hChanges.locatePieces hLocate, hChanges.directory place hNode⟩
  next hNone => rw [if_neg hNone]

/-- A text is stored in a file, after the directories that lead to it. -/
def Stores (fs : FileSystem) (path text : String) (later : FileSystem) : Prop :=
  ∃ prepared, fs.prepare path = (.ok (), prepared) ∧ prepared.write path text = .ok later

namespace Stores

variable {middle other : FileSystem} {old new : String}

theorem unique (h : Stores fs path text later) (hOther : Stores fs path text other) :
    later = other := by
  obtain ⟨prepared, hPrepared, hWrite⟩ := h
  obtain ⟨again, hAgain, hWriteAgain⟩ := hOther
  obtain rfl : prepared = again := (Prod.mk.inj (hPrepared.symm.trans hAgain)).2
  exact Except.ok.inj (hWrite.symm.trans hWriteAgain)

/-- The file holds what was stored in it. -/
theorem find? (h : Stores fs path text later) :
    later.find? path = some (.file (.text text)) := by
  obtain ⟨prepared, -, hWrite⟩ := h
  obtain ⟨-, place, hLocate, hPlace, rfl⟩ := write_eq_ok_iff.mp hWrite
  rw [find?_eq_some_iff]
  refine ⟨place, (changesAt_put hPlace _).locatePieces hLocate, ?_⟩
  rw [node?_put prepared (ne_nil_of_node? hPlace), if_pos rfl]

/-- A path at which something was stored takes every other text, too; what was stored
before makes no difference then. -/
theorem again (h : Stores fs path old middle) (new : String) :
    ∃ later, Stores fs path new later ∧ Stores middle path new later := by
  obtain ⟨prepared, hPrepared, hWrite⟩ := h
  obtain ⟨hSlash, place, hLocate, hPlace, rfl⟩ := write_eq_ok_iff.mp hWrite
  have hChanges := changesAt_put hPlace (.file (.text old))
  refine ⟨prepared.put place (.file (.text new)), ⟨prepared, hPrepared, ?_⟩,
    ⟨_, prepare_of_prepare hPrepared hChanges, ?_⟩⟩
  · exact write_eq_ok_iff.mpr ⟨hSlash, place, hLocate, hPlace, rfl⟩
  · refine write_eq_ok_iff.mpr ⟨hSlash, place, hChanges.locatePieces hLocate, ?_, ?_⟩
    · simp [node?_put prepared (ne_nil_of_node? hPlace)]
    · simp only [put, putNode_putNode]

end Stores

theorem WellFormed.prepare (h : fs.WellFormed) (path : String) :
    (fs.prepare path).2.WellFormed ∧ ChangesAt (New fs path) fs (fs.prepare path).2 := by
  simp only [FileSystem.prepare]
  split
  next hSome =>
    cases hParent : Path.parent? path with
    | none => simp [hParent] at hSome
    | some directory =>
        have hNames := Path.names_subset (Path.pieces_of_parent? hParent).2
        exact (h.createDirectories directory).imp_right fun hChanges =>
          hChanges.mono fun _ hNew => hNew.mono hNames
  next => exact ⟨h, .refl _ fs⟩

/-- What stores a text keeps a file system well formed, and changes nothing but what the
path names. -/
theorem Stores.changes (h : fs.WellFormed) (hStores : Stores fs path text later) :
    later.WellFormed ∧ ChangesAt (Touched fs path) fs later := by
  obtain ⟨prepared, hPrepared, hWrite⟩ := hStores
  obtain ⟨hWell, hChanges⟩ := h.prepare path
  rw [hPrepared] at hWell hChanges
  obtain ⟨hLater, hMore⟩ := hWell.write hWrite
  refine ⟨hLater, (hChanges.mono fun _ hNew => hNew.imp_left .inl).trans (hMore.mono ?_)⟩
  rintro place ⟨hPlace, hName⟩
  refine ⟨?_, hName⟩
  rcases hPlace with hNone | rfl
  · exact .inl (hChanges.new_of_new ⟨hNone, hName⟩).1
  · exact .inr (hChanges.destination path)

/-- A file that the path does not lead to keeps its text. -/
theorem Stores.read {other content : String} (h : fs.WellFormed)
    (hStores : Stores fs path text later) (hOther : fs.destination other ≠ fs.destination path)
    (hRead : fs.read other = .ok content) : later.read other = .ok content := by
  obtain ⟨-, hChanges⟩ := hStores.changes h
  obtain ⟨place, hLocate, hNode⟩ := find?_eq_some_iff.mp (read_eq_ok_iff.mp hRead)
  have hElsewhere : ¬ Touched fs path place := by
    rintro ⟨hNone | hSame, -⟩
    · simp [hNode] at hNone
    · exact hOther ((eq_destination_of_locate hLocate).symm.trans hSame)
  rw [read_eq_ok_iff, find?_eq_some_iff]
  exact ⟨place, hChanges.locatePieces hLocate, (hChanges.elsewhere place hElsewhere).trans hNode⟩

end LocaleKeys.FileSystem
