import LocaleKeys.FileSystem
import LocaleKeys.Proofs.Segments

/-! Paths by their pieces. A path is its pieces with slashes between them. What
stands above a path, and a name behind it, is written with the same pieces. -/
namespace LocaleKeys.Path

variable {path above piece : String}

theorem slash_not_mem_of_mem_pieces (h : piece ∈ pieces path) : '/' ∉ piece.toList := by
  obtain ⟨part, hPart, rfl⟩ := List.mem_map.mp h
  rw [String.toList_ofList]
  intro hSlash
  simpa using Key.not_of_mem_splitOnP hPart '/' hSlash

/-- Pieces without slashes are what stands between the slashes of the path that is written
with them. -/
theorem pieces_ofPieces {listed : List String} (hSome : listed ≠ [])
    (h : ∀ piece ∈ listed, '/' ∉ piece.toList) : pieces (ofPieces listed) = listed := by
  rw [pieces, ofPieces, String.toList_ofList,
    List.splitOn_intercalate '/' ?_ (by simpa using hSome)]
  · simp [Function.comp_def]
  · intro part hPart
    obtain ⟨piece, hPiece, rfl⟩ := List.mem_map.mp hPart
    exact h piece hPiece

theorem pieces_of_slash_not_mem (h : '/' ∉ path.toList) : pieces path = [path] := by
  simp [pieces, List.splitOn_eq_singleton h]

@[simp] theorem pieces_empty : pieces "" = [""] := rfl

theorem pieces_root : pieces "/" = ["", ""] := by decide

/-- Two paths with a slash between them have the pieces of both. -/
theorem pieces_append_slash (front back : String) :
    pieces (front ++ "/" ++ back) = pieces front ++ pieces back := by
  have hList : (front ++ "/" ++ back).toList = front.toList ++ '/' :: back.toList := by simp
  rw [pieces, hList, List.splitOn_append_cons_self, List.map_append]
  rfl

/-- A path is absolute when a slash stands before the rest of it. -/
theorem isAbsolute_iff : isAbsolute path = true ↔ ∃ rest, path = "/" ++ rest := by
  rw [isAbsolute, decide_eq_true_eq, List.head?_eq_some_iff]
  constructor
  · rintro ⟨rest, hRest⟩
    exact ⟨String.ofList rest, String.toList_inj.mp (by simp [hRest])⟩
  · rintro ⟨rest, rfl⟩
    exact ⟨rest.toList, by simp⟩

theorem mem_of_mem_trimIdle {listed : List String} (h : piece ∈ trimIdle listed) :
    piece ∈ listed := by
  have hSublist := List.dropWhile_sublist isIdle (l := listed.reverse)
  exact List.mem_reverse.mp (hSublist.subset (List.mem_reverse.mp h))

theorem head_eq_of_isAbsolute {first : String} {others : List String} (h : isAbsolute path = true)
    (hPieces : pieces path = first :: others) : first = "" := by
  obtain ⟨rest, rfl⟩ := isAbsolute_iff.mp h
  have hSplit := pieces_append_slash "" rest
  rw [String.empty_append, hPieces, pieces_empty] at hSplit
  exact (List.cons.inj hSplit).1

/-- A parent is written with pieces of the path, and the parent of an absolute path
is absolute. -/
theorem pieces_of_parent? (h : parent? path = some above) :
    (isAbsolute path = true → isAbsolute above = true) ∧
      ∀ piece ∈ pieces above, piece = "" ∨ piece ∈ pieces path := by
  rw [parent?] at h
  split at h
  · cases h
  next first others hPieces =>
    have hListed : first ∈ pieces path := by simp [hPieces]
    have hEmpty : isAbsolute path = true → first = "" := fun hRoot =>
      head_eq_of_isAbsolute hRoot hPieces
    split at h
    next =>
      split at h
      · cases h
      next hName =>
        obtain rfl := Option.some.inj h
        exact ⟨fun hRoot => absurd (hEmpty hRoot) hName, by simp⟩
    next hBehind =>
      split at h
      next =>
        obtain rfl := Option.some.inj h
        split
        · exact ⟨fun _ => by decide, by simp [pieces_root]⟩
        next hRelative =>
          refine ⟨fun hRoot => absurd hRoot hRelative, fun piece hPiece => .inr ?_⟩
          rw [pieces_of_slash_not_mem (slash_not_mem_of_mem_pieces hListed)] at hPiece
          exact List.mem_singleton.mp hPiece ▸ hListed
      next hKept =>
        obtain rfl := Option.some.inj h
        have hSub : ∀ piece ∈ first :: trimIdle (trimIdle others).dropLast,
            piece ∈ pieces path := by
          intro piece hPiece
          rcases List.mem_cons.mp hPiece with rfl | hInner
          · exact hListed
          · have hOthers :=
              mem_of_mem_trimIdle (List.mem_of_mem_dropLast (mem_of_mem_trimIdle hInner))
            simp [hPieces, hOthers]
        constructor
        · intro hRoot
          obtain ⟨second, kept, hSome⟩ := List.exists_cons_of_ne_nil hKept
          rw [hSome, hEmpty hRoot, isAbsolute]
          simp [ofPieces, List.intercalate_cons_cons]
        · intro piece hPiece
          rw [pieces_ofPieces (List.cons_ne_nil _ _) fun other hOther =>
            slash_not_mem_of_mem_pieces (hSub other hOther)] at hPiece
          exact .inr (hSub piece hPiece)

/-- The paths above a path are written with its pieces, and with it they are absolute. -/
theorem pieces_of_mem_lineage (h : above ∈ lineage path) :
    (isAbsolute path = true → isAbsolute above = true) ∧
      ∀ piece ∈ pieces above, piece = "" ∨ piece ∈ pieces path := by
  rw [lineage] at h
  generalize path.length = fuel at h
  induction fuel generalizing path with
  | zero =>
      obtain rfl := List.mem_singleton.mp h
      exact ⟨id, fun piece hPiece => .inr hPiece⟩
  | succ fuel ih =>
      rw [lineage.go] at h
      rcases List.mem_cons.mp h with rfl | hAbove
      · exact ⟨id, fun piece hPiece => .inr hPiece⟩
      · split at hAbove
        next parent hParent =>
          obtain ⟨hRoot, hPieces⟩ := pieces_of_parent? hParent
          obtain ⟨hParentRoot, hParentPieces⟩ := ih hAbove
          exact ⟨fun h => hParentRoot (hRoot h), fun piece hPiece =>
            (hParentPieces piece hPiece).elim .inl (hPieces piece)⟩
        next => cases hAbove

/-- A lineage starts with the path itself, so a directory is searched before those above
it. -/
theorem exists_lineage_eq (path : String) : ∃ above, lineage path = path :: above := by
  rw [lineage]
  cases path.length with
  | zero => exact ⟨[], rfl⟩
  | succ fuel => exact ⟨_, rfl⟩

/-- A name as a path can have it: a piece that is neither idle nor a step upwards. -/
structure IsName (name : String) : Prop where
  notIdle : isIdle name = false
  notUp : name ≠ ".."
  noSlash : '/' ∉ name.toList

instance (name : String) : Decidable (IsName name) :=
  decidable_of_iff (isIdle name = false ∧ name ≠ ".." ∧ '/' ∉ name.toList)
    ⟨fun ⟨notIdle, notUp, noSlash⟩ => ⟨notIdle, notUp, noSlash⟩,
      fun h => ⟨h.notIdle, h.notUp, h.noSlash⟩⟩

/-- The names of a path are its pieces, but for those that leave the place as it is or lead
upwards. -/
theorem mem_names_iff {name : String} :
    name ∈ names path ↔ name ∈ pieces path ∧ isIdle name = false ∧ name ≠ ".." := by
  simp [names]

/-- A path that is written with pieces of another one has no other names. -/
theorem names_subset (h : ∀ piece ∈ pieces above, piece = "" ∨ piece ∈ pieces path) :
    ∀ name ∈ names above, name ∈ names path := by
  intro name hName
  obtain ⟨hPiece, hIdle, hUp⟩ := mem_names_iff.mp hName
  refine mem_names_iff.mpr ⟨(h name hPiece).resolve_left ?_, hIdle, hUp⟩
  rintro rfl
  simp [isIdle] at hIdle

/-- A name behind a directory is the last piece of the path, and the others are pieces
of the directory. -/
theorem exists_pieces_join_eq {directory name : String} (hSome : directory ≠ "")
    (hName : IsName name) :
    ∃ front, pieces (join directory name) = front ++ [name] ∧
      ∀ piece ∈ front, piece ∈ pieces directory := by
  have hRelative : isAbsolute name = false := by
    rw [isAbsolute, decide_eq_false_iff_not, List.head?_eq_some_iff]
    rintro ⟨rest, hRest⟩
    exact hName.noSlash (by simp [hRest])
  rw [join, if_neg (by simp [hRelative, hSome])]
  split
  next hSlash =>
    obtain ⟨front, hFront⟩ := List.getLast?_eq_some_iff.mp hSlash
    have hDirectory : directory = String.ofList front ++ "/" ++ "" :=
      String.toList_inj.mp (by simp [hFront])
    rw [hDirectory, pieces_append_slash, String.append_empty, pieces_append_slash,
      pieces_of_slash_not_mem hName.noSlash]
    exact ⟨pieces (String.ofList front), rfl, fun piece hPiece => List.mem_append_left _ hPiece⟩
  next =>
    rw [pieces_append_slash, pieces_of_slash_not_mem hName.noSlash]
    exact ⟨pieces directory, rfl, fun piece hPiece => hPiece⟩

end LocaleKeys.Path

namespace LocaleKeys.FileSystem

/-- The path of a place starts with a slash and joins the names by slashes. -/
theorem pathOf_eq (place : Location) : pathOf place = "" ++ "/" ++ Path.ofPieces place := by
  apply String.toList_inj.mp
  simp [pathOf, Path.ofPieces, String.toList_intercalate]

/-- The path of a place is written with its names. -/
theorem pieces_pathOf {place : Location} (h : ∀ name ∈ place, Path.IsName name)
    {piece : String} (hPiece : piece ∈ Path.pieces (pathOf place)) :
    piece = "" ∨ piece ∈ place := by
  rw [pathOf_eq, Path.pieces_append_slash, Path.pieces_empty] at hPiece
  by_cases hRoot : place = []
  · subst hRoot
    have hEmpty : Path.ofPieces [] = "" := rfl
    rw [hEmpty] at hPiece
    exact .inl (by simpa using hPiece)
  · rw [Path.pieces_ofPieces hRoot fun name hName => (h name hName).noSlash] at hPiece
    simpa using hPiece

theorem isAbsolute_pathOf (place : Location) : Path.isAbsolute (pathOf place) = true :=
  Path.isAbsolute_iff.mpr ⟨_, rfl⟩

end LocaleKeys.FileSystem
