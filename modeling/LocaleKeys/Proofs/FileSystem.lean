import LocaleKeys.Proofs.Path
import LocaleKeys.Proofs.Table

/-! Following paths. Where a path leads is settled by its pieces; whether they can
be followed, by the directories on the way. A file system in which directories
stay and only certain places get other nodes is seen as before through every path
that leads elsewhere. -/
namespace LocaleKeys.FileSystem

variable {fs later : FileSystem} {place other found : Location} {node : Node} {path : String}
  {pieces rest : List String}

theorem lookup_putNode (place : Location) (node : Node) (nodes : List (Location × Node))
    (other : Location) :
    (putNode place node nodes).lookup other =
      if other = place then some node else nodes.lookup other := by
  induction nodes with
  | nil => rw [putNode, lookup_cons_eq_ite]
  | cons head rest ih =>
      obtain ⟨first, old⟩ := head
      rw [putNode]
      split
      next hFirst =>
        subst hFirst
        simp only [lookup_cons_eq_ite]
        split <;> rfl
      next hFirst =>
        simp only [lookup_cons_eq_ite, ih]
        by_cases h : other = first
        · simp [h, hFirst]
        · simp [h]

@[simp] theorem node?_root (fs : FileSystem) : fs.node? [] = some .directory := rfl

/-- A node that is put is seen at its place and nowhere else. -/
theorem node?_put (fs : FileSystem) (hPlace : place ≠ []) (node : Node) (other : Location) :
    (fs.put place node).node? other = if other = place then some node else fs.node? other := by
  rw [node?, node?]
  by_cases h : other = []
  · rw [if_pos h, if_pos h, if_neg (h ▸ hPlace.symm)]
  · rw [if_neg h, if_neg h, put, lookup_putNode]

theorem ne_nil_of_node? (h : fs.node? place ≠ some .directory) : place ≠ [] := by
  rintro rfl
  exact h rfl

/-- Where a piece leads from a place. -/
def step (place : Location) (piece : String) : Location :=
  if Path.isIdle piece then place
  else if piece = ".." then place.dropLast
  else place ++ [piece]

/-- A piece that is no name, or a name that is not too long. -/
def Fits (piece : String) : Prop :=
  Path.isIdle piece ∨ piece = ".." ∨ piece.utf8ByteSize ≤ nameLimit

/-- A piece is followed from a directory. -/
theorem follow_cons_eq_ok_iff {piece : String} : fs.follow place (piece :: rest) = .ok found ↔
    fs.node? place = some .directory ∧ Fits piece ∧
      fs.follow (step place piece) rest = .ok found := by
  rw [follow]
  cases hNode : fs.node? place with
  | none => simp
  | some node =>
      cases node with
      | file content => simp
      | directory =>
          by_cases hIdle : Path.isIdle piece = true
          · simp [step, Fits, hIdle]
          by_cases hUp : piece = ".."
          · subst hUp
            simp [step, Fits, hIdle]
          by_cases hLong : nameLimit < piece.utf8ByteSize
          · simp [Fits, hIdle, hUp, hLong, Nat.not_le.mpr hLong]
          · simp [step, Fits, hIdle, hUp, hLong, Nat.not_lt.mp hLong]

/-- A path is followed in two parts when the first part leads somewhere and the second one
leads on from there. -/
theorem follow_append_eq_ok_iff : fs.follow place (pieces ++ rest) = .ok found ↔
    ∃ middle, fs.follow place pieces = .ok middle ∧ fs.follow middle rest = .ok found := by
  induction pieces generalizing place with
  | nil => simp [follow]
  | cons piece pieces ih =>
      rw [List.cons_append, follow_cons_eq_ok_iff, ih]
      simp only [follow_cons_eq_ok_iff]
      constructor
      · rintro ⟨hDirectory, hFits, middle, hFirst, hRest⟩
        exact ⟨middle, ⟨hDirectory, hFits, hFirst⟩, hRest⟩
      · rintro ⟨middle, ⟨hDirectory, hFits, hFirst⟩, hRest⟩
        exact ⟨hDirectory, hFits, middle, hFirst, hRest⟩

/-- Pieces that can be followed lead where they lead in any file system. -/
theorem eq_foldl_of_follow (h : fs.follow place pieces = .ok found) :
    found = pieces.foldl step place := by
  induction pieces generalizing place with
  | nil => simpa [follow] using h.symm
  | cons piece rest ih => exact ih (follow_cons_eq_ok_iff.mp h).2.2

/-- A path that the system takes at all. -/
structure Usable (path : String) : Prop where
  some : path ≠ ""
  noNul : '\x00' ∉ path.toList
  short : path.utf8ByteSize ≤ pathLimit

/-- A path is located when it can be used at all and its pieces can be followed from where it
starts. -/
theorem locatePieces_eq_ok_iff : fs.locatePieces path pieces = .ok found ↔
    Usable path ∧ fs.follow (fs.start path) pieces = .ok found := by
  rw [locatePieces]
  by_cases hEmpty : path = ""
  · have hNot : ¬ Usable path := fun h => h.some hEmpty
    simp [hEmpty, hEmpty ▸ hNot]
  by_cases hNul : '\x00' ∈ path.toList
  · have hNot : ¬ Usable path := fun h => h.noNul hNul
    simp [hEmpty, hNul, hNot]
  by_cases hLong : pathLimit < path.utf8ByteSize
  · have hNot : ¬ Usable path := fun h => Nat.not_lt.mpr h.short hLong
    simp [hEmpty, hNul, hLong, hNot]
  · have hUsable : Usable path := ⟨hEmpty, hNul, Nat.not_lt.mp hLong⟩
    simp [hEmpty, hNul, hLong, hUsable]

/-- The place to which the pieces of a path lead if they can be followed. -/
def destination (fs : FileSystem) (path : String) : Location :=
  (Path.pieces path).foldl step (fs.start path)

theorem eq_destination_of_locate (h : fs.locate path = .ok found) : found = fs.destination path :=
  eq_foldl_of_follow (locatePieces_eq_ok_iff.mp h).2

/-- What is found at a path is the node of the place to which the path leads. -/
theorem find?_eq_some_iff : fs.find? path = some node ↔
    ∃ place, fs.locate path = .ok place ∧ fs.node? place = some node := by
  rw [find?]
  cases fs.locate path <;> simp

/-- A text is read where the path leads to a file that holds it, and nowhere else. -/
theorem read_eq_ok_iff {text : String} :
    fs.read path = .ok text ↔ fs.find? path = some (.file (.text text)) := by
  rw [read, find?]
  cases fs.locate path with
  | error e => simp
  | ok place =>
      cases hNode : fs.node? place with
      | none => simp [hNode]
      | some node =>
          cases node with
          | directory => simp [hNode]
          | file content => cases content <;> simp [hNode]

theorem isDirectory_iff : fs.isDirectory path = true ↔ fs.find? path = some .directory := by
  simp [isDirectory]

/-- Nodes differ in certain places only, and directories stay. -/
structure ChangesAt (there : Location → Prop) (fs later : FileSystem) : Prop where
  workingDirectory : later.workingDirectory = fs.workingDirectory
  directory : ∀ place, fs.node? place = some .directory → later.node? place = some .directory
  elsewhere : ∀ place, ¬ there place → later.node? place = fs.node? place

variable {there : Location → Prop}

theorem ChangesAt.refl (there : Location → Prop) (fs : FileSystem) : ChangesAt there fs fs :=
  ⟨rfl, fun _ h => h, fun _ _ => rfl⟩

/-- Changes one after another leave alone what each of them leaves alone. The steps of a write
are put together by this. -/
theorem ChangesAt.trans {middle : FileSystem} (hFirst : ChangesAt there fs middle)
    (hSecond : ChangesAt there middle later) : ChangesAt there fs later where
  workingDirectory := hSecond.workingDirectory.trans hFirst.workingDirectory
  directory := fun place h => hSecond.directory place (hFirst.directory place h)
  elsewhere := fun place h => (hSecond.elsewhere place h).trans (hFirst.elsewhere place h)

theorem ChangesAt.mono {more : Location → Prop} (h : ChangesAt there fs later)
    (hMore : ∀ place, there place → more place) : ChangesAt more fs later where
  workingDirectory := h.workingDirectory
  directory := h.directory
  elsewhere := fun place hNot => h.elsewhere place fun hThere => hNot (hMore place hThere)

/-- Where directories stay, a path that could be followed leads to the same place
afterwards. -/
theorem ChangesAt.follow (hChanges : ChangesAt there fs later)
    (h : fs.follow place pieces = .ok found) : later.follow place pieces = .ok found := by
  induction pieces generalizing place with
  | nil => exact h
  | cons piece rest ih =>
      obtain ⟨hDirectory, hFits, hRest⟩ := follow_cons_eq_ok_iff.mp h
      exact follow_cons_eq_ok_iff.mpr ⟨hChanges.directory place hDirectory, hFits, ih hRest⟩

/-- Where a path leads is not changed by a write, so it may be named before and after. -/
theorem ChangesAt.destination (hChanges : ChangesAt there fs later) (path : String) :
    later.destination path = fs.destination path := by
  simp only [FileSystem.destination, start, hChanges.workingDirectory]

/-- Where a path leads it leads ever after. -/
theorem ChangesAt.locatePieces (hChanges : ChangesAt there fs later)
    (h : fs.locatePieces path pieces = .ok found) : later.locatePieces path pieces = .ok found := by
  rw [locatePieces_eq_ok_iff] at h ⊢
  rw [start, hChanges.workingDirectory]
  exact h.imp_right hChanges.follow

/-- Every node stands in a directory. The working directory is one, and its names lead
to it. A file system of a system is always so, and programs keep it so. -/
structure WellFormed (fs : FileSystem) : Prop where
  above : ∀ entry ∈ fs.nodes, fs.node? entry.1.dropLast = some .directory
  workingDirectory : fs.node? fs.workingDirectory = some .directory
  names : ∀ name ∈ fs.workingDirectory, Path.IsName name

instance (fs : FileSystem) : Decidable fs.WellFormed :=
  decidable_of_iff
    ((∀ entry ∈ fs.nodes, fs.node? entry.1.dropLast = some .directory) ∧
      fs.node? fs.workingDirectory = some .directory ∧
      ∀ name ∈ fs.workingDirectory, Path.IsName name)
    ⟨fun ⟨above, directory, names⟩ => ⟨above, directory, names⟩,
      fun h => ⟨h.above, h.workingDirectory, h.names⟩⟩

/-- What is there stands in a directory, whose place is the same without the last name. -/
theorem WellFormed.node?_dropLast (h : fs.WellFormed) (hNode : fs.node? place = some node) :
    fs.node? place.dropLast = some .directory := by
  rw [node?] at hNode
  split at hNode
  next hRoot => rw [hRoot, List.dropLast_nil, node?_root]
  next =>
    obtain ⟨before, after, hSplit, _⟩ := List.lookup_eq_some_iff.mp hNode
    exact h.above (place, node) (by simp [hSplit])

/-- What is followed to its end without meeting a directory there ends with a name. -/
theorem WellFormed.exists_name_of_follow (h : fs.WellFormed)
    (hStart : fs.node? place = some .directory) (hFollow : fs.follow place pieces = .ok found)
    (hFound : fs.node? found ≠ some .directory) :
    ∃ above name, found = above ++ [name] ∧ fs.node? above = some .directory ∧
      name ∈ pieces ∧ Path.isIdle name = false ∧ name ≠ ".." := by
  induction pieces generalizing place with
  | nil =>
      obtain rfl : place = found := by simpa [follow] using hFollow
      exact absurd hStart hFound
  | cons piece rest ih =>
      obtain ⟨_, _, hRest⟩ := follow_cons_eq_ok_iff.mp hFollow
      by_cases hNext : fs.node? (step place piece) = some .directory
      · obtain ⟨above, name, hSplit, hAbove, hName, hPlain⟩ := ih hNext hRest
        exact ⟨above, name, hSplit, hAbove, List.mem_cons_of_mem _ hName, hPlain⟩
      · -- Nothing goes on behind what is no directory, so the piece is the last one.
        obtain rfl : rest = [] := by
          cases rest with
          | nil => rfl
          | cons next rest => exact absurd (follow_cons_eq_ok_iff.mp hRest).1 hNext
        obtain rfl : step place piece = found := by simpa [follow] using hRest
        rw [step] at hFound ⊢
        split at hFound
        · exact absurd hStart hFound
        next hIdle =>
          split at hFound
          · exact absurd (h.node?_dropLast hStart) hFound
          next hUp =>
            have hName : Path.isIdle piece = false := by simpa using hIdle
            exact ⟨place, piece, by simp [hName, hUp], hStart, by simp, hName, hUp⟩

/-- A node that is put at a place which is no directory changes that place only. -/
theorem changesAt_put (hPlace : fs.node? place ≠ some .directory) (node : Node) :
    ChangesAt (· = place) fs (fs.put place node) where
  workingDirectory := rfl
  directory := by
    intro other hOther
    rw [node?_put fs (ne_nil_of_node? hPlace), if_neg, hOther]
    rintro rfl
    exact hPlace hOther
  elsewhere := fun other hOther => by rw [node?_put fs (ne_nil_of_node? hPlace), if_neg hOther]

theorem mem_putNode {entry : Location × Node} {nodes : List (Location × Node)}
    (h : entry ∈ putNode place node nodes) : entry = (place, node) ∨ entry ∈ nodes := by
  induction nodes with
  | nil => simpa [putNode] using h
  | cons head rest ih =>
      obtain ⟨first, old⟩ := head
      rw [putNode] at h
      split at h
      next hFirst =>
        subst hFirst
        exact (List.mem_cons.mp h).imp_right (List.mem_cons_of_mem _)
      next =>
        rcases List.mem_cons.mp h with rfl | hRest
        · exact .inr List.mem_cons_self
        · exact (ih hRest).imp_right (List.mem_cons_of_mem _)

/-- A file system stays well formed when something is put into a directory. -/
theorem WellFormed.put (h : fs.WellFormed) (hAbove : fs.node? place.dropLast = some .directory)
    (hPlace : fs.node? place ≠ some .directory) (node : Node) :
    (fs.put place node).WellFormed where
  above := by
    intro entry hEntry
    refine (changesAt_put hPlace node).directory _ ?_
    rcases mem_putNode hEntry with rfl | hOld
    · exact hAbove
    · exact h.above entry hOld
  workingDirectory := (changesAt_put hPlace node).directory _ h.workingDirectory
  names := h.names

theorem start_isDirectory (h : fs.WellFormed) (path : String) :
    fs.node? (fs.start path) = some .directory := by
  rw [start]
  split
  · rfl
  · exact h.workingDirectory

theorem foldl_step_append_name {front : List String} {name : String} (hName : Path.IsName name)
    (place : Location) :
    (front ++ [name]).foldl step place = front.foldl step place ++ [name] := by
  simp [step, hName.notIdle, hName.notUp]

/-- Pieces without a step upwards can be followed to every directory to which they lead. -/
theorem WellFormed.follow_eq_ok (h : fs.WellFormed) (hUp : ".." ∉ pieces)
    (hFits : ∀ piece ∈ pieces, Fits piece)
    (hDirectory : fs.node? (pieces.foldl step place) = some .directory) :
    fs.follow place pieces = .ok (pieces.foldl step place) := by
  induction pieces using List.reverseRecOn with
  | nil => rfl
  | append_singleton front piece ih =>
      obtain ⟨hFront, hPiece⟩ : ".." ∉ front ∧ ".." ≠ piece := by simpa using hUp
      rw [List.foldl_append, List.foldl_cons, List.foldl_nil] at hDirectory ⊢
      -- A piece that is no step upwards stays where it is or goes down by one name.
      have hAbove : fs.node? (front.foldl step place) = some .directory := by
        by_cases hIdle : Path.isIdle piece = true
        · rwa [step, if_pos hIdle] at hDirectory
        · rw [step, if_neg hIdle, if_neg hPiece.symm] at hDirectory
          simpa using h.node?_dropLast hDirectory
      rw [follow_append_eq_ok_iff]
      refine ⟨_, ih hFront (fun other hOther => hFits other (by simp [hOther])) hAbove, ?_⟩
      exact follow_cons_eq_ok_iff.mpr ⟨hAbove, hFits piece (by simp), rfl⟩

theorem fits_of_follow (h : fs.follow place pieces = .ok found) :
    ∀ piece ∈ pieces, Fits piece := by
  induction pieces generalizing place with
  | nil => simp
  | cons piece rest ih =>
      obtain ⟨_, hFits, hRest⟩ := follow_cons_eq_ok_iff.mp h
      exact List.forall_mem_cons.mpr ⟨hFits, ih hRest⟩

variable {front : List String} {name : String}

/-- What is at a path without steps upwards that ends with a name is the node of its
destination, if the system takes the path at all. -/
theorem WellFormed.find?_eq_some_iff (h : fs.WellFormed)
    (hPieces : Path.pieces path = front ++ [name]) (hFront : ".." ∉ front)
    (hName : Path.IsName name) :
    fs.find? path = some node ↔ Usable path ∧ (∀ piece ∈ Path.pieces path, Fits piece) ∧
      fs.node? (fs.destination path) = some node := by
  rw [FileSystem.find?_eq_some_iff]
  constructor
  · rintro ⟨place, hLocate, hNode⟩
    obtain ⟨hUsable, hFollow⟩ := locatePieces_eq_ok_iff.mp hLocate
    exact ⟨hUsable, fits_of_follow hFollow, eq_destination_of_locate hLocate ▸ hNode⟩
  · rintro ⟨hUsable, hFits, hNode⟩
    refine ⟨_, locatePieces_eq_ok_iff.mpr ⟨hUsable, ?_⟩, hNode⟩
    rw [destination, hPieces, foldl_step_append_name hName] at hNode
    have hAbove : fs.node? (front.foldl step (fs.start path)) = some .directory := by
      simpa using h.node?_dropLast hNode
    rw [hPieces] at hFits
    rw [destination, hPieces, follow_append_eq_ok_iff]
    have hFrontFits : ∀ piece ∈ front, Fits piece := fun piece hPiece =>
      hFits piece (by simp [hPiece])
    refine ⟨_, h.follow_eq_ok hFront hFrontFits hAbove, ?_⟩
    rw [follow_cons_eq_ok_iff, List.foldl_append]
    exact ⟨hAbove, hFits name (by simp), rfl⟩

/-- A path that leads elsewhere shows what it showed before. -/
theorem ChangesAt.find?_eq (hChanges : ChangesAt there fs later) (h : fs.WellFormed)
    (hLater : later.WellFormed) (hPieces : Path.pieces path = front ++ [name])
    (hFront : ".." ∉ front) (hName : Path.IsName name)
    (hElsewhere : ¬ there (fs.destination path)) : later.find? path = fs.find? path := by
  apply Option.ext
  intro node
  rw [h.find?_eq_some_iff hPieces hFront hName, hLater.find?_eq_some_iff hPieces hFront hName,
    hChanges.destination, hChanges.elsewhere _ hElsewhere]

end LocaleKeys.FileSystem
