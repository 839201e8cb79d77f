import LocaleKeys.Proofs.Context
import LocaleKeys.Proofs.Lineage

/-! The boundary of the search for a settings file. From a directory the search goes up, and
it ends at the first directory that holds a settings file or the mark of a repository. It
asks for these two names only, and about no directory above that one, so what lies there
makes no difference. -/
namespace LocaleKeys

namespace Program

/-- Surroundings that answer a request alike whenever it is made. -/
abbrev Surroundings := (request : Request) → request.Reply

variable {A : Type} {around other : Surroundings}

/-- The result of a program in such surroundings. -/
def answered (around : Surroundings) : Program A → A
  | .done result => result
  | .query request next => (next (around request)).answered around

/-- What a program asks its surroundings, in order. -/
def asked (around : Surroundings) : Program A → List Request
  | .done _ => []
  | .query request next => request :: (next (around request)).asked around

/-- Other replies to what is not asked make no difference. -/
theorem answered_eq_of_agree (program : Program A)
    (h : ∀ request ∈ program.asked around, other request = around request) :
    program.answered other = program.answered around := by
  induction program with
  | done result => rfl
  | query request next ih =>
      obtain ⟨hFirst, hRest⟩ := List.forall_mem_cons.mp h
      rw [answered, answered, hFirst]
      exact ih _ hRest

/-- The replies of a world as it is. -/
def World.replies (w : World) : Surroundings := fun request => (w.answer request).1

/-- A program that asks for nothing that changes the world leaves it as it is. -/
theorem run_eq_answered (program : Program A) {w : World}
    (h : ∀ request ∈ program.asked w.replies, (w.answer request).2 = w) :
    program.run w = (program.answered w.replies, w) := by
  induction program with
  | done result => rfl
  | query request next ih =>
      obtain ⟨hFirst, hRest⟩ := List.forall_mem_cons.mp h
      rw [run, hFirst]
      exact ih _ hRest

end Program

namespace SettingsFile

open Program (Surroundings World)

variable {replies : Surroundings} {first directory path : String} {chain : List String}
  {request : Request}

/-- Whether a directory holds something under a name. -/
def present (replies : Surroundings) (directory name : String) : Bool :=
  replies (.isPresent (Path.join directory name))

/-- A directory at which the search ends. -/
def Bounds (replies : Surroundings) (directory : String) : Prop :=
  present replies directory fileName = true ∨ present replies directory repositoryMark = true

/-- The search gets to a directory when it does not end below. -/
def Reaches (replies : Surroundings) (chain : List String) (directory : String) : Prop :=
  ∃ below above, chain = below ++ directory :: above ∧ ∀ lower ∈ below, ¬ Bounds replies lower

theorem reaches_cons_iff : Reaches replies (first :: chain) directory ↔
    directory = first ∨ (¬ Bounds replies first ∧ Reaches replies chain directory) := by
  constructor
  · rintro ⟨below, above, hChain, hBelow⟩
    cases below with
    | nil => exact .inl (List.cons.inj hChain).1.symm
    | cons lower below =>
        obtain ⟨rfl, rfl⟩ := List.cons.inj hChain
        obtain ⟨hLower, hOthers⟩ := List.forall_mem_cons.mp hBelow
        exact .inr ⟨hLower, below, above, rfl, hOthers⟩
  · rintro (rfl | ⟨hFirst, below, above, rfl, hBelow⟩)
    · exact ⟨[], chain, rfl, by simp⟩
    · exact ⟨first :: below, above, rfl, List.forall_mem_cons.mpr ⟨hFirst, hBelow⟩⟩

theorem findIn_cons (directory : String) (above : List String) : findIn (directory :: above) =
    .query (.isPresent (Path.join directory fileName)) fun (isFile : Bool) =>
      if isFile then .done (some (Path.join directory fileName))
      else .query (.isPresent (Path.join directory repositoryMark)) fun (isMark : Bool) =>
        if isMark then .done none else findIn above := rfl

theorem answered_findIn_cons (directory : String) (above : List String) :
    (findIn (directory :: above)).answered replies =
      if present replies directory fileName then some (Path.join directory fileName)
      else if present replies directory repositoryMark then none
      else (findIn above).answered replies := by
  rw [findIn_cons]
  show (if present replies directory fileName then _ else _ : Program _).answered replies = _
  split
  next => rfl
  next =>
    show (if present replies directory repositoryMark then _ else _ : Program _).answered replies =
      _
    split <;> rfl

theorem asked_findIn_cons (directory : String) (above : List String) :
    (findIn (directory :: above)).asked replies =
      .isPresent (Path.join directory fileName) ::
        if present replies directory fileName then []
        else .isPresent (Path.join directory repositoryMark) ::
          if present replies directory repositoryMark then []
          else (findIn above).asked replies := by
  rw [findIn_cons]
  refine congrArg (_ :: ·) ?_
  show (if present replies directory fileName then _ else _ : Program _).asked replies = _
  split
  next => rfl
  next =>
    refine congrArg (_ :: ·) ?_
    show (if present replies directory repositoryMark then _ else _ : Program _).asked replies = _
    split <;> rfl

/-- What is found is a settings file in a directory to which the search gets. -/
theorem answered_findIn_eq_some_iff : (findIn chain).answered replies = some path ↔
    ∃ directory, Reaches replies chain directory ∧ present replies directory fileName = true ∧
      path = Path.join directory fileName := by
  induction chain with
  | nil =>
      have hNone : (findIn []).answered replies = none := rfl
      simp [hNone, Reaches]
  | cons first chain ih =>
      rw [answered_findIn_cons]
      simp only [reaches_cons_iff]
      split
      next hFile =>
        constructor
        · intro h
          exact ⟨first, .inl rfl, hFile, (Option.some.inj h).symm⟩
        · rintro ⟨directory, rfl | ⟨hOpen, _⟩, _, rfl⟩
          · rfl
          · exact absurd (.inl hFile) hOpen
      next hFile =>
        split
        next hMark =>
          constructor
          · intro h
            cases h
          · rintro ⟨directory, rfl | ⟨hOpen, _⟩, hPresent, rfl⟩
            · exact absurd hPresent hFile
            · exact absurd (.inr hMark) hOpen
        next hMark =>
          have hOpen : ¬ Bounds replies first := fun h => h.elim hFile hMark
          rw [ih]
          constructor
          · rintro ⟨directory, hReaches, hPresent, rfl⟩
            exact ⟨directory, .inr ⟨hOpen, hReaches⟩, hPresent, rfl⟩
          · rintro ⟨directory, rfl | ⟨_, hReaches⟩, hPresent, rfl⟩
            · exact absurd hPresent hFile
            · exact ⟨directory, hReaches, hPresent, rfl⟩

/-- The search asks for the two names, in directories to which it gets. -/
theorem exists_of_mem_asked_findIn (h : request ∈ (findIn chain).asked replies) :
    ∃ directory name, Reaches replies chain directory ∧ name ∈ [fileName, repositoryMark] ∧
      request = .isPresent (Path.join directory name) := by
  induction chain with
  | nil => cases h
  | cons first chain ih =>
      have hHere : Reaches replies (first :: chain) first := reaches_cons_iff.mpr (.inl rfl)
      rw [asked_findIn_cons, List.mem_cons] at h
      rcases h with rfl | h
      · exact ⟨first, fileName, hHere, by simp, rfl⟩
      split at h
      · cases h
      next hFile =>
        rw [List.mem_cons] at h
        rcases h with rfl | h
        · exact ⟨first, repositoryMark, hHere, by simp, rfl⟩
        split at h
        · cases h
        next hMark =>
          obtain ⟨directory, name, hReaches, hName, hRequest⟩ := ih h
          have hOpen : ¬ Bounds replies first := fun hBounds => hBounds.elim hFile hMark
          exact ⟨directory, name, reaches_cons_iff.mpr (.inr ⟨hOpen, hReaches⟩), hName, hRequest⟩

/-- Surroundings that agree on the two names in directories to which the search gets. -/
def AgreeUpTo (chain : List String) (replies other : Surroundings) : Prop :=
  ∀ directory, Reaches replies chain directory → ∀ name ∈ [fileName, repositoryMark],
    present other directory name = present replies directory name

theorem answered_findIn_eq_of_agree {other : Surroundings} (h : AgreeUpTo chain replies other) :
    (findIn chain).answered other = (findIn chain).answered replies := by
  refine Program.answered_eq_of_agree _ fun request hAsked => ?_
  obtain ⟨directory, name, hReaches, hName, rfl⟩ := exists_of_mem_asked_findIn hAsked
  exact h directory hReaches name hName

theorem run_findIn (w : World) : (findIn chain).run w = ((findIn chain).answered w.replies, w) := by
  refine Program.run_eq_answered _ fun request hAsked => ?_
  obtain ⟨directory, name, _, _, rfl⟩ := exists_of_mem_asked_findIn hAsked
  rfl

/-- The search for the settings file of a directory goes up one chain of parents, which ends.
It finds the file of the first directory of the chain that holds a settings file or the mark
of a repository, if that holds a settings file, and nothing otherwise. So surroundings give
the same answer when they agree on these two names up to that directory, whatever lies
above it. In a world it answers by the files as they are and changes nothing. -/
theorem find_stops_at_boundary (start : String) :
    ∃ chain, Path.Climbs start chain ∧ (∀ other, Path.Climbs start other → other = chain) ∧
      (∀ (replies : Surroundings) (path : String),
        (find start).answered replies = some path ↔
          ∃ below directory above, chain = below ++ directory :: above ∧
            (∀ lower ∈ below, ¬ Bounds replies lower) ∧
            present replies directory fileName = true ∧ path = Path.join directory fileName) ∧
      (∀ replies other : Surroundings, AgreeUpTo chain replies other →
        (find start).answered other = (find start).answered replies) ∧
      ∀ w : World, (find start).run w = ((find start).answered w.replies, w) := by
  have hClimbs := Path.climbs_lineage start
  refine ⟨Path.lineage start, hClimbs, fun other hOther => hClimbs.unique hOther,
    fun replies path => ?_, fun replies other hAgree => answered_findIn_eq_of_agree hAgree,
    fun w => run_findIn w⟩
  rw [find, answered_findIn_eq_some_iff]
  constructor
  · rintro ⟨directory, ⟨below, above, hChain, hBelow⟩, hPresent, hPath⟩
    exact ⟨below, directory, above, hChain, hBelow, hPresent, hPath⟩
  · rintro ⟨below, directory, above, hChain, hBelow, hPresent, hPath⟩
    exact ⟨directory, ⟨below, above, hChain, hBelow⟩, hPresent, hPath⟩

/-- The settings file above the repository is not seen from within it, whether it is there or
not, but from its own directory. -/
theorem find_within_repository :
    let repository : List (Location × Node) :=
      [(["w"], .directory), (["w", "app"], .directory), (["w", "app", ".git"], .directory),
        (["w", "app", "src"], .directory)]
    let alone : World := { files := { nodes := repository } }
    let below : World :=
      { files := { nodes := (["w", ".lutkeyrc.json"], .file (.text "{}")) :: repository } }
    AgreeUpTo ["/w/app/src", "/w/app", "/w", "/"] below.replies alone.replies ∧
      (find "/w/app/src").run below = (none, below) ∧
      (find "/w/app/src").answered alone.replies = none ∧
      (find "/w").run below = (some "/w/.lutkeyrc.json", below) := by
  intro repository alone below
  obtain ⟨chain, hClimbs, hUnique, hFound, hAgree, hRun⟩ := find_stops_at_boundary "/w/app/src"
  have hLineage : Path.lineage "/w/app/src" = ["/w/app/src", "/w/app", "/w", "/"] := by
    decide +kernel
  obtain rfl : chain = ["/w/app/src", "/w/app", "/w", "/"] :=
    (hUnique _ (hLineage ▸ Path.climbs_lineage _)).symm
  have hAlike : AgreeUpTo ["/w/app/src", "/w/app", "/w", "/"] below.replies alone.replies := by
    intro directory hReaches name hName
    rcases reaches_cons_iff.mp hReaches with rfl | ⟨_, hReaches⟩
    · rcases List.mem_pair.mp hName with rfl | rfl <;> decide +kernel
    rcases reaches_cons_iff.mp hReaches with rfl | ⟨hOpen, _⟩
    · rcases List.mem_pair.mp hName with rfl | rfl <;> decide +kernel
    · exact absurd (.inr (by decide +kernel)) hOpen
  have hNone : (find "/w/app/src").answered below.replies = none := by decide +kernel
  refine ⟨hAlike, ?_, (hAgree _ _ hAlike).trans hNone, ?_⟩
  · rw [hRun, hNone]
  · obtain ⟨_, _, _, _, _, hRunAbove⟩ := find_stops_at_boundary "/w"
    have hFile : (find "/w").answered below.replies = some "/w/.lutkeyrc.json" := by decide +kernel
    rw [hRunAbove, hFile]

end SettingsFile
end LocaleKeys
