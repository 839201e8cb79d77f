import LocaleKeys.Proofs.SourceFile
import LocaleKeys.Settings

/-! Directories in keys. A source file gives the directories behind the first root marker of
its path, and a scheme then drops the labels up to a root marker among them. So where the
path has the marker again before the component, the directories up to there are dropped
after they were given. Else all of them lead the segments, as they do when the whole path
is given as labels. -/
namespace LocaleKeys

namespace Scheme

variable {marker : String} {before after front : List String}

theorem afterMarker_of_not_mem (h : marker ∉ front) : afterMarker marker front = front := by
  rw [afterMarker, if_neg fun hMarked => h hMarked.2]

/-- What follows the first marker is what stands behind it, also when the marker comes again
there. -/
theorem afterMarker_append_cons (hMarker : marker ≠ "") (hFirst : marker ∉ before) :
    afterMarker marker (before ++ marker :: after) = after := by
  have hBefore : ∀ label ∈ before, decide (label ≠ marker) = true := by
    intro label hLabel
    rw [decide_eq_true_eq]
    rintro rfl
    exact hFirst hLabel
  rw [afterMarker, if_pos ⟨hMarker, by simp⟩, List.dropWhile_append_of_pos hBefore,
    List.dropWhile_cons_of_neg (by simp), List.tail_cons]

/-- The segments of labels among which no marker is looked for. -/
def spelled (s : Scheme) (labels : List String) : List String :=
  let kept := labels.filter (· ≠ "")
  (kept.map fun label => Label.segment s.maxSegmentLength (s.role label)).filter (· ≠ "")

theorem segments_eq (s : Scheme) (labels : List String) :
    s.segments labels = s.spelled (afterMarker s.rootMarker labels) := rfl

theorem segments_of_not_mem {s : Scheme} (h : s.rootMarker ∉ front) :
    s.segments front = s.spelled front := by
  rw [segments_eq, afterMarker_of_not_mem h]

/-- Labels up to the root marker give no segments. A second marker behind it is a label like
any other. -/
theorem segments_append_cons {s : Scheme} (hMarker : s.rootMarker ≠ "")
    (hFirst : s.rootMarker ∉ before) :
    s.segments (before ++ s.rootMarker :: after) = s.spelled after := by
  rw [segments_eq, afterMarker_append_cons hMarker hFirst]

theorem spelled_append (s : Scheme) (front back : List String) :
    s.spelled (front ++ back) = s.spelled front ++ s.spelled back := by
  simp only [spelled, List.filter_append, List.map_append]

/-- The candidate that segments make, where the text names itself if there are none. -/
def joined (s : Scheme) (text : String) (found : List String) : String :=
  match found with
  | [] => s.leaf text
  | found => Key.ofSegments found

theorem candidate_eq (s : Scheme) (text : String) (labels : List String) :
    s.candidate text labels = s.joined text (s.segments labels) := rfl

end Scheme

namespace Path

theorem ne_empty_of_mem_names {path name : String} (h : name ∈ names path) : name ≠ "" := by
  rintro rfl
  rw [names, List.mem_filter] at h
  exact absurd h.2 (by decide)

end Path

namespace SourceFile

variable {rootMarker sharedMarker path : String}

/-- The directories hold the marker when it stands a second time before the component. -/
theorem mem_labels_iff : rootMarker ∈ labels rootMarker sharedMarker path ↔
    isShared sharedMarker path = false ∧ ∃ before lost kept component file,
      Path.names path =
        before ++ rootMarker :: (lost ++ rootMarker :: (kept ++ [component, file])) ∧
      rootMarker ∉ before ∧ rootMarker ∉ lost := by
  constructor
  · intro h
    obtain ⟨hOwn, before, component, file, hNames, hFirst⟩ :=
      exists_of_labels_ne_nil (List.ne_nil_of_mem h)
    obtain ⟨lost, kept, hDirectories, hLost⟩ := List.eq_append_cons_of_mem h
    refine ⟨hOwn, before, lost, kept, component, file, ?_, hFirst, hLost⟩
    rw [hNames, hDirectories, List.append_assoc, List.cons_append]
  · rintro ⟨hOwn, before, lost, kept, component, file, hNames, hFirst, _⟩
    have hInner : lost ++ rootMarker :: (kept ++ [component, file]) =
        lost ++ rootMarker :: kept ++ [component, file] := by simp
    rw [labels_eq, hOwn, if_neg Bool.false_ne_true, between_parts, hNames, hInner, between_eq hFirst]
    exact List.mem_append_right _ List.mem_cons_self

theorem marker_ne_empty (h : rootMarker ∈ labels rootMarker sharedMarker path) :
    rootMarker ≠ "" := by
  obtain ⟨_, before, _, _, hNames, _⟩ := exists_of_labels_ne_nil (List.ne_nil_of_mem h)
  exact Path.ne_empty_of_mem_names (hNames ▸ List.mem_append_right _ List.mem_cons_self)

end SourceFile

namespace Settings

variable {s : Settings} {path : String} {labels lost kept : List String}

/-- Where no label is the root marker, the directories of the file and the labels of the text
are spelled one behind the other. This is the case in which a context keeps all of its
directories. -/
theorem segments_of_unmarked (hLabels : s.rootMarker ∉ labels)
    (h : s.rootMarker ∉ SourceFile.labels s.rootMarker s.sharedMarker path) :
    s.scheme.segments (s.context (some path) labels) =
      s.scheme.spelled (SourceFile.labels s.rootMarker s.sharedMarker path) ++
        s.scheme.spelled labels := by
  have hNone : s.rootMarker ∉ s.context (some path) labels := by
    rw [context, List.mem_append]
    exact fun hMarked => hMarked.elim h hLabels
  rw [← Scheme.spelled_append]
  exact Scheme.segments_of_not_mem hNone

/-- The directories up to a second marker are dropped with it. -/
theorem segments_of_marked
    (h : SourceFile.labels s.rootMarker s.sharedMarker path = lost ++ s.rootMarker :: kept)
    (hFirst : s.rootMarker ∉ lost) :
    s.scheme.segments (s.context (some path) labels) =
      s.scheme.spelled kept ++ s.scheme.spelled labels := by
  have hAmong : s.rootMarker ∈ SourceFile.labels s.rootMarker s.sharedMarker path := by simp [h]
  rw [context, h, List.append_assoc, List.cons_append, ← Scheme.spelled_append]
  exact Scheme.segments_append_cons (SourceFile.marker_ne_empty hAmong) hFirst

/-- The directories of a source file lead the segments of a candidate, unless the root marker
is among them. Then those up to the marker are lost, and all lead exactly when the lost ones
leave no segments. The marker is among them exactly when it stands twice before the
component. The same directories, given as labels behind what stands before them in the
path, are all kept. -/
theorem directories_of_candidate (s : Settings) (path text : String) (labels : List String)
    (hLabels : s.rootMarker ∉ labels) :
    let directories := SourceFile.labels s.rootMarker s.sharedMarker path
    let whole := s.scheme.spelled directories ++ s.scheme.spelled labels
    let found := s.scheme.segments (s.context (some path) labels)
    s.scheme.candidate text (s.context (some path) labels) = s.scheme.joined text found ∧
    (s.rootMarker ∉ directories → found = whole) ∧
    (∀ lost kept, directories = lost ++ s.rootMarker :: kept → s.rootMarker ∉ lost →
      found = s.scheme.spelled kept ++ s.scheme.spelled labels ∧
      (found = whole ↔ s.scheme.spelled (lost ++ [s.rootMarker]) = [])) ∧
    (s.rootMarker ∈ directories ↔ SourceFile.isShared s.sharedMarker path = false ∧
      ∃ before lost kept component file,
        Path.names path =
          before ++ s.rootMarker :: (lost ++ s.rootMarker :: (kept ++ [component, file])) ∧
        s.rootMarker ∉ before ∧ s.rootMarker ∉ lost) ∧
    ∀ before, s.rootMarker ∉ before → s.rootMarker ≠ "" →
      s.scheme.segments (before ++ s.rootMarker :: (directories ++ labels)) = whole := by
  intro directories whole found
  refine ⟨Scheme.candidate_eq _ _ _, segments_of_unmarked hLabels,
    fun lost kept hDirectories hLost => ?_, SourceFile.mem_labels_iff, fun before hBefore hMarker => ?_⟩
  · have hFound : found = s.scheme.spelled kept ++ s.scheme.spelled labels :=
      segments_of_marked hDirectories hLost
    -- What is missing stands in front of what was found, so nothing is missing if it is empty.
    have hDropped : directories = lost ++ [s.rootMarker] ++ kept := by
      rw [hDirectories, List.append_assoc, List.singleton_append]
    have hWhole : whole = s.scheme.spelled (lost ++ [s.rootMarker]) ++ found := by
      rw [hFound, ← List.append_assoc, ← Scheme.spelled_append, ← hDropped]
    refine ⟨hFound, ?_⟩
    rw [hWhole, List.self_eq_append_left]
  · have hAfter : s.scheme.segments (before ++ s.rootMarker :: (directories ++ labels)) =
        s.scheme.spelled (directories ++ labels) := Scheme.segments_append_cons hMarker hBefore
    rw [hAfter, Scheme.spelled_append]

/-- The settings are the default ones. The administration lies above the second marker. -/
theorem directories_of_login_form :
    let path := "src/application/admin/application/forms/Login/index.jsx"
    let s : Settings := {}
    s.rootMarker ∉ ["Button"] ∧
      SourceFile.labels s.rootMarker s.sharedMarker path = ["admin", "application", "forms"] ∧
      s.scheme.segments (s.context (some path) ["Button"]) = ["forms", "button"] ∧
      s.scheme.segments (s.context (some path) ["Button"]) ≠
        s.scheme.spelled ["admin", "application", "forms"] ++ s.scheme.spelled ["Button"] := by
  intro path s
  have hLabels : s.rootMarker ∉ ["Button"] := by decide
  have hDirectories : SourceFile.labels s.rootMarker s.sharedMarker path =
      ["admin", "application", "forms"] := by decide +kernel
  obtain ⟨hFound, hWhole⟩ := (directories_of_candidate s path "Save" ["Button"] hLabels).2.2.1
    ["admin"] ["forms"] hDirectories (by decide)
  rw [hDirectories] at hWhole
  refine ⟨hLabels, hDirectories, hFound.trans (by decide +kernel), fun hSame => ?_⟩
  exact absurd (hWhole.mp hSame) (by decide +kernel)

/-- Directories do not always lead the segments of a candidate. -/
theorem not_candidate_of_directories :
    ¬ ∀ (s : Settings) (path text : String) (labels : List String), s.rootMarker ∉ labels →
      s.scheme.candidate text (s.context (some path) labels) =
        s.scheme.joined text
          (s.scheme.spelled (SourceFile.labels s.rootMarker s.sharedMarker path) ++
            s.scheme.spelled labels) := by
  intro h
  have hForms := h {} "src/application/admin/application/forms/Login/index.jsx" "Save" ["Button"]
    (by decide)
  exact absurd hForms (by decide +kernel)

end Settings
end LocaleKeys
