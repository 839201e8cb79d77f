import LocaleKeys.Proofs.Path
import LocaleKeys.SourceFile
import Mathlib.Data.List.Basic

/-! Labels of source files, read off the names of their paths. They stand between the
first root marker and the last two names, so the file's name does not matter, with or
without its extension, and neither do pieces of the path that are no names. -/
namespace LocaleKeys

namespace Path

theorem names_append_slash (front back : String) :
    names (front ++ "/" ++ back) = names front ++ names back := by
  rw [names, pieces_append_slash, List.filter_append]
  rfl

theorem names_of_isIdle {piece : String} (h : isIdle piece = true) : names piece = [] := by
  rw [isIdle, Bool.or_eq_true, decide_eq_true_eq, decide_eq_true_eq] at h
  rcases h with rfl | rfl <;> decide

end Path

namespace SourceFile

variable {marker rootMarker sharedMarker path : String} {listed before inner after : List String}
  {component file : String}

theorem occursIn_iff {pattern text : List Char} : occursIn pattern text = true ↔ pattern <:+: text := by
  induction text with
  | nil => simp [occursIn]
  | cons c rest ih =>
      rw [occursIn, Bool.or_eq_true, List.isPrefixOf_iff_prefix, ih, List.infix_cons_iff]

theorem isShared_iff : isShared marker path = true ↔
    marker ≠ "" ∧ ∃ name ∈ Path.names path, marker.toList <:+: name.toList := by
  simp [isShared, occursIn_iff]

/-- What stands between the first marker and the last two parts. -/
def between (marker : String) (listed : List String) : List String :=
  match listed.idxOf? marker with
  | none => []
  | some root => (listed.take (listed.length - 2)).drop (root + 1)

theorem labels_eq (rootMarker sharedMarker path : String) :
    labels rootMarker sharedMarker path =
      if isShared sharedMarker path then [] else between rootMarker (parts path) := rfl

theorem idxOf?_append_cons_self (h : marker ∉ before) :
    (before ++ marker :: after).idxOf? marker = some before.length := by
  induction before with
  | nil => simp [List.idxOf?_cons]
  | cons part rest ih =>
      rw [List.mem_cons, not_or] at h
      rw [List.cons_append, List.idxOf?_cons, ih h.2, if_neg (by simpa using Ne.symm h.1)]
      rfl

/-- Behind the first marker all parts but the last two are taken, and none when there are
fewer than two. -/
theorem between_of_first (h : marker ∉ before) :
    between marker (before ++ marker :: after) = after.take (after.length - 2) := by
  have hBehind : (before ++ marker :: after).drop (before.length + 1) = after := by simp
  have hCount : (before ++ marker :: after).length - 2 - (before.length + 1) = after.length - 2 := by
    simp only [List.length_append, List.length_cons]
    omega
  rw [between, idxOf?_append_cons_self h]
  dsimp only
  rw [List.drop_take, hBehind, hCount]

theorem between_of_not_mem (h : marker ∉ listed) : between marker listed = [] := by
  rw [between, List.idxOf?_eq_none_iff.mpr h]

theorem between_eq (h : marker ∉ before) :
    between marker (before ++ marker :: (inner ++ [component, file])) = inner := by
  rw [between_of_first h]
  simp

theorem exists_of_between_ne_nil (h : between marker listed ≠ []) :
    ∃ before inner component file,
      listed = before ++ marker :: (inner ++ [component, file]) ∧ marker ∉ before := by
  have hMarker : marker ∈ listed := by
    by_contra hNone
    exact h (between_of_not_mem hNone)
  obtain ⟨before, after, rfl, hFirst⟩ := List.eq_append_cons_of_mem hMarker
  rw [between_of_first hFirst] at h
  have hTwo : (after.drop (after.length - 2)).length = 2 := by
    have hSome : after.length - 2 ≠ 0 := by
      intro hZero
      rw [hZero] at h
      exact h rfl
    rw [List.length_drop]
    omega
  obtain ⟨component, file, hLast⟩ := List.length_eq_two.mp hTwo
  refine ⟨before, after.take (after.length - 2), component, file, ?_, hFirst⟩
  rw [← hLast, List.take_append_drop]

/-- The last part does not matter. -/
theorem between_concat_eq (marker : String) (front : List String) (last other : String) :
    between marker (front ++ [last]) = between marker (front ++ [other]) := by
  by_cases hMarker : marker ∈ front
  · obtain ⟨before, after, rfl, hFirst⟩ := List.eq_append_cons_of_mem hMarker
    have hTake (part : String) :
        between marker (before ++ marker :: after ++ [part]) = after.take (after.length - 1) := by
      rw [List.append_assoc, List.cons_append, between_of_first hFirst, List.length_append,
        List.length_singleton, List.take_append_of_le_length (by omega)]
      rfl
    rw [hTake, hTake]
  -- The last part may be the marker itself, with nothing behind it.
  · have hNone (part : String) : between marker (front ++ [part]) = [] := by
      by_cases hSame : part = marker
      · rw [hSame, between_of_first hMarker]
        rfl
      · exact between_of_not_mem (by simp [hMarker, Ne.symm hSame])
    rw [hNone, hNone]

/-- The extension of the last part does not matter, either. -/
theorem between_parts (marker path : String) :
    between marker (parts path) = between marker (Path.names path) := by
  rw [parts]
  split
  -- With a file name, the parts differ from the names in the last one only.
  · rcases List.eq_nil_or_concat (Path.names path) with hNone | ⟨front, last, hLast⟩
    · rw [hNone, List.dropLast_nil, between_concat_eq marker [] _ marker]
      exact between_of_first List.not_mem_nil
    · rw [hLast, List.concat_eq_append, List.dropLast_concat]
      exact between_concat_eq marker front _ last
  · rfl

/-- Whatever is taken lies within the parts, none of it cut off. -/
theorem bounds_of_between_ne_nil (h : between marker listed ≠ []) :
    ∃ root, listed.idxOf? marker = some root ∧ root + 1 < listed.length - 2 ∧
      (between marker listed).length = listed.length - 2 - (root + 1) := by
  obtain ⟨before, inner, component, file, rfl, hFirst⟩ := exists_of_between_ne_nil h
  rw [between_eq hFirst] at h ⊢
  have hInner := List.length_pos_of_ne_nil h
  have hLength : (before ++ marker :: (inner ++ [component, file])).length =
      before.length + inner.length + 3 := by
    simp only [List.length_append, List.length_cons, List.length_nil]
    omega
  exact ⟨before.length, idxOf?_append_cons_self hFirst, by omega, by omega⟩

/-- Labels are given only by files that are not shared, from behind a first marker. -/
theorem exists_of_labels_ne_nil (h : labels rootMarker sharedMarker path ≠ []) :
    isShared sharedMarker path = false ∧ ∃ before component file,
      Path.names path =
        before ++ rootMarker :: (labels rootMarker sharedMarker path ++ [component, file]) ∧
      rootMarker ∉ before := by
  rw [labels_eq, between_parts] at h ⊢
  cases hShared : isShared sharedMarker path with
  | true => exact absurd (if_pos hShared) h
  | false =>
      rw [if_neg (by simp [hShared])] at h ⊢
      obtain ⟨before, inner, component, file, hNames, hFirst⟩ := exists_of_between_ne_nil h
      refine ⟨rfl, before, component, file, ?_, hFirst⟩
      rw [hNames, between_eq hFirst]

/-- Two paths with the same names give the same labels. -/
theorem labels_congr {other : String} (h : Path.names other = Path.names path) :
    labels rootMarker sharedMarker other = labels rootMarker sharedMarker path := by
  rw [labels_eq, labels_eq, between_parts, between_parts, isShared, isShared, h]

/-- The labels of a file follow from the names of its path. There are none when the shared
marker occurs within a name. Else they are the names between the first root marker and the
last two names, and none when there is no such place. The cut that is made never leaves the
parts, the last name may be given with or without its extension, and idle pieces of the
path change nothing. -/
theorem labels_exact (rootMarker sharedMarker path : String) :
    let names := Path.names path
    let shared := sharedMarker ≠ "" ∧ ∃ name ∈ names, sharedMarker.toList <:+: name.toList
    let found := labels rootMarker sharedMarker path
    (shared → found = []) ∧
    (¬ shared → ∀ before inner component file,
      names = before ++ rootMarker :: (inner ++ [component, file]) → rootMarker ∉ before →
        found = inner) ∧
    ((¬ ∃ before inner component file,
      names = before ++ rootMarker :: (inner ++ [component, file]) ∧ rootMarker ∉ before) →
        found = []) ∧
    (found ≠ [] → ∃ root, (parts path).idxOf? rootMarker = some root ∧
      root + 1 < (parts path).length - 2 ∧
        found.length = (parts path).length - 2 - (root + 1)) ∧
    between rootMarker (parts path) = between rootMarker names ∧
    ∀ front back idle, Path.isIdle idle = true →
      labels rootMarker sharedMarker (front ++ "/" ++ idle ++ "/" ++ back) =
        labels rootMarker sharedMarker (front ++ "/" ++ back) ∧
      labels rootMarker sharedMarker (idle ++ "/" ++ back) =
        labels rootMarker sharedMarker back ∧
      labels rootMarker sharedMarker (front ++ "/" ++ idle) =
        labels rootMarker sharedMarker front := by
  intro names shared found
  have hFound : found = if isShared sharedMarker path then [] else between rootMarker names := by
    rw [← between_parts, ← labels_eq]
  refine ⟨fun hShared => ?_, fun hOwn before inner component file hNames hFirst => ?_,
    fun hNone => ?_, fun hSome => ?_, between_parts rootMarker path, fun front back idle hIdle => ?_⟩
  · rw [hFound, if_pos (isShared_iff.mpr hShared)]
  · rw [hFound, if_neg (mt isShared_iff.mp hOwn), hNames, between_eq hFirst]
  · by_contra hSome
    obtain ⟨_, before, component, file, hNames, hFirst⟩ := exists_of_labels_ne_nil hSome
    exact hNone ⟨before, found, component, file, hNames, hFirst⟩
  · have hOwn : found = between rootMarker (parts path) := by
      rw [between_parts, hFound, (exists_of_labels_ne_nil hSome).1, if_neg Bool.false_ne_true]
    rw [hOwn] at hSome ⊢
    exact bounds_of_between_ne_nil hSome
  · have hPiece := Path.names_of_isIdle hIdle
    refine ⟨labels_congr ?_, labels_congr ?_, labels_congr ?_⟩
    · simp only [Path.names_append_slash, hPiece, List.append_nil]
    · rw [Path.names_append_slash, hPiece, List.nil_append]
    · rw [Path.names_append_slash, hPiece, List.append_nil]

/-- The marker stands twice in this path, which also has idle pieces and a step upwards. A
name that holds the shared marker takes all labels away. -/
theorem labels_of_settings_page :
    let path := "./src//application/account/../application/settings/./Profile/index.jsx"
    (¬ ("shared" ≠ "" ∧ ∃ name ∈ Path.names path, "shared".toList <:+: name.toList)) ∧
      labels "application" "shared" path = ["account", "application", "settings"] ∧
      labels "application" "count" path = [] := by
  intro path
  have hNames : Path.names path =
      ["src", "application", "account", "application", "settings", "Profile", "index.jsx"] := by
    decide +kernel
  have hOwn : ¬ ("shared" ≠ "" ∧ ∃ name ∈ Path.names path, "shared".toList <:+: name.toList) := by
    rw [hNames]
    decide +kernel
  have hShared : "count" ≠ "" ∧ ∃ name ∈ Path.names path, "count".toList <:+: name.toList := by
    rw [hNames]
    decide +kernel
  exact ⟨hOwn, (labels_exact "application" "shared" path).2.1 hOwn ["src"]
    ["account", "application", "settings"] "Profile" "index.jsx" hNames (by decide),
    (labels_exact "application" "count" path).1 hShared⟩

end SourceFile
end LocaleKeys
