import LocaleKeys.Proofs.Context
import LocaleKeys.Proofs.Directories
import LocaleKeys.Proofs.LetterRuns

/-! Labels with a role. Settings are checked role by role, and a scheme cuts and cleans a
role by the rule of that check, so under settings without a fault no label that has a role
vanishes from the keys. The roles of known tags need no check: they start with a letter, so
every limit but zero leaves some of it. -/
namespace LocaleKeys

namespace Scheme

/-- A label is known by a role: by the one that the scheme gives it, and where it gives none,
by the one of a known tag. -/
inductive Knows (s : Scheme) (label : String) : String → Prop
  | given {role : String} (hGiven : s.roles.lookup label = some role) : Knows s label role
  | tag {role : String} (hOther : s.roles.lookup label = none) (hTag : tagRole label = some role) :
      Knows s label role

variable {s : Scheme} {label role : String} {labels : List String}

theorem Knows.role_eq (h : s.Knows label role) : s.role label = role := by
  cases h with
  | given hGiven => simp [Scheme.role, hGiven]
  | tag hOther hTag => simp [Scheme.role, hOther, hTag]

/-- Labels are known by one list of roles at most. -/
theorem eq_map_role_of_knows {roles : List String} (h : List.Forall₂ s.Knows labels roles) :
    roles = labels.map s.role := by
  induction h with
  | nil => rfl
  | cons hKnows _ ih => rw [List.map_cons, hKnows.role_eq, ih]

theorem knows_role (h : label ∈ s.roles.keys ∨ (tagRole label).isSome = true) :
    s.Knows label (s.role label) := by
  cases hGiven : s.roles.lookup label with
  | some role =>
      have hKnows : s.Knows label role := .given hGiven
      rwa [hKnows.role_eq]
  | none =>
      have hNone : label ∉ s.roles.keys := Table.lookup_eq_none_iff.mp hGiven
      obtain ⟨role, hTag⟩ := Option.isSome_iff_exists.mp (h.resolve_left hNone)
      have hKnows : s.Knows label role := .tag hGiven hTag
      rwa [hKnows.role_eq]

/-- The roles of tags start with a letter, which every limit but zero leaves. -/
theorem segment_tagRole_ne_empty {limit : Nat} (hLimit : 0 < limit)
    (h : tagRole label = some role) : Label.segment limit role ≠ "" := by
  have hFirst : Label.segment 1 role ≠ "" := by
    unfold tagRole at h
    split at h <;> cases h <;> decide +kernel
  have hPrefix := Label.segment_prefix_of_le (Nat.succ_le_of_lt hLimit) role
  intro hEmpty
  rw [hEmpty] at hPrefix
  exact hFirst (String.toList_eq_nil_iff.mp (List.prefix_nil.mp hPrefix))

theorem spelled_eq_map (hLabels : "" ∉ labels)
    (h : ∀ label ∈ labels, Label.segment s.maxSegmentLength (s.role label) ≠ "") :
    s.spelled labels = labels.map fun label => Label.segment s.maxSegmentLength (s.role label) := by
  have hKept : labels.filter (· ≠ "") = labels :=
    List.filter_eq_self.mpr fun label hLabel => decide_eq_true (ne_of_mem_of_not_mem hLabel hLabels)
  rw [spelled, hKept, List.filter_eq_self]
  intro segment hSegment
  obtain ⟨label, hLabel, rfl⟩ := List.mem_map.mp hSegment
  exact decide_eq_true (h label hLabel)

/-- A candidate is written with what its labels are spelled with, if that is anything. -/
theorem candidate_of_segments {found : List String} (h : s.segments labels = found)
    (hSome : found ≠ []) (text : String) :
    s.candidate text labels = Key.ofSegments found ∧ s.place labels = Key.ofSegments found := by
  obtain ⟨first, rest, rfl⟩ := List.exists_cons_of_ne_nil hSome
  rw [candidate, place, h]
  exact ⟨rfl, rfl⟩

end Scheme

namespace Settings

variable {s : Settings} {label role : String}

/-- Settings with which keys can be made, and no role vanishes from them. -/
structure Valid (s : Settings) : Prop where
  length : 0 < s.maxSegmentLength
  iterations : 0 < s.maxIterations
  roles : ∀ label role, s.labels.lookup label = some role →
    Label.segment s.maxSegmentLength role ≠ ""

/-- The check of settings finds no fault exactly when they are valid. -/
theorem fault?_eq_none_iff : s.fault? = none ↔ s.Valid := by
  rw [fault?]
  split
  next hZero => simpa using fun h : s.Valid => absurd hZero h.length.ne'
  next hLength =>
    split
    next hZero => simpa using fun h : s.Valid => absurd hZero h.iterations.ne'
    next hIterations =>
      rw [Option.map_eq_none_iff, List.find?_eq_none]
      constructor
      · intro hRoles
        refine ⟨Nat.pos_of_ne_zero hLength, Nat.pos_of_ne_zero hIterations, fun label role h => ?_⟩
        simpa using hRoles (label, role) (Table.mem_entries_iff.mpr h)
      · intro hValid entry hEntry
        simpa using hValid.roles entry.1 entry.2 (Table.mem_entries_iff.mp hEntry)

theorem valid_default : ({} : Settings).Valid where
  length := by decide
  iterations := by decide
  roles := fun _ _ h => by cases h

/-- Under valid settings a role leaves a segment, wherever it comes from. -/
theorem Valid.segment_ne_empty (h : s.Valid) (hKnows : s.scheme.Knows label role) :
    Label.segment s.maxSegmentLength role ≠ "" := by
  cases hKnows with
  | given hGiven => exact h.roles label role hGiven
  | tag _ hTag => exact Scheme.segment_tagRole_ne_empty h.length hTag

/-- Labels with a role never vanish from the keys of settings without a fault. Each gives one
segment, in order, which is the one of its role: of the role that the settings give it, and
where they give none, of the one of the tag. So a candidate is written with these segments,
which can be read back from it, and it is not the placeholder. -/
theorem segments_of_known_labels (s : Settings) (labels : List String) (text : String)
    (hValid : s.fault? = none) (hUnmarked : s.rootMarker ∉ labels)
    (hKnown : ∀ label ∈ labels,
      label ≠ "" ∧ (label ∈ s.labels.keys ∨ (Scheme.tagRole label).isSome = true)) :
    ∃ roles, List.Forall₂ s.namer.scheme.Knows labels roles ∧
      let found := roles.map (Label.segment s.maxSegmentLength)
      s.namer.scheme.segments labels = found ∧ found.length = labels.length ∧ "" ∉ found ∧
      (labels ≠ [] →
        s.namer.scheme.candidate text labels = Key.ofSegments found ∧
        s.namer.scheme.place labels = Key.ofSegments found ∧
        Key.segments (Key.ofSegments found) = found ∧
        Key.ofSegments found ≠ Scheme.placeholder) := by
  have hSettings : s.Valid := fault?_eq_none_iff.mp hValid
  have hKnows (label : String) (hLabel : label ∈ labels) :
      s.scheme.Knows label (s.scheme.role label) := Scheme.knows_role (hKnown label hLabel).2
  have hFilled (label : String) (hLabel : label ∈ labels) :=
    hSettings.segment_ne_empty (hKnows label hLabel)
  have hNamed : "" ∉ labels := fun hEmpty => (hKnown "" hEmpty).1 rfl
  have hSegments : s.scheme.segments labels =
      (labels.map s.scheme.role).map (Label.segment s.maxSegmentLength) := by
    rw [Scheme.segments_of_not_mem hUnmarked, Scheme.spelled_eq_map hNamed hFilled, List.map_map]
    rfl
  refine ⟨labels.map s.scheme.role, ?_, hSegments, by simp, ?_, fun hSome => ?_⟩
  · exact List.forall₂_map_right_iff.mpr (List.forall₂_same.mpr hKnows)
  · simpa using hFilled
  · have hFound : s.scheme.segments labels ≠ [] := by simp [hSegments, hSome]
    obtain ⟨hCandidate, hPlace⟩ := Scheme.candidate_of_segments rfl hFound text
    have hWritten := Scheme.written_segments hFound text
    have hRead := Key.segments_ofSegments hFound fun segment hSegment =>
      (hWritten.words segment hSegment).1.isSegment
    have hOther := hWritten.ne_placeholder
    rw [hSegments] at hCandidate hPlace hRead hOther
    exact ⟨hCandidate, hPlace, hRead, hOther⟩

/-- One role wins over that of a tag and starts with separators, another one with a capital,
and the limit is low. -/
theorem segments_of_card :
    let s : Settings :=
      { maxSegmentLength := 5, labels := .ofList [("p", "--Text"), ("Button", "Action")] }
    s.fault? = none ∧ s.rootMarker ∉ ["p", "Button", "h2"] ∧
      s.namer.scheme.segments ["p", "Button", "h2"] = ["te", "acti", "headi"] ∧
      s.namer.scheme.candidate "Save" ["p", "Button", "h2"] = "te.acti.headi" := by
  intro s
  have hValid : s.fault? = none := by decide +kernel
  have hUnmarked : s.rootMarker ∉ ["p", "Button", "h2"] := by decide
  have hKnown : ∀ label ∈ ["p", "Button", "h2"],
      label ≠ "" ∧ (label ∈ s.labels.keys ∨ (Scheme.tagRole label).isSome = true) := by
    decide +kernel
  obtain ⟨roles, hRoles, hFound, _, _, hSome⟩ :=
    segments_of_known_labels s ["p", "Button", "h2"] "Save" hValid hUnmarked hKnown
  have hWritten : roles.map (Label.segment s.maxSegmentLength) = ["te", "acti", "headi"] := by
    rw [Scheme.eq_map_role_of_knows hRoles]
    decide +kernel
  have hCandidate := (hSome (by simp)).1
  rw [hWritten] at hFound hCandidate
  exact ⟨hValid, hUnmarked, hFound, hCandidate.trans (by decide)⟩

end Settings

namespace SettingsFile

/-- Settings that were loaded, or hold where there is no file, are valid. -/
theorem Holds.valid {files : FileSystem} {directory : String} {loaded : Settings × Option String}
    (h : Holds files directory loaded) : loaded.1.Valid := by
  rw [Holds] at h
  split at h
  · rw [h]
    exact Settings.valid_default
  · obtain ⟨text, settings, _, hParse, rfl⟩ := h
    rw [← Settings.fault?_eq_none_iff]
    rw [parse] at hParse
    split at hParse
    · cases hParse
    · split at hParse
      · cases hParse
      next hFault => exact Except.ok.inj hParse ▸ hFault

end SettingsFile
end LocaleKeys
