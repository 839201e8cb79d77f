import LocaleKeys.Proofs.Numbering

/-! Segments of keys. A key without empty segments is spelled by its segments,
and then one key lies under another exactly when the segments of the second
begin those of the first. Numbers, suffixes and further segments leave a key
without empty segments. -/
namespace LocaleKeys.Key

/-- A piece holds characters of the text, and no separator. -/
theorem of_mem_splitOnP {p : Char → Bool} {text piece : List Char}
    (h : piece ∈ text.splitOnP p) : ∀ c ∈ piece, c ∈ text ∧ p c = false := by
  induction text generalizing piece with
  | nil =>
      obtain rfl : piece = [] := by simpa using h
      simp
  | cons d rest ih =>
      have hOld {other : List Char} (hOther : other ∈ rest.splitOnP p) (c : Char) (hC : c ∈ other) :
          c ∈ d :: rest ∧ p c = false := (ih hOther c hC).imp_left (List.mem_cons_of_mem _)
      rw [List.splitOnP_cons_eq_if_modifyHead] at h
      split at h
      · rcases List.mem_cons.mp h with rfl | hRest
        · simp
        · exact hOld hRest
      next hKept =>
        obtain ⟨first, others, hSplit⟩ := List.exists_cons_of_ne_nil (List.splitOnP_ne_nil p rest)
        rw [hSplit, List.modifyHead_cons] at h
        rcases List.mem_cons.mp h with rfl | hOther
        · have hFirst := @hOld first (by simp [hSplit])
          exact List.forall_mem_cons.mpr ⟨⟨List.mem_cons_self, by simpa using hKept⟩, hFirst⟩
        · exact hOld (by simp [hSplit, hOther])

theorem not_of_mem_splitOnP {p : Char → Bool} {text piece : List Char}
    (h : piece ∈ text.splitOnP p) : ∀ c ∈ piece, p c = false :=
  fun c hC => (of_mem_splitOnP h c hC).2

theorem dot_not_mem_of_mem_splitOn {text piece : List Char} (h : piece ∈ text.splitOn '.') :
    '.' ∉ piece := by
  intro hDot
  simpa using not_of_mem_splitOnP h '.' hDot

/-- What holds no dot is written behind the last piece. -/
theorem splitOn_append_of_dot_not_mem {more : List Char} (text : List Char) (h : '.' ∉ more) :
    ∃ front last, text.splitOn '.' = front ++ [last] ∧
      (text ++ more).splitOn '.' = front ++ [last ++ more] := by
  induction text with
  | nil => exact ⟨[], [], by simp, by simp [List.splitOn_eq_singleton h]⟩
  | cons c rest ih =>
      obtain ⟨front, last, hRest, hMore⟩ := ih
      rw [List.cons_append, List.splitOn_cons_eq_if_modifyHead, List.splitOn_cons_eq_if_modifyHead,
        hRest, hMore]
      split
      · exact ⟨[] :: front, last, rfl, rfl⟩
      · cases front with
        | nil => exact ⟨[], c :: last, rfl, rfl⟩
        | cons first others => exact ⟨(c :: first) :: others, last, rfl, rfl⟩

/-- No segment of the key is empty. -/
def Whole (key : String) : Prop := [] ∉ key.toList.splitOn '.'

instance (key : String) : Decidable (Whole key) := inferInstanceAs (Decidable (¬ _))

/-- Two keys with a dot between them have the pieces of both. -/
theorem splitOn_join (a b : String) :
    (a ++ "." ++ b).toList.splitOn '.' = a.toList.splitOn '.' ++ b.toList.splitOn '.' := by
  rw [String.toList_append, String.toList_append, List.append_assoc]
  exact List.splitOn_append_cons_self _ _

/-- The segments of two keys joined by a dot are those of the first and those of the
second. -/
theorem segments_join (a b : String) : segments (a ++ "." ++ b) = segments a ++ segments b := by
  simp only [segments, splitOn_join, List.filter_append, List.map_append]

/-- A joined key is whole when both parts are. Rewriting joins keys by dots, so candidates
stay whole. -/
theorem whole_join_iff {a b : String} : Whole (a ++ "." ++ b) ↔ Whole a ∧ Whole b := by
  rw [Whole, splitOn_join, List.mem_append, not_or]
  rfl

theorem Whole.append_number {base : String} (h : Whole base) (number : Nat) :
    Whole (base ++ toString number) := by
  obtain ⟨front, last, hSplit, hMore⟩ :=
    splitOn_append_of_dot_not_mem base.toList (dot_not_mem_number number)
  rw [Whole, hSplit] at h
  rw [Whole, String.toList_append, hMore]
  simp only [List.mem_append, List.mem_singleton, not_or] at h ⊢
  exact ⟨h.1, fun hEmpty => h.2 (List.append_eq_nil_iff.mp hEmpty.symm).1.symm⟩

/-- A text that can stand as a segment. -/
def IsSegment (segment : String) : Prop := segment ≠ "" ∧ '.' ∉ segment.toList

/-- The segments of any key are texts without a dot that are not empty, even if the key has
empty parts. -/
theorem isSegment_of_mem_segments {key segment : String} (h : segment ∈ segments key) :
    IsSegment segment := by
  obtain ⟨piece, hPiece, rfl⟩ := List.mem_map.mp h
  obtain ⟨hSplit, hFilled⟩ := List.mem_filter.mp hPiece
  rw [IsSegment, String.toList_ofList]
  exact ⟨by simpa using hFilled, dot_not_mem_of_mem_splitOn hSplit⟩

theorem IsSegment.splitOn {segment : String} (h : IsSegment segment) :
    segment.toList.splitOn '.' = [segment.toList] := List.splitOn_eq_singleton h.2

theorem IsSegment.whole {segment : String} (h : IsSegment segment) : Whole segment := by
  rw [Whole, h.splitOn, List.mem_singleton, eq_comm, String.toList_eq_nil_iff]
  exact h.1

/-- A whole key loses nothing when it is split at its dots. -/
theorem segments_of_whole {key : String} (h : Whole key) :
    segments key = (key.toList.splitOn '.').map String.ofList := by
  have hFilled : (key.toList.splitOn '.').filter (· ≠ []) = key.toList.splitOn '.' := by
    refine List.filter_eq_self.mpr fun piece hPiece => decide_eq_true fun hEmpty => h ?_
    rwa [← hEmpty]
  rw [segments, hFilled]

theorem segments_ne_nil_of_whole {key : String} (h : Whole key) : segments key ≠ [] := by
  rw [segments_of_whole h, ne_eq, List.map_eq_nil_iff]
  exact List.splitOn_ne_nil _ _

/-- A key without empty segments is written with its segments. -/
theorem ofSegments_segments {key : String} (h : Whole key) : ofSegments (segments key) = key := by
  rw [segments_of_whole h, ofSegments, List.map_map]
  have hList : (key.toList.splitOn '.').map (String.toList ∘ String.ofList) =
      key.toList.splitOn '.' := by simp [Function.comp_def]
  rw [hList, List.intercalate_splitOn, String.ofList_toList]

theorem ofSegments_singleton (segment : String) : ofSegments [segment] = segment := by
  simp [ofSegments]

/-- Keys are joined by a dot when their lists of segments are put together. -/
theorem ofSegments_append {front back : List String} (hFront : front ≠ []) (hBack : back ≠ []) :
    ofSegments (front ++ back) = ofSegments front ++ "." ++ ofSegments back := by
  induction front with
  | nil => exact absurd rfl hFront
  | cons first others ih =>
      obtain ⟨next, rest, rfl⟩ := List.exists_cons_of_ne_nil hBack
      have hCons (a b : String) (tail : List String) :
          ofSegments (a :: b :: tail) = a ++ "." ++ ofSegments (b :: tail) := by
        apply String.toList_inj.mp
        simp [ofSegments, List.intercalate_cons_cons]
      cases others with
      | nil => rw [List.singleton_append, hCons, ofSegments_singleton]
      | cons second others =>
          rw [List.cons_append, List.cons_append, hCons, hCons, ← List.cons_append,
            ih (List.cons_ne_nil _ _)]
          simp only [String.append_assoc]

theorem splitOn_ofSegments {written : List String} (hSome : written ≠ [])
    (h : ∀ segment ∈ written, IsSegment segment) :
    (ofSegments written).toList.splitOn '.' = written.map String.toList := by
  rw [ofSegments, String.toList_ofList]
  refine List.splitOn_intercalate '.' ?_ (by simpa using hSome)
  intro piece hPiece
  obtain ⟨segment, hSegment, rfl⟩ := List.mem_map.mp hPiece
  exact (h segment hSegment).2

/-- A key that is written with segments is whole, and with `segments_ofSegments` the segments
are read back from it. -/
theorem whole_ofSegments {written : List String} (hSome : written ≠ [])
    (h : ∀ segment ∈ written, IsSegment segment) : Whole (ofSegments written) := by
  rw [Whole, splitOn_ofSegments hSome h]
  intro hEmpty
  obtain ⟨segment, hSegment, hNil⟩ := List.mem_map.mp hEmpty
  exact (h segment hSegment).1 (String.toList_eq_nil_iff.mp hNil)

/-- Segments are read back from the key that is written with them. -/
theorem segments_ofSegments {written : List String} (hSome : written ≠ [])
    (h : ∀ segment ∈ written, IsSegment segment) : segments (ofSegments written) = written := by
  rw [segments_of_whole (whole_ofSegments hSome h), splitOn_ofSegments hSome h]
  simp [Function.comp_def]

/-- A suffix puts no empty segment behind a candidate. -/
theorem Whole.extend {candidate : String} (h : Whole candidate) (suffix : String) :
    Whole (extend candidate suffix) := by
  have hSuffix : ∀ segment ∈ segments suffix, IsSegment segment :=
    fun _ hSegment => isSegment_of_mem_segments hSegment
  rw [Key.extend]
  generalize segments suffix = written at hSuffix ⊢
  induction written generalizing candidate with
  | nil => exact h
  | cons segment rest ih =>
      obtain ⟨hFirst, hRest⟩ := List.forall_mem_cons.mp hSuffix
      exact ih (whole_join_iff.mpr ⟨h, hFirst.whole⟩) hRest

/-- A key that lies under another one goes on with a dot behind it. -/
theorem eq_join_of_under {descendant ancestor : String} (h : Under descendant ancestor) :
    ∃ rest, descendant = ancestor ++ "." ++ rest := by
  obtain ⟨rest, hRest⟩ := h
  refine ⟨String.ofList rest, String.toList_inj.mp ?_⟩
  rw [← hRest]
  simp

/-- Without empty segments a key stands at or under the keys that its segments
begin with, and no others. -/
theorem within_iff_segments {key stem : String} (hKey : Whole key) (hStem : Whole stem) :
    Within key stem ↔ segments stem <+: segments key := by
  constructor
  · rintro (rfl | hUnder)
    · exact List.prefix_refl _
    · obtain ⟨rest, rfl⟩ := eq_join_of_under hUnder
      exact ⟨segments rest, (segments_join stem rest).symm⟩
  · rintro ⟨rest, hRest⟩
    have hSpelled := ofSegments_segments hKey
    rw [← hRest] at hSpelled
    cases rest with
    | nil =>
        rw [List.append_nil, ofSegments_segments hStem] at hSpelled
        exact .inl hSpelled.symm
    | cons segment rest =>
        rw [ofSegments_append (segments_ne_nil_of_whole hStem) (List.cons_ne_nil _ _),
          ofSegments_segments hStem] at hSpelled
        refine .inr ⟨(ofSegments (segment :: rest)).toList, ?_⟩
        rw [← hSpelled]
        simp

end LocaleKeys.Key
