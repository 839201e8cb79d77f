import LocaleKeys.Proofs.Candidate
import Mathlib

/-! Spelling of candidates. Replacing what is no letter by underscores cuts a text into the
same runs of letters, so joining the filled runs leaves out underscores and nothing else:
a segment is no longer than what was cut to its limit. The runs are words of small letters,
since capitals have become small before, and a candidate is written with such words. -/
namespace LocaleKeys

namespace Key

/-- Words of small letters with one underscore between neighbours, and at least one word. -/
def WordSegment (segment : String) : Prop :=
  ∀ word ∈ segment.toList.splitOn '_', word ≠ [] ∧ ∀ c ∈ word, c.isLower = true

instance (segment : String) : Decidable (WordSegment segment) :=
  inferInstanceAs (Decidable (∀ word ∈ _, _))

/-- No underscore stands at the start, at the end or beside another one. -/
def Neat (segment : String) : Prop :=
  segment.toList.head? ≠ some '_' ∧ segment.toList.getLast? ≠ some '_' ∧
    ¬ ['_', '_'] <:+: segment.toList

namespace WordSegment

variable {segment : String}

/-- On both sides of an underscore there are words. -/
theorem sides {front back : List Char} (h : WordSegment segment)
    (hSegment : segment.toList = front ++ '_' :: back) :
    [] ∉ front.splitOn '_' ∧ [] ∉ back.splitOn '_' := by
  have hFilled (word : List Char) (hWord : word ∈ segment.toList.splitOn '_') := (h word hWord).1
  rw [hSegment, List.splitOn_append_cons_self] at hFilled
  exact ⟨fun hFront => hFilled [] (List.mem_append_left _ hFront) rfl,
    fun hBack => hFilled [] (List.mem_append_right _ hBack) rfl⟩

theorem neat (h : WordSegment segment) : Neat segment := by
  refine ⟨fun hHead => ?_, fun hLast => ?_, ?_⟩
  · obtain ⟨rest, hRest⟩ := List.head?_eq_some_iff.mp hHead
    rw [← List.nil_append ('_' :: rest)] at hRest
    exact (h.sides hRest).1 (by simp)
  · obtain ⟨front, hFront⟩ := List.getLast?_eq_some_iff.mp hLast
    exact (h.sides hFront).2 (by simp)
  · rintro ⟨front, back, hTwo⟩
    have hSegment : segment.toList = front ++ '_' :: ('_' :: back) := by simp [← hTwo]
    have hBack := (h.sides hSegment).2
    rw [List.splitOn_cons_eq_if_modifyHead] at hBack
    exact hBack (by simp)

theorem forall_mem (h : WordSegment segment) :
    ∀ c ∈ segment.toList, c.isLower = true ∨ c = '_' := by
  intro c hC
  have hJoined : ['_'].intercalate (segment.toList.splitOn '_') = segment.toList :=
    List.intercalate_splitOn '_'
  rw [← hJoined] at hC
  rcases Label.mem_intercalate_singleton hC with hSeparator | ⟨word, hWord, hLetter⟩
  · exact .inr hSeparator
  · exact .inl ((h word hWord).2 c hLetter)

theorem isSegment (h : WordSegment segment) : IsSegment segment := by
  constructor
  · rintro rfl
    exact (h [] (by simp)).1 rfl
  · intro hDot
    exact absurd (h.forall_mem '.' hDot) (by decide)

end WordSegment

/-- A key that is written with words has these words again for its segments. -/
theorem neat_of_mem_segments {written : List String} (hSome : written ≠ [])
    (h : ∀ segment ∈ written, WordSegment segment) :
    ∀ segment ∈ segments (ofSegments written), Neat segment := by
  rw [segments_ofSegments hSome fun segment hSegment => (h segment hSegment).isSegment]
  exact fun segment hSegment => (h segment hSegment).neat

theorem forall_mem_ofSegments {written : List String} (h : ∀ segment ∈ written, WordSegment segment) :
    ∀ c ∈ (ofSegments written).toList, c.isLower = true ∨ c = '_' ∨ c = '.' := by
  intro c hC
  rw [ofSegments, String.toList_ofList] at hC
  rcases Label.mem_intercalate_singleton hC with hDot | ⟨text, hText, hIn⟩
  · exact .inr (.inr hDot)
  · obtain ⟨segment, hSegment, rfl⟩ := List.mem_map.mp hText
    exact ((h segment hSegment).forall_mem c hIn).imp_right .inl

end Key

namespace Label

/-- A text with an underscore for each character that is no letter. -/
def underscored (text : List Char) : List Char := text.map fun c => if c.isAlpha then c else '_'

theorem underscored_cons (c : Char) (rest : List Char) :
    underscored (c :: rest) = (if c.isAlpha then c else '_') :: underscored rest := rfl

theorem splitOnP_eq_splitOn_underscored (text : List Char) :
    text.splitOnP (fun c => !c.isAlpha) = (underscored text).splitOn '_' := by
  induction text with
  | nil => rfl
  | cons c rest ih =>
      rw [List.splitOnP_cons_eq_if_modifyHead, ih, underscored_cons,
        List.splitOn_cons_eq_if_modifyHead]
      cases hLetter : c.isAlpha with
      | true =>
          have hNe : c ≠ '_' := by
            rintro rfl
            exact absurd hLetter (by decide)
          simp [hNe]
      | false => simp

/-- Without its empty pieces a joined text loses separators only. -/
theorem intercalate_filter_sublist (pieces : List (List Char)) :
    (['_'].intercalate (pieces.filter (· ≠ []))).Sublist (['_'].intercalate pieces) := by
  induction pieces with
  | nil => exact List.Sublist.refl _
  | cons piece rest ih =>
      cases rest with
      | nil =>
          by_cases hEmpty : piece = []
          · simp [hEmpty]
          · simp [hEmpty]
      | cons second more =>
          rw [List.intercalate_cons_cons]
          by_cases hEmpty : piece = []
          · rw [List.filter_cons_of_neg (by simpa using hEmpty)]
            exact ih.trans (List.sublist_append_right _ _)
          · rw [List.filter_cons_of_pos (by simpa using hEmpty)]
            cases hFilled : (second :: more).filter (· ≠ []) with
            -- Nothing else is filled, so no separator is written behind the piece.
            | nil =>
                rw [List.intercalate_singleton, List.append_assoc]
                exact List.sublist_append_left _ _
            | cons next others =>
                rw [List.intercalate_cons_cons, ← hFilled]
                exact (List.append_sublist_append_left _).mpr ih

theorem intercalate_letterRuns_sublist (text : List Char) :
    (['_'].intercalate (letterRuns text)).Sublist (underscored text) := by
  -- Joining all pieces, the empty ones too, gives the underscored text back.
  have hSublist := intercalate_filter_sublist (text.splitOnP fun c => !c.isAlpha)
  rw [splitOnP_eq_splitOn_underscored, List.intercalate_splitOn,
    ← splitOnP_eq_splitOn_underscored] at hSublist
  exact hSublist

theorem length_segment_le (limit : Nat) (label : String) : (segment limit label).length ≤ limit := by
  have hLength := (intercalate_letterRuns_sublist ((snakeCase label).toList.take limit)).length_le
  rw [underscored, List.length_map] at hLength
  rw [segment, ← String.length_toList, String.toList_ofList]
  exact hLength.trans (List.length_take_le _ _)

/-- Snake case leaves no capital. -/
theorem isLower_of_mem_snakeCase {label : String} {c : Char} (h : c ∈ (snakeCase label).toList)
    (hLetter : c.isAlpha = true) : c.isLower = true := by
  rw [snakeCase, String.toList_ofList, List.mem_flatMap] at h
  obtain ⟨d, _, hC⟩ := h
  split at hC
  next hUpper =>
    rcases List.mem_pair.mp hC with rfl | rfl
    · exact absurd hLetter (by decide)
    · rw [Char.isLower_toLower_eq_isAlpha, Char.isAlpha, hUpper, Bool.true_or]
  next hOther =>
    obtain rfl := List.mem_singleton.mp hC
    exact ((Bool.or_eq_true _ _).mp hLetter).resolve_left hOther

/-- A segment has its runs of letters for words. -/
theorem wordSegment_segment {limit : Nat} {label : String} (h : segment limit label ≠ "") :
    Key.WordSegment (segment limit label) := by
  have hSome : letterRuns ((snakeCase label).toList.take limit) ≠ [] := by
    intro hNone
    rw [segment, hNone] at h
    exact h rfl
  have hLetters (run : List Char) (hRun : run ∈ letterRuns ((snakeCase label).toList.take limit))
      (c : Char) (hC : c ∈ run) : c.isLower = true := by
    have hTaken := (Key.of_mem_splitOnP (List.mem_filter.mp hRun).1 c hC).1
    exact isLower_of_mem_snakeCase (List.mem_of_mem_take hTaken) (isAlpha_of_mem_letterRuns hRun c hC)
  have hApart (run : List Char) (hRun : run ∈ letterRuns ((snakeCase label).toList.take limit)) :
      '_' ∉ run := fun hC => absurd (hLetters run hRun '_' hC) (by decide)
  intro word hWord
  rw [segment, String.toList_ofList, List.splitOn_intercalate '_' hApart hSome] at hWord
  exact ⟨by simpa using (List.mem_filter.mp hWord).2, hLetters word hWord⟩

end Label

namespace Scheme

open Key (WordSegment Neat)

variable {s : Scheme} {labels : List String}

theorem wordSegment_of_mem_segments {segment : String} (h : segment ∈ s.segments labels) :
    WordSegment segment ∧ segment.length ≤ s.maxSegmentLength := by
  obtain ⟨hMade, hFilled⟩ := List.mem_filter.mp h
  obtain ⟨label, _, rfl⟩ := List.mem_map.mp hMade
  exact ⟨Label.wordSegment_segment (by simpa using hFilled), Label.length_segment_le _ _⟩

/-- Each label behind the marker gives one segment at most, and the segments keep the order
of their labels. -/
theorem segments_sublist (s : Scheme) (labels : List String) :
    (s.segments labels).Sublist ((afterMarker s.rootMarker labels).map fun label =>
      Label.segment s.maxSegmentLength (s.role label)) :=
  List.filter_sublist.trans (List.filter_sublist.map _)

/-- A candidate is written with segments of its labels, or else with one of the text. -/
structure Written (s : Scheme) (text : String) (labels written : List String) : Prop where
  nonempty : written ≠ []
  words : ∀ segment ∈ written, WordSegment segment ∧ segment.length ≤ s.maxSegmentLength
  source : (written = s.segments labels ∧
      written.length ≤ (afterMarker s.rootMarker labels).length) ∨
    (s.segments labels = [] ∧ s.leafPolicy = .text ∧
      written = [Label.textSegment s.maxSegmentLength text])

theorem written_segments (h : s.segments labels ≠ []) (text : String) :
    s.Written text labels (s.segments labels) where
  nonempty := h
  words := fun _ hSegment => wordSegment_of_mem_segments hSegment
  source := by
    refine .inl ⟨rfl, ?_⟩
    have hLength := (s.segments_sublist labels).length_le
    rwa [List.length_map] at hLength

theorem written_leaf {text : String} (h : s.segments labels = []) (hPolicy : s.leafPolicy = .text)
    (hLeaf : Label.textSegment s.maxSegmentLength text ≠ "") :
    s.Written text labels [Label.textSegment s.maxSegmentLength text] where
  nonempty := List.cons_ne_nil _ _
  words := by
    intro segment hSegment
    obtain rfl := List.mem_singleton.mp hSegment
    exact ⟨Label.wordSegment_segment hLeaf, Label.length_segment_le _ _⟩
  source := .inr ⟨h, hPolicy, rfl⟩

/-- The placeholder stands for a candidate exactly when there is nothing to write it with. -/
theorem candidate_cases (s : Scheme) (text : String) (labels : List String) :
    (s.candidate text labels = placeholder ∧ s.segments labels = [] ∧
      (s.leafPolicy = .text → Label.textSegment s.maxSegmentLength text = "")) ∨
    ∃ written, s.Written text labels written ∧ s.candidate text labels = Key.ofSegments written := by
  rw [candidate]
  cases hSegments : s.segments labels with
  | cons first rest =>
      have hWritten := written_segments (hSegments ▸ List.cons_ne_nil first rest) text
      exact .inr ⟨_, hWritten, by rw [hSegments]⟩
  | nil =>
      dsimp only
      rw [leaf]
      cases hPolicy : s.leafPolicy with
      | path => exact .inl ⟨rfl, rfl, fun hText => absurd hText (by decide)⟩
      | text =>
          dsimp only
          split
          next hEmpty => exact .inl ⟨rfl, rfl, fun _ => hEmpty⟩
          next hLeaf =>
            exact .inr ⟨_, written_leaf hSegments hPolicy hLeaf, (Key.ofSegments_singleton _).symm⟩

/-- The placeholder is no word. -/
theorem Written.ne_placeholder {text : String} {written : List String}
    (h : s.Written text labels written) : Key.ofSegments written ≠ placeholder := by
  intro hSame
  have hWords (segment : String) (hSegment : segment ∈ written) := (h.words segment hSegment).1
  have hRead := Key.segments_ofSegments h.nonempty fun segment hSegment =>
    (hWords segment hSegment).isSegment
  rw [hSame] at hRead
  exact absurd (hWords placeholder (hRead ▸ by decide)) (by decide)

/-- Candidates are well spelled, whatever the roles, the limit, the marker and the policy, and
whatever characters texts and labels hold. A candidate is the placeholder, exactly when
there is nothing else to write it with, or is written with words of small letters that keep
to the limit: with one segment at most for each label behind the marker, or with one of the
text. So it holds no other characters than small letters, underscores and dots, no empty
segment, and no underscore at an end of a segment or beside another one. -/
theorem candidate_well_spelled (s : Scheme) (text : String) (labels : List String) :
    (s.candidate text labels = placeholder ∨
      ∃ written, s.Written text labels written ∧ s.candidate text labels = Key.ofSegments written) ∧
    (s.candidate text labels = placeholder ↔ s.segments labels = [] ∧
      (s.leafPolicy = .text → Label.textSegment s.maxSegmentLength text = "")) ∧
    (∀ c ∈ (s.candidate text labels).toList, c.isLower = true ∨ c = '_' ∨ c = '.') ∧
    Key.Whole (s.candidate text labels) ∧
    (s.candidate text labels ≠ placeholder →
      ∀ segment ∈ Key.segments (s.candidate text labels), Neat segment) := by
  rcases s.candidate_cases text labels with ⟨hCandidate, hNothing⟩ | ⟨written, hWritten, hCandidate⟩
  · refine ⟨.inl hCandidate, ⟨fun _ => hNothing, fun _ => hCandidate⟩, ?_, s.whole_candidate text labels,
      fun hOther => absurd hCandidate hOther⟩
    rw [hCandidate]
    simp [placeholder]
  · have hWords (segment : String) (hSegment : segment ∈ written) :=
      (hWritten.words segment hSegment).1
    refine ⟨.inr ⟨written, hWritten, hCandidate⟩, ⟨?_, ?_⟩, ?_, s.whole_candidate text labels,
      fun _ => ?_⟩
    · intro hSame
      exact absurd (hCandidate.symm.trans hSame) hWritten.ne_placeholder
    · rintro ⟨hNone, hLeaf⟩
      rcases hWritten.source with ⟨hSame, _⟩ | ⟨_, hPolicy, hSame⟩
      · exact absurd (hSame.trans hNone) hWritten.nonempty
      · rw [hLeaf hPolicy] at hSame
        exact absurd (hWords "" (by simp [hSame])) (by decide)
    · rw [hCandidate]
      exact Key.forall_mem_ofSegments hWords
    · rw [hCandidate]
      exact Key.neat_of_mem_segments hWritten.nonempty hWords

/-- A role of digits and dots, a label of separators and a limit that cuts within a run. -/
theorem odd_labels_are_well_spelled :
    let s : Scheme := { roles := .ofList [("h2", "4.Über_"), ("b", "1.2")], maxSegmentLength := 7 }
    let candidate := s.candidate "Save" ["src", "application", "UserName", "--", "h2", "b"]
    candidate = "user_n.ber" ∧ candidate ≠ placeholder ∧
      ∀ segment ∈ Key.segments candidate, Neat segment := by
  intro s candidate
  have hCandidate : candidate = "user_n.ber" := by decide +kernel
  have hOther : candidate ≠ placeholder := by
    rw [hCandidate]
    decide
  exact ⟨hCandidate, hOther, (s.candidate_well_spelled _ _).2.2.2.2 hOther⟩

end Scheme
end LocaleKeys
