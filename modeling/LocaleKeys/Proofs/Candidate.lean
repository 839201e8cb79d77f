import LocaleKeys.Proofs.Segments
import LocaleKeys.Scheme

/-! Shape of candidates. Whatever characters labels, roles and texts hold, a
candidate is written with segments of letters and underscores. So it has no empty
segment, and no digit that could be taken for a number. -/
namespace LocaleKeys

/-- A segment of letters and underscores. -/
structure Key.PlainSegment (segment : String) : Prop where
  nonempty : segment ≠ ""
  plain : ∀ c ∈ segment.toList, c.isAlpha = true ∨ c = '_'

namespace Key.PlainSegment

variable {segment : String}

theorem dot_not_mem (h : PlainSegment segment) : '.' ∉ segment.toList := by
  intro hDot
  rcases h.plain '.' hDot with hAlpha | hSame
  · exact absurd hAlpha (by decide)
  · exact absurd hSame (by decide)

theorem isSegment (h : PlainSegment segment) : IsSegment segment := ⟨h.nonempty, h.dot_not_mem⟩

theorem not_isDigit (h : PlainSegment segment) : ∀ c ∈ segment.toList, c.isDigit = false := by
  intro c hC
  rcases h.plain c hC with hAlpha | rfl
  · -- Letters stand behind all digits.
    have hLetter : 'A'.toNat ≤ c.toNat := by
      rcases (Bool.or_eq_true _ _).mp hAlpha with hUpper | hLower
      · exact UInt32.le_iff_toNat_le.mp (of_decide_eq_true hUpper).1
      · have hSmall := of_decide_eq_true ((Bool.and_eq_true _ _).mp hLower).1
        exact Nat.le_trans (by decide) (UInt32.le_iff_toNat_le.mp hSmall)
    rw [Bool.eq_false_iff, ne_eq, Char.isDigit_iff_toNat]
    exact fun hDigit => absurd (Nat.le_trans hLetter hDigit.2) (by decide)
  · rfl

end Key.PlainSegment

namespace Label

/-- What stands in texts with a separator between them is a separator or stands
in one of them. -/
theorem mem_intercalate_singleton {separator c : Char} {texts : List (List Char)}
    (h : c ∈ [separator].intercalate texts) : c = separator ∨ ∃ text ∈ texts, c ∈ text := by
  induction texts with
  | nil => simp at h
  | cons first rest ih =>
      cases rest with
      | nil => exact .inr ⟨first, List.mem_cons_self, by simpa using h⟩
      | cons second rest =>
          rw [List.intercalate_cons_cons, List.mem_append, List.mem_append] at h
          rcases h with (hFirst | hSeparator) | hRest
          · exact .inr ⟨first, List.mem_cons_self, hFirst⟩
          · exact .inl (List.mem_singleton.mp hSeparator)
          · exact (ih hRest).imp_right fun ⟨text, hText, hC⟩ =>
              ⟨text, List.mem_cons_of_mem _ hText, hC⟩

/-- A run of letters holds letters only. -/
theorem isAlpha_of_mem_letterRuns {text run : List Char} (h : run ∈ letterRuns text) :
    ∀ c ∈ run, c.isAlpha = true := by
  intro c hC
  have hLetter := Key.not_of_mem_splitOnP (List.mem_filter.mp h).1 c hC
  simpa using hLetter

/-- The segment of a label is a text of letters and underscores. So it has no dot and no
digit, and a number behind it can be told from it. -/
theorem plainSegment_segment {limit : Nat} {label : String} (h : segment limit label ≠ "") :
    Key.PlainSegment (segment limit label) where
  nonempty := h
  plain := by
    intro c hC
    rw [segment, String.toList_ofList] at hC
    rcases mem_intercalate_singleton hC with hSeparator | ⟨run, hRun, hC⟩
    · exact .inr hSeparator
    · exact .inl (isAlpha_of_mem_letterRuns hRun c hC)

end Label

namespace Scheme

open Key (PlainSegment)

theorem plainSegment_placeholder : PlainSegment placeholder :=
  ⟨by decide, by simp [placeholder]⟩

theorem plainSegment_of_mem_segments {s : Scheme} {labels : List String} {segment : String}
    (h : segment ∈ s.segments labels) : PlainSegment segment := by
  obtain ⟨hMade, hFilled⟩ := List.mem_filter.mp h
  obtain ⟨label, _, rfl⟩ := List.mem_map.mp hMade
  exact Label.plainSegment_segment (by simpa using hFilled)

/-- The segment of a running text is plain too, and so is the placeholder that stands for
it. -/
theorem plainSegment_leaf (s : Scheme) (text : String) : PlainSegment (s.leaf text) := by
  rw [leaf]
  cases s.leafPolicy with
  | path => exact plainSegment_placeholder
  | text =>
      dsimp only
      split
      next => exact plainSegment_placeholder
      next h => exact Label.plainSegment_segment h

/-- A candidate is written with plain segments, and with one at least. -/
theorem candidate_eq_ofSegments (s : Scheme) (text : String) (labels : List String) :
    ∃ first rest, s.candidate text labels = Key.ofSegments (first :: rest) ∧
      ∀ segment ∈ first :: rest, PlainSegment segment := by
  have hPlain (segment : String) (h : segment ∈ s.segments labels) :=
    plainSegment_of_mem_segments h
  rw [candidate]
  cases hSegments : s.segments labels with
  | nil =>
      refine ⟨s.leaf text, [], (Key.ofSegments_singleton _).symm, fun segment hSegment => ?_⟩
      rw [List.mem_singleton.mp hSegment]
      exact s.plainSegment_leaf text
  | cons first rest => exact ⟨first, rest, rfl, hSegments ▸ hPlain⟩

/-- A candidate is a whole key, since it is written with segments or is one itself. -/
theorem whole_candidate (s : Scheme) (text : String) (labels : List String) :
    Key.Whole (s.candidate text labels) := by
  obtain ⟨first, rest, hCandidate, hPlain⟩ := s.candidate_eq_ofSegments text labels
  rw [hCandidate]
  exact Key.whole_ofSegments (List.cons_ne_nil _ _) fun segment hSegment =>
    (hPlain segment hSegment).isSegment

end Scheme
end LocaleKeys
