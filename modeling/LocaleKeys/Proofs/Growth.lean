import LocaleKeys.Proofs.Placement

/-! A table grows in one way only while texts are placed in it: its entries stay
as they are, and a new key is related to no other. A search that met an obstacle
meets an obstacle of the same kind in every later table. -/
namespace LocaleKeys.Table

open Key (Under Related)

/-- How a table grows while texts are placed in it. -/
structure Grows (t later : Table) : Prop where
  keeps : ∀ key text, t.lookup key = some text → later.lookup key = some text
  apart : ∀ key ∈ later.keys, key ∉ t.keys → ∀ stored ∈ later.keys, ¬ Related key stored

namespace Grows

theorem refl (t : Table) : t.Grows t :=
  ⟨fun _ _ h => h, fun _ hKey hNew => absurd hKey hNew⟩

theorem mem_keys {t later : Table} (h : t.Grows later) {key : String} (hKey : key ∈ t.keys) :
    key ∈ later.keys := by
  cases hLookup : t.lookup key with
  | none => exact absurd hKey (lookup_eq_none_iff.mp hLookup)
  | some text => exact mem_keys_of_lookup (h.keeps key text hLookup)

theorem trans {a b c : Table} (hFirst : a.Grows b) (hSecond : b.Grows c) : a.Grows c where
  keeps := fun key text hLookup => hSecond.keeps key text (hFirst.keeps key text hLookup)
  apart := by
    intro key hKey hNew stored hStored hRelated
    by_cases hMiddle : key ∈ b.keys
    · by_cases hOld : stored ∈ b.keys
      · exact hFirst.apart key hMiddle hNew stored hOld hRelated
      · exact hSecond.apart stored hStored hOld key hKey hRelated.symm
    · exact hSecond.apart key hKey hMiddle stored hStored hRelated

/-- A key that is related to a stored one stays absent: no later table takes it. -/
theorem lookup_eq_none {t later : Table} (h : t.Grows later) {key stored : String}
    (hLookup : t.lookup key = none) (hStored : stored ∈ t.keys) (hRelated : Related key stored) :
    later.lookup key = none := by
  rw [lookup_eq_none_iff] at hLookup ⊢
  intro hKey
  exact h.apart key hKey hLookup stored (h.mem_keys hStored) hRelated

/-- No key is put above a key that has stored keys under it: it would lie above
those, too. -/
theorem not_under {t later : Table} (h : t.Grows later) {key descendant : String}
    (hNone : ∀ stored ∈ t.keys, ¬ Under key stored) (hStored : descendant ∈ t.keys)
    (hUnder : Under descendant key) : ∀ stored ∈ later.keys, ¬ Under key stored := by
  intro stored hLater hAbove
  by_cases hOld : stored ∈ t.keys
  · exact hNone stored hOld hAbove
  · exact h.apart stored hLater hOld descendant (h.mem_keys hStored) (.inr (hUnder.trans hAbove))

/-- An obstacle stays an obstacle and sends a search to the same next probe. -/
theorem judge_of_not_ends {t later : Table} (h : t.Grows later) {text key : String}
    (hGoes : (t.judge text key).ends = false) :
    (later.judge text key).ends = false ∧
      ∀ p : Probe, p.next (later.judge text key) = p.next (t.judge text key) := by
  have hSays := t.judge_says text key
  cases hJudge : t.judge text key with
  | matched | free => simp [hJudge, Verdict.ends] at hGoes
  | taken =>
      obtain ⟨stored, hLookup, hText⟩ := judge_eq_taken_iff.mp hJudge
      rw [judge_eq_taken_iff.mpr ⟨stored, h.keeps key stored hLookup, hText⟩]
      exact ⟨rfl, fun _ => rfl⟩
  | under ancestor =>
      rw [hJudge] at hSays
      obtain ⟨hLookup, hStored, hUnder⟩ := hSays
      obtain ⟨other, hLater⟩ := exists_judge_eq_under text
        (h.lookup_eq_none hLookup hStored (.inl hUnder)) (h.mem_keys hStored) hUnder
      rw [hLater]
      exact ⟨rfl, fun _ => rfl⟩
  | above descendant =>
      rw [hJudge] at hSays
      obtain ⟨hLookup, hNone, hStored, hUnder⟩ := hSays
      obtain ⟨other, hLater⟩ := exists_judge_eq_above text
        (h.lookup_eq_none hLookup hStored (.inr hUnder)) (h.not_under hNone hStored hUnder)
        (h.mem_keys hStored) hUnder
      rw [hLater]
      exact ⟨rfl, fun _ => rfl⟩

/-- Once a later table holds the text under the key that a search found, the
same search takes the same probes there and matches. -/
theorem search_eq_matched {t later : Table} (h : t.Grows later) {text suffix : String}
    {attempts : Nat} {p : Probe} {outcome : Outcome}
    (hSearch : t.search text suffix attempts p = some outcome)
    (hLookup : later.lookup outcome.key = some text) :
    later.search text suffix attempts p = some (.matched outcome.key) := by
  induction attempts generalizing p with
  | zero => cases hSearch
  | succ attempts ih =>
      rcases search_succ_eq_some_iff.mp hSearch with ⟨hKey, _⟩ | ⟨hEnds, hRest⟩
      · rw [← hKey] at hLookup ⊢
        exact search_of_matched (judge_eq_matched_iff.mpr hLookup)
      · obtain ⟨hLaterEnds, hNext⟩ := h.judge_of_not_ends hEnds
        rw [search_of_not_ends hLaterEnds, hNext]
        exact ih hRest

end Grows

/-- A new key that is related to no stored key makes a table grow. -/
theorem grows_insert {t : Table} {key : String} (text : String) (hLookup : t.lookup key = none)
    (hFree : ∀ stored ∈ t.keys, ¬ Related key stored) : t.Grows (t.insert key text) where
  keeps := by
    intro other stored hOther
    rw [lookup_insert, if_neg, hOther]
    rintro rfl
    simp [hLookup] at hOther
  apart := by
    intro other hOther hNew stored hStored
    obtain rfl : other = key := (mem_keys_insert.mp hOther).resolve_right hNew
    rcases mem_keys_insert.mp hStored with rfl | hStored
    · exact Key.not_related_self stored
    · exact hFree stored hStored

/-- A text that was placed is stored under its key, in a table that has grown. -/
theorem after_of_place {t : Table} {limit : Nat} {text candidate suffix : String}
    {outcome : Outcome} (h : t.place limit text candidate suffix = .ok outcome) :
    t.Grows (t.after text outcome) ∧ (t.after text outcome).lookup outcome.key = some text := by
  have hJudge := judge_of_search (place_eq_ok_iff.mp h)
  cases outcome with
  | matched key => exact ⟨.refl t, judge_eq_matched_iff.mp hJudge⟩
  | inserted key =>
      obtain ⟨hLookup, hFree⟩ := judge_eq_free_iff.mp hJudge
      exact ⟨grows_insert text hLookup hFree, by simp [after, Outcome.key, lookup_insert]⟩

/-- Placing a text makes no overlap. -/
theorem overlaps_after_of_place {t : Table} {limit : Nat} {text candidate suffix : String}
    {outcome : Outcome} (h : t.place limit text candidate suffix = .ok outcome) :
    (t.after text outcome).overlaps = t.overlaps := by
  cases outcome with
  | matched key => rfl
  | inserted key =>
      obtain ⟨hLookup, hFree⟩ := judge_eq_free_iff.mp (judge_of_search (place_eq_ok_iff.mp h))
      exact overlaps_insert_of_unrelated text (lookup_eq_none_iff.mp hLookup) hFree

end LocaleKeys.Table
