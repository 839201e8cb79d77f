import LocaleKeys.Proofs.Candidate
import LocaleKeys.Proofs.Flattening
import LocaleKeys.Proofs.History

/-! Tables that come back from their trees. A table is read back from its tree
exactly when none of its keys has an empty segment beside others and no way goes
on where another ends. The keys that a namer makes keep both. -/
namespace LocaleKeys

namespace Key

/-- Written with its segments and nothing else, or without any segment. -/
def Spelled (key : String) : Prop := Whole key ∨ segments key = []

instance (key : String) : Decidable (Spelled key) := inferInstanceAs (Decidable (_ ∨ _))

theorem ofSegments_cons_cons (first second : String) (rest : List String) :
    ofSegments (first :: second :: rest) = ofSegments ((first ++ "." ++ second) :: rest) := by
  apply String.toList_inj.mp
  cases rest <;> simp [ofSegments, List.intercalate_cons_cons]

end Key

namespace Tree

open Key (Spelled Whole)

theorem foldl_under {above : String} (h : above ≠ "") (names : List String) :
    names.foldl under above = Key.ofSegments (above :: names) := by
  induction names generalizing above with
  | nil => exact (Key.ofSegments_singleton above).symm
  | cons name rest ih =>
      have hNe : above ++ "." ++ name ≠ "" := by simp [h]
      rw [List.foldl_cons, under, if_neg h, ih hNe, Key.ofSegments_cons_cons]

theorem way_of_segments_ne_nil {key : String} (h : Key.segments key ≠ []) :
    way key = Key.segments key := by
  rw [way]
  split
  next hNone => exact absurd hNone h
  next => rfl

theorem way_of_segments_eq_nil {key : String} (h : Key.segments key = []) : way key = [key] := by
  rw [way, h]

/-- Flattening writes the way of a key with its segments. -/
theorem dotted_way (key : String) : dotted (way key) = Key.ofSegments (way key) := by
  by_cases hNone : Key.segments key = []
  · rw [way_of_segments_eq_nil hNone, Key.ofSegments_singleton]
    rfl
  · rw [way_of_segments_ne_nil hNone]
    cases hSegments : Key.segments key with
    | nil => exact absurd hSegments hNone
    | cons first rest =>
        have hMem : first ∈ Key.segments key := by simp [hSegments]
        exact foldl_under (Key.isSegment_of_mem_segments hMem).1 rest

/-- A key that is spelled by its segments comes back from its way. Other keys have lost their
empty parts on it. -/
theorem dotted_way_of_spelled {key : String} (h : Spelled key) : dotted (way key) = key := by
  rw [dotted_way]
  rcases h with hWhole | hNone
  · rw [way_of_segments_ne_nil (Key.segments_ne_nil_of_whole hWhole),
      Key.ofSegments_segments hWhole]
  · rw [way_of_segments_eq_nil hNone, Key.ofSegments_singleton]

theorem spelled_dotted_way (key : String) : Spelled (dotted (way key)) := by
  rw [dotted_way]
  by_cases hNone : Key.segments key = []
  · rw [way_of_segments_eq_nil hNone, Key.ofSegments_singleton]
    exact .inr hNone
  · rw [way_of_segments_ne_nil hNone]
    exact .inl (Key.whole_ofSegments hNone fun _ => Key.isSegment_of_mem_segments)

/-- The key read back from the way of a key has the same way. -/
theorem way_dotted_way (key : String) : way (dotted (way key)) = way key := by
  rw [dotted_way]
  by_cases hNone : Key.segments key = []
  · rw [way_of_segments_eq_nil hNone, Key.ofSegments_singleton, way_of_segments_eq_nil hNone]
  · rw [way_of_segments_ne_nil hNone]
    have hSame : Key.segments (Key.ofSegments (Key.segments key)) = Key.segments key :=
      Key.segments_ofSegments hNone fun _ => Key.isSegment_of_mem_segments
    rw [way_of_segments_ne_nil (by rwa [hSame]), hSame]

theorem way_of_whole {key : String} (h : Whole key) : way key = Key.segments key :=
  way_of_segments_ne_nil (Key.segments_ne_nil_of_whole h)

/-- A key without segments is no segment of another. -/
theorem not_mem_segments_of_segments_eq_nil {key other : String} (h : Key.segments key = []) :
    key ∉ Key.segments other := by
  intro hMem
  have hWhole := (Key.isSegment_of_mem_segments hMem).whole
  exact Key.segments_ne_nil_of_whole hWhole h

/-- The way of a key without segments is a part of no other way. -/
theorem eq_of_way_prefix_of_segments_eq_nil {a b : String} (hA : Key.segments a = [])
    (h : way a <+: way b) : a = b := by
  rw [way_of_segments_eq_nil hA] at h
  have hMem : a ∈ way b := h.subset List.mem_cons_self
  by_cases hB : Key.segments b = []
  · rw [way_of_segments_eq_nil hB] at hMem
    exact List.mem_singleton.mp hMem
  · rw [way_of_segments_ne_nil hB] at hMem
    exact absurd hMem (not_mem_segments_of_segments_eq_nil hA)

/-- A way that goes on where another ends shows that a key lies under the other. -/
theorem eq_or_under_of_way_prefix {a b : String} (hA : Spelled a) (hB : Spelled b)
    (h : way a <+: way b) : a = b ∨ Key.Under b a := by
  rcases hA with hA | hA
  · rw [way_of_whole hA] at h
    rcases hB with hB | hB
    · rw [way_of_whole hB, ← Key.within_iff_segments hB hA] at h
      exact h.imp_left Eq.symm
    · rw [way_of_segments_eq_nil hB] at h
      obtain ⟨segment, hSegment⟩ := List.exists_mem_of_ne_nil _ (Key.segments_ne_nil_of_whole hA)
      obtain rfl := List.mem_singleton.mp (h.subset hSegment)
      exact absurd hSegment (not_mem_segments_of_segments_eq_nil hB)
  · exact .inl (eq_of_way_prefix_of_segments_eq_nil hA h)

/-- A tree is flattened to the table of the texts at its endings. All results on flattening
start from this. -/
theorem flatten_eq (value : Json) :
    flatten value = Table.ofList ((endings value).filterMap fun ending =>
      ending.2.text?.map fun text => (dotted ending.1, text)) := by
  rw [flatten, leaves_eq, List.filterMap_map]
  rfl

/-- The keys of a flattened tree are the dotted paths to its texts. -/
theorem mem_keys_flatten {value : Json} {key : String} :
    key ∈ (flatten value).keys ↔
      ∃ text path, (path, .string text) ∈ endings value ∧ dotted path = key := by
  have hText (leaf : Json) (text : String) : leaf.text? = some text ↔ leaf = .string text := by
    cases leaf <;> simp [Json.text?]
  rw [flatten_eq, Table.mem_keys_ofList]
  simp [hText]

end Tree

/-- No other key has the way of the key or goes on where it ends. -/
def Table.StandsAlone (t : Table) (key : String) : Prop :=
  ∀ other ∈ t.keys, Tree.way key <+: Tree.way other → key = other

instance (t : Table) (key : String) : Decidable (t.StandsAlone key) :=
  inferInstanceAs (Decidable (∀ other ∈ t.keys, _))

/-- No two keys have one way, and none goes on where another ends. -/
def Table.Apart (t : Table) : Prop :=
  ∀ a ∈ t.keys, ∀ b ∈ t.keys, Tree.way a <+: Tree.way b → a = b

instance (t : Table) : Decidable t.Apart :=
  inferInstanceAs (Decidable (∀ a ∈ t.keys, ∀ b ∈ t.keys, _))

/-- The conditions under which a table comes back from its tree. -/
structure Table.Groupable (t : Table) : Prop where
  spelled : ∀ key ∈ t.keys, Key.Spelled key
  apart : t.Apart

namespace Tree

/-- Of spelled keys those come back from the tree that stand alone. -/
theorem flatten_of_spelled {t : Table} (h : ∀ key ∈ t.keys, Key.Spelled key) :
    flatten (ofTable .texts t) = t.filterKeys fun key => t.StandsAlone key := by
  rw [flatten_eq]
  refine Table.ofList_eq ?_
  rintro ⟨key, text⟩
  rw [Table.mem_entries_filterKeys, decide_eq_true_eq, List.mem_filterMap]
  constructor
  · rintro ⟨⟨path, leaf⟩, hEnding, hWritten⟩
    obtain ⟨source, stored, hEntry, rfl, rfl, hLast⟩ := exists_of_mem_endings hEnding
    have hSpelled := h source (Table.mem_keys_iff.mpr ⟨stored, hEntry⟩)
    rw [dotted_way_of_spelled hSpelled] at hWritten
    obtain ⟨rfl, rfl⟩ : source = key ∧ stored = text := by
      simpa [Json.text?, LeafContent.of] using hWritten
    refine ⟨hEntry, fun other hOther hPrefix => ?_⟩
    rw [← dotted_way_of_spelled hSpelled, hLast other hOther hPrefix,
      dotted_way_of_spelled (h other hOther)]
  · rintro ⟨hEntry, hAlone⟩
    refine ⟨_, mem_endings_of_entry hEntry hAlone, ?_⟩
    have hSpelled := h key (Table.mem_keys_iff.mpr ⟨text, hEntry⟩)
    simp [Json.text?, LeafContent.of, dotted_way_of_spelled hSpelled]

/-- A groupable table comes back from its tree. -/
theorem flatten_of_groupable {t : Table} (h : t.Groupable) : flatten (ofTable .texts t) = t := by
  rw [flatten_of_spelled h.spelled]
  exact Table.filterKeys_eq_self fun key hKey => decide_eq_true (h.apart key hKey)

/-- A table that comes back from its tree is groupable, so nothing less would do. -/
theorem groupable_of_flatten {t : Table} (h : flatten (ofTable .texts t) = t) : t.Groupable := by
  -- Each key is read back from a leaf, so it is what is written for the way there.
  have hEnding (key : String) (hKey : key ∈ t.keys) :
      Key.Spelled key ∧ ∀ other ∈ t.keys, way key <+: way other → way key = way other := by
    rw [← h] at hKey
    obtain ⟨text, path, hEnding, rfl⟩ := mem_keys_flatten.mp hKey
    obtain ⟨source, stored, _, rfl, _, hLast⟩ := exists_of_mem_endings hEnding
    rw [way_dotted_way]
    exact ⟨spelled_dotted_way source, hLast⟩
  refine ⟨fun key hKey => (hEnding key hKey).1, fun a hA b hB hPrefix => ?_⟩
  rw [← dotted_way_of_spelled (hEnding a hA).1, (hEnding a hA).2 b hB hPrefix,
    dotted_way_of_spelled (hEnding b hB).1]

/-- A table is read back from its tree when it is groupable, and only then. -/
theorem flatten_ofTable_iff {t : Table} : flatten (ofTable .texts t) = t ↔ t.Groupable :=
  ⟨groupable_of_flatten, flatten_of_groupable⟩

end Tree

namespace Table

open Key (Whole Related)

variable {t : Table} {text candidate suffix key : String}

/-- A key of segments that is related to no stored key can be put in the tree. -/
theorem Groupable.insert (h : t.Groupable) (hWhole : Whole key)
    (hFree : ∀ stored ∈ t.keys, ¬ Related key stored) (text : String) :
    (t.insert key text).Groupable where
  spelled := by
    intro other hOther
    rcases mem_keys_insert.mp hOther with rfl | hStored
    · exact .inl hWhole
    · exact h.spelled other hStored
  apart := by
    intro a hA b hB hPrefix
    have hSpelled : Key.Spelled key := .inl hWhole
    rcases mem_keys_insert.mp hA with hNewA | hOldA <;>
      rcases mem_keys_insert.mp hB with hNewB | hOldB
    · exact hNewA.trans hNewB.symm
    · subst hNewA
      have hWays := Tree.eq_or_under_of_way_prefix hSpelled (h.spelled b hOldB) hPrefix
      exact hWays.resolve_right fun hUnder => hFree b hOldB (.inr hUnder)
    · subst hNewB
      have hWays := Tree.eq_or_under_of_way_prefix (h.spelled a hOldA) hSpelled hPrefix
      exact hWays.resolve_right fun hUnder => hFree a hOldA (.inl hUnder)
    · exact h.apart a hOldA b hOldB hPrefix

end Table

namespace Probe

open Key (Whole)

variable {p : Probe}

theorem whole_base_next (h : Whole p.base) (verdict : Verdict) : Whole (p.next verdict).base := by
  rcases p.base_next verdict with hSame | hFront | hBehind
  · exact hSame ▸ h
  · exact hFront ▸ Key.whole_join_iff.mpr ⟨by decide, h⟩
  · exact hBehind ▸ Key.whole_join_iff.mpr ⟨h, by decide⟩

theorem whole_key (h : Whole p.base) (suffix : String) : Whole (p.key suffix) := by
  refine Key.Whole.extend ?_ suffix
  rw [stem]
  split
  · exact h
  · exact h.append_number p.number

end Probe

namespace Table

open Key (Whole)

variable {t : Table} {text candidate suffix : String}

/-- A search that starts at a whole key ends at one, because rewriting and numbering keep keys
whole. -/
theorem whole_of_search {attempts : Nat} {p : Probe} {outcome : Outcome} (hBase : Whole p.base)
    (h : t.search text suffix attempts p = some outcome) : Whole outcome.key := by
  obtain ⟨stop, hStop, hKey⟩ :=
    exists_probe_of_search (Whole ·.base)
      (fun _ verdict hWhole => Probe.whole_base_next hWhole verdict) hBase h
  exact hKey ▸ Probe.whole_key hStop suffix

/-- A text that is placed with a candidate of segments leaves the table groupable. -/
theorem Groupable.after_of_place (h : t.Groupable) (hCandidate : Whole candidate) {limit : Nat}
    {outcome : Outcome} (hPlace : t.place limit text candidate suffix = .ok outcome) :
    (t.after text outcome).Groupable := by
  have hSearch := place_eq_ok_iff.mp hPlace
  cases outcome with
  | matched key => exact h
  | inserted key =>
      obtain ⟨_, hFree⟩ := judge_eq_free_iff.mp (judge_of_search hSearch)
      exact h.insert (whole_of_search hCandidate hSearch) hFree text

end Table

namespace Namer

theorem step_groupable {n : Namer} (h : n.table.Groupable) (step : Step) :
    (n.step step).table.Groupable := by
  rcases n.step_table step with hSame | ⟨text, labels, suffix, outcome, hPlace, hAfter⟩
  · exact hSame ▸ h
  · exact hAfter ▸ h.after_of_place (n.scheme.whole_candidate text labels) hPlace

/-- Tables that come back from their trees stay so through every history of requests. -/
theorem run_groupable {n : Namer} (h : n.table.Groupable) (history : List Step) :
    (n.run history).table.Groupable := by
  induction history generalizing n with
  | nil => exact h
  | cons step rest ih => exact ih (step_groupable h step)

/-- The round trip is kept. A namer whose table comes back from its tree at the
start, as the empty table does, has such a table after every history. -/
theorem history_keeps_round_trip :
    Tree.flatten (Tree.ofTable .texts .empty) = .empty ∧
    ∀ (n : Namer) (history : List Step),
      Tree.flatten (Tree.ofTable .texts n.table) = n.table →
      Tree.flatten (Tree.ofTable .texts (n.run history).table) = (n.run history).table := by
  refine ⟨rfl, fun n history hStart => ?_⟩
  exact Tree.flatten_ofTable_iff.mpr (run_groupable (Tree.flatten_ofTable_iff.mp hStart) history)

/-- Requests with odd labels and suffixes, beside a key made of dots alone. -/
theorem odd_requests_come_back :
    let n : Namer := { ledger := { table := .ofList [("..", "Dots"), ("of", "Of")] } }
    let later := n.run [.name "Jane" ["user.name", "7"] "..x..", .name "On" ["of"] "."]
    Tree.flatten (Tree.ofTable .texts n.table) = n.table ∧
      later.table.keys = ["..", "of", "of1", "user_name.x"] ∧
      Tree.flatten (Tree.ofTable .texts later.table) = later.table := by
  intro n later
  have hStart : Tree.flatten (Tree.ofTable .texts n.table) = n.table := by decide +kernel
  exact ⟨hStart, by decide +kernel, history_keeps_round_trip.2 n _ hStart⟩

end Namer
end LocaleKeys
