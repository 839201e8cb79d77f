import LocaleKeys.Proofs.FirstFit
import LocaleKeys.Proofs.Progress
import Mathlib.Data.Fintype.EquivFin

/-! Searches in tables with overlaps. A base that is stored and lies under a stored key
confines the search: numbering starts there, rewriting is over, and every number stays
under the same key. Where no key of qualifiers alone is stored nothing else keeps a
search from its end, so requests that no limit helps exist exactly for the tables with
overlaps. -/
namespace LocaleKeys.Table

open Key (Under OnlyQualifiers)

variable {t : Table} {text suffix base : String}

/-- The key of a base holds another text, the base lies under a stored key, and none of
its numbered forms holds the text. -/
structure Confines (t : Table) (text suffix base : String) : Prop where
  taken : ∃ stored, t.lookup (Key.extend base suffix) = some stored ∧ stored ≠ text
  inside : ∃ ancestor ∈ t.keys, Under base ancestor
  absent : ∀ number, t.lookup (Key.extend (base ++ toString (number + 1)) suffix) ≠ some text

/-- Rewriting a candidate leads to a base that confines the search. -/
def Confined (t : Table) (text suffix candidate : String) : Prop :=
  ∃ steps last, t.RewritesTo text suffix steps candidate last ∧ t.Confines text suffix last

namespace Confines

/-- A key above a base is above all its numbered forms, so a numbered form that is not
stored overlaps. -/
theorem blocks (h : t.Confines text suffix base) (number : Nat) :
    t.Blocks text (Key.extend (base ++ toString (number + 1)) suffix) := by
  obtain ⟨ancestor, hStored, hUnder⟩ := h.inside
  cases hLookup : t.lookup (Key.extend (base ++ toString (number + 1)) suffix) with
  | some stored =>
      refine .inl ⟨stored, hLookup, fun hText => h.absent number ?_⟩
      rw [hLookup, hText]
  | none =>
      have hBase : base.toList <+: (base ++ toString (number + 1)).toList := by
        rw [String.toList_append]
        exact List.prefix_append _ _
      have hKey := hBase.trans (Key.prefix_extend (base ++ toString (number + 1)) suffix)
      exact .inr ⟨hLookup, ancestor, hStored, .inl (List.IsPrefix.trans hUnder hKey)⟩

theorem search_numbered_eq_none (h : t.Confines text suffix base) (attempts number : Nat) :
    t.search text suffix attempts ⟨base, number + 1⟩ = none := by
  induction attempts generalizing number with
  | zero => rfl
  | succ attempts ih =>
      refine search_succ_eq_none_iff.mpr ⟨blocks_iff.mp (h.blocks number), ?_⟩
      rw [Probe.next_of_numbered (Nat.succ_ne_zero number)]
      exact ih (number + 1)

theorem search_eq_none (h : t.Confines text suffix base) (attempts : Nat) :
    t.search text suffix attempts ⟨base, 0⟩ = none := by
  cases attempts with
  | zero => rfl
  | succ attempts =>
      rw [search_base (judge_eq_taken_iff.mpr h.taken) rfl, Probe.next_base_taken]
      exact h.search_numbered_eq_none attempts 0

end Confines

/-- Attempts that are spent on rewriting do not help, either. -/
theorem Confined.search_eq_none (h : t.Confined text suffix base) (attempts : Nat) :
    t.search text suffix attempts ⟨base, 0⟩ = none := by
  obtain ⟨steps, last, hLeads, hConfines⟩ := h
  cases hSearch : t.search text suffix attempts ⟨base, 0⟩ with
  | none => rfl
  | some outcome =>
      -- More attempts keep what was found, and enough of them reach the last base.
      have hMore := search_mono hSearch (Nat.le_add_left attempts steps)
      rw [search_of_rewritesTo hLeads, hConfines.search_eq_none] at hMore
      cases hMore

/-- Numbering ends at a base that does not confine the search: no stored key is above the
base, or some number holds the text. -/
theorem exists_search_numbered_of_not_confines
    (hTaken : t.judge text (Key.extend base suffix) = .taken)
    (h : ¬ t.Confines text suffix base) :
    ∃ attempts, (t.search text suffix attempts ⟨base, 1⟩).isSome = true := by
  by_cases hInside : ∃ ancestor ∈ t.keys, Under base ancestor
  · obtain ⟨number, hLookup⟩ : ∃ number,
        t.lookup (Key.extend (base ++ toString (number + 1)) suffix) = some text := by
      by_contra hAbsent
      exact h ⟨judge_eq_taken_iff.mp hTaken, hInside, not_exists.mp hAbsent⟩
    refine ⟨number + 1, ?_⟩
    cases hSearch : t.search text suffix (number + 1) ⟨base, 1⟩ with
    | some outcome => rfl
    | none =>
        have hBlocked := not_ends_of_search_numbered 0 hSearch number (Nat.lt_succ_self number)
        rw [show 0 + 1 + number = number + 1 by omega, judge_eq_matched_iff.mpr hLookup] at hBlocked
        cases hBlocked
  · have hOutside : ∀ stored ∈ t.keys, ¬ Under base stored := fun stored hStored hUnder =>
      hInside ⟨stored, hStored, hUnder⟩
    exact ⟨t.size + 1, search_numbered_isSome hOutside (Nat.lt_succ_self _)⟩

theorem exists_search_of_not_confined (hOther : ∀ stored ∈ t.keys, ¬ OnlyQualifiers stored)
    (h : ¬ t.Confined text suffix base) :
    ∃ attempts, (t.search text suffix attempts ⟨base, 0⟩).isSome = true := by
  have hGoes : ¬ t.Stalls text suffix base := by
    intro hStalls
    obtain ⟨stored, hStored, hOnly⟩ := hStalls.exists_onlyQualifiers
    exact hOther stored hStored hOnly
  have hBudget : Probe.Budget t.longestKey base 0 (t.longestKey + 1) t.longestKey :=
    ⟨List.nil_prefix, by omega, by omega⟩
  obtain ⟨steps, last, _, hLeads, hLast⟩ :=
    exists_rewritesTo_of_not_stalls (fun _ => length_le_longestKey) hBudget hGoes
  -- Rewriting ends at the last base: there the search ends, or it goes on to numbers.
  cases hJudge : t.judge text (Key.extend last suffix) with
  | matched | free =>
      refine ⟨steps + 1, ?_⟩
      rw [search_of_rewritesTo hLeads]
      exact search_isSome_of_ends (congrArg Verdict.ends hJudge)
  | under | above =>
      rw [hJudge] at hLast
      cases hLast
  | taken =>
      obtain ⟨attempts, hFound⟩ := exists_search_numbered_of_not_confines hJudge
        fun hConfines => h ⟨steps, last, hLeads, hConfines⟩
      refine ⟨steps + (attempts + 1), ?_⟩
      rwa [search_of_rewritesTo hLeads, search_base hJudge rfl, Probe.next_base_taken]

/-- What confines a search is an overlap of the table. -/
theorem Confined.overlaps_ne_nil (h : t.Confined text suffix base) : t.overlaps ≠ [] := by
  obtain ⟨_, last, _, hConfines⟩ := h
  obtain ⟨stored, hLookup, _⟩ := hConfines.taken
  obtain ⟨ancestor, hStored, hUnder⟩ := hConfines.inside
  intro hNone
  exact not_under_of_mem_keys hNone (mem_keys_of_lookup hLookup) ancestor hStored hUnder

theorem lookup_ne_of_not_mem (hNew : text ∉ t.entries.map Prod.snd) (key : String) :
    t.lookup key ≠ some text := fun hLookup =>
  hNew (List.mem_map.mpr ⟨(key, text), mem_entries_iff.mpr hLookup, rfl⟩)

/-- Of two overlapping keys the lower one confines every search for a new text. -/
theorem confined_of_under {ancestor descendant : String} (hUpper : ancestor ∈ t.keys)
    (hLower : descendant ∈ t.keys) (hUnder : Under descendant ancestor)
    (hNew : text ∉ t.entries.map Prod.snd) : t.Confined text "" descendant := by
  obtain ⟨stored, hEntry⟩ := mem_keys_iff.mp hLower
  have hLookup := mem_entries_iff.mp hEntry
  refine ⟨0, descendant, .done descendant, ?_, ⟨ancestor, hUpper, hUnder⟩,
    fun number => lookup_ne_of_not_mem hNew _⟩
  rw [Key.extend_empty]
  exact ⟨stored, hLookup, fun hText => lookup_ne_of_not_mem hNew descendant (hText ▸ hLookup)⟩

/-- Where no key of qualifiers alone is stored, more attempts are of use exactly when the
search is not confined. A request that is confined fails within every limit, any other
one is answered from some limit on, and requests that are confined exist exactly for the
tables with overlaps. -/
theorem place_succeeds_eventually_iff_not_confined (t : Table)
    (hOther : ∀ stored ∈ t.keys, ¬ OnlyQualifiers stored) :
    (∀ text candidate suffix,
      (t.Confined text suffix candidate → ∀ limit,
        t.place limit text candidate suffix = .error ⟨Key.extend candidate suffix, limit⟩) ∧
      (¬ t.Confined text suffix candidate → ∃ enough, ∀ limit ≥ enough, ∃ outcome,
        t.place limit text candidate suffix = .ok outcome)) ∧
    ((∃ text candidate suffix, t.Confined text suffix candidate) ↔ t.overlaps ≠ []) := by
  refine ⟨fun text candidate suffix => ⟨?_, ?_⟩, ?_, ?_⟩
  · intro h limit
    exact place_eq_error_iff.mpr ⟨h.search_eq_none limit, rfl⟩
  · intro h
    obtain ⟨enough, hFound⟩ := exists_search_of_not_confined hOther h
    obtain ⟨outcome, hOutcome⟩ := Option.isSome_iff_exists.mp hFound
    exact ⟨enough, fun limit hLimit =>
      ⟨outcome, place_eq_ok_iff.mpr (search_mono hOutcome hLimit)⟩⟩
  · rintro ⟨text, candidate, suffix, h⟩
    exact h.overlaps_ne_nil
  · intro h
    obtain ⟨⟨ancestor, descendant⟩, hPair⟩ := List.exists_mem_of_ne_nil _ h
    obtain ⟨hUpper, hLower, hUnder⟩ := mem_overlaps_iff.mp hPair
    -- Texts are infinitely many, so some text is stored nowhere.
    obtain ⟨text, hNew⟩ := Infinite.exists_notMem_finset (t.entries.map Prod.snd).toFinset
    rw [List.mem_toFinset] at hNew
    exact ⟨text, descendant, "", confined_of_under hUpper hLower hUnder hNew⟩

/-- Where `user` and `user.name` are stored, a new text at `user.name` fails within every
limit, although the key behind a qualifier is free and a new text at `user.mail` gets it. -/
theorem place_at_overlapping_key_fails :
    let t := Table.ofList [("user", "User"), ("user.name", "Name")]
    (∀ stored ∈ t.keys, ¬ OnlyQualifiers stored) ∧ t.judge "Jane" "of.user.name" = .free ∧
      (∀ limit, t.place limit "Jane" "user.name" "" = .error ⟨"user.name", limit⟩) ∧
      (∃ enough, ∀ limit ≥ enough, ∃ outcome,
        t.place limit "Jane" "user.mail" "" = .ok outcome) ∧
      t.place 2 "Jane" "user.mail" "" = .ok (.inserted "of.user.mail") := by
  intro t
  have hOther : ∀ stored ∈ t.keys, ¬ OnlyQualifiers stored := by decide +kernel
  have hConfined : t.Confined "Jane" "" "user.name" :=
    confined_of_under (by decide +kernel) (by decide +kernel)
      (by decide +kernel : Under "user.name" "user") (by decide +kernel)
  have hMail : t.place 2 "Jane" "user.mail" "" = .ok (.inserted "of.user.mail") := by
    decide +kernel
  have hFree : ¬ t.Confined "Jane" "" "user.mail" := by
    intro h
    have hFound := place_eq_ok_iff.mp hMail
    rw [h.search_eq_none] at hFound
    cases hFound
  obtain ⟨hRequests, _⟩ := place_succeeds_eventually_iff_not_confined t hOther
  exact ⟨hOther, by decide +kernel, (hRequests "Jane" "user.name" "").1 hConfined,
    (hRequests "Jane" "user.mail" "").2 hFree, hMail⟩

/-- Without a key of qualifiers alone is not enough for more attempts to be of use. -/
theorem not_place_succeeds_beside_overlaps :
    ¬ ∀ t : Table, (∀ stored ∈ t.keys, ¬ OnlyQualifiers stored) → ∀ text candidate suffix,
      ∃ enough, ∀ limit ≥ enough, ∃ outcome, t.place limit text candidate suffix = .ok outcome := by
  intro h
  have hOther : ∀ stored ∈ (Table.ofList [("user", "User"), ("user.name", "Name")]).keys,
      ¬ OnlyQualifiers stored := by decide +kernel
  obtain ⟨enough, hEnough⟩ := h _ hOther "Jane" "user.name" ""
  obtain ⟨outcome, hOutcome⟩ := hEnough enough (Nat.le_refl _)
  have hConfined : (Table.ofList [("user", "User"), ("user.name", "Name")]).Confined
      "Jane" "" "user.name" :=
    confined_of_under (by decide +kernel) (by decide +kernel)
      (by decide +kernel : Under "user.name" "user") (by decide +kernel)
  rw [place_eq_ok_iff, hConfined.search_eq_none] at hOutcome
  cases hOutcome

end LocaleKeys.Table
