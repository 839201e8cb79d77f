import LocaleKeys.Placement
import LocaleKeys.Proofs.Overlap

/-! What a verdict says about the table, and what a search has found where it
ends. -/
namespace LocaleKeys

namespace Verdict

/-- What a verdict on a key for a text says about the table. -/
def Says (t : Table) (text key : String) : Verdict → Prop
  | .matched => t.lookup key = some text
  | .free => t.lookup key = none ∧ ∀ stored ∈ t.keys, ¬ Key.Related key stored
  | .taken => ∃ stored, t.lookup key = some stored ∧ stored ≠ text
  | .under ancestor => t.lookup key = none ∧ ancestor ∈ t.keys ∧ Key.Under key ancestor
  | .above descendant =>
      t.lookup key = none ∧ (∀ stored ∈ t.keys, ¬ Key.Under key stored) ∧
        descendant ∈ t.keys ∧ Key.Under descendant key

/-- Whether a search stops at a probe with this verdict. -/
def ends : Verdict → Bool
  | .matched | .free => true
  | .taken | .under _ | .above _ => false

end Verdict

/-- The verdict with which a search stopped. -/
def Outcome.verdict : Outcome → Verdict
  | .matched _ => .matched
  | .inserted _ => .free

namespace Probe

theorem next_of_numbered {p : Probe} (h : p.number ≠ 0) (verdict : Verdict) :
    p.next verdict = p.count := by
  cases verdict <;> simp [next, h]

@[simp] theorem next_base_taken (base : String) :
    next ⟨base, 0⟩ .taken = ⟨base, 1⟩ := rfl

@[simp] theorem next_base_under (base ancestor : String) :
    next ⟨base, 0⟩ (.under ancestor) = ⟨qualifier ++ "." ++ base, 0⟩ := rfl

@[simp] theorem next_base_above (base descendant : String) :
    next ⟨base, 0⟩ (.above descendant) = ⟨base ++ "." ++ valueSegment, 0⟩ := rfl

/-- From probe to probe the base stays or gets one segment, in front or behind. -/
theorem base_next (p : Probe) (verdict : Verdict) :
    (p.next verdict).base = p.base ∨
      (p.next verdict).base = qualifier ++ "." ++ p.base ∨
      (p.next verdict).base = p.base ++ "." ++ valueSegment := by
  by_cases hNumber : p.number = 0
  · cases verdict with
    | matched | free | taken => exact .inl rfl
    | under ancestor => exact .inr (.inl (by simp [next, hNumber]))
    | above descendant => exact .inr (.inr (by simp [next, hNumber]))
  · rw [next_of_numbered hNumber]
    exact .inl rfl

end Probe

namespace Table

open Key (Under Related)

variable {t : Table} {text suffix key : String}

/-- A verdict says what it means: which text is stored at the key, or which stored key lies
above or under it. The single equivalences below come from this. -/
theorem judge_says (t : Table) (text key : String) : (t.judge text key).Says t text key := by
  rw [judge]
  cases hLookup : t.lookup key with
  | some stored =>
      by_cases hText : stored = text
      · simpa [hText, Verdict.Says] using hLookup
      · simp [hLookup, hText, Verdict.Says]
  | none =>
      cases hOverlap : t.overlapping key with
      | none => exact ⟨hLookup, overlapping_eq_none_iff.mp hOverlap⟩
      | some overlap =>
          rw [overlapping] at hOverlap
          split at hOverlap
          next ancestor hAncestor =>
            obtain rfl := Option.some.inj hOverlap
            exact ⟨hLookup, under_of_ancestorOf_eq_some hAncestor⟩
          next hNone =>
            obtain ⟨descendant, hDescendant, rfl⟩ := Option.map_eq_some_iff.mp hOverlap
            exact ⟨hLookup, ancestorOf_eq_none_iff.mp hNone,
              under_of_descendantOf_eq_some hDescendant⟩

/-- A key is matched when the text is stored at it, whatever else overlaps with it. -/
theorem judge_eq_matched_iff : t.judge text key = .matched ↔ t.lookup key = some text := by
  have hSays := t.judge_says text key
  constructor
  · intro h
    simpa only [h, Verdict.Says] using hSays
  · intro h
    simp [judge, h]

/-- A key is taken when another text is stored at it, and this is found before any overlap
is. -/
theorem judge_eq_taken_iff :
    t.judge text key = .taken ↔ ∃ stored, t.lookup key = some stored ∧ stored ≠ text := by
  have hSays := t.judge_says text key
  constructor
  · intro h
    simpa only [h, Verdict.Says] using hSays
  · rintro ⟨stored, hLookup, hText⟩
    simp [judge, hLookup, hText]

/-- A key is free when nothing is stored at it and no stored key lies above or under it. -/
theorem judge_eq_free_iff :
    t.judge text key = .free ↔
      t.lookup key = none ∧ ∀ stored ∈ t.keys, ¬ Related key stored := by
  have hSays := t.judge_says text key
  constructor
  · intro h
    simpa only [h, Verdict.Says] using hSays
  · rintro ⟨hLookup, hFree⟩
    simp [judge, hLookup, overlapping_eq_none_iff.mpr hFree]

/-- A key that is not stored and has a stored key above it is judged to be under
one; which one does not matter to the search. -/
theorem exists_judge_eq_under (text : String) (hLookup : t.lookup key = none) {ancestor : String}
    (hStored : ancestor ∈ t.keys) (hUnder : Under key ancestor) :
    ∃ other, t.judge text key = .under other := by
  cases hAncestor : t.ancestorOf key with
  | none => exact absurd hUnder (ancestorOf_eq_none_iff.mp hAncestor ancestor hStored)
  | some other => exact ⟨other, by simp [judge, hLookup, overlapping, hAncestor]⟩

/-- A key that is not stored, is under none and has a stored key under it is
judged to be above one. -/
theorem exists_judge_eq_above (text : String) (hLookup : t.lookup key = none)
    (hNone : ∀ stored ∈ t.keys, ¬ Under key stored) {descendant : String}
    (hStored : descendant ∈ t.keys) (hUnder : Under descendant key) :
    ∃ other, t.judge text key = .above other := by
  cases hDescendant : t.descendantOf key with
  | none => exact absurd hUnder (descendantOf_eq_none_iff.mp hDescendant descendant hStored)
  | some other =>
      exact ⟨other, by
        simp [judge, hLookup, overlapping, ancestorOf_eq_none_iff.mpr hNone, hDescendant]⟩

theorem search_of_matched {attempts : Nat} {p : Probe} (h : t.judge text (p.key suffix) = .matched) :
    t.search text suffix (attempts + 1) p = some (.matched (p.key suffix)) := by
  simp [search, h]

theorem search_of_free {attempts : Nat} {p : Probe} (h : t.judge text (p.key suffix) = .free) :
    t.search text suffix (attempts + 1) p = some (.inserted (p.key suffix)) := by
  simp [search, h]

theorem search_isSome_of_ends {attempts : Nat} {p : Probe}
    (h : (t.judge text (p.key suffix)).ends = true) :
    (t.search text suffix (attempts + 1) p).isSome = true := by
  cases hJudge : t.judge text (p.key suffix) with
  | matched => simp [search_of_matched hJudge]
  | free => simp [search_of_free hJudge]
  | taken | under | above => simp [hJudge, Verdict.ends] at h

/-- A search that does not end at a probe goes on with the next one, with one attempt less. -/
theorem search_of_not_ends {attempts : Nat} {p : Probe}
    (h : (t.judge text (p.key suffix)).ends = false) :
    t.search text suffix (attempts + 1) p =
      t.search text suffix attempts (p.next (t.judge text (p.key suffix))) := by
  rw [search]
  cases hJudge : t.judge text (p.key suffix) with
  | matched | free => simp [hJudge, Verdict.ends] at h
  | taken | under | above => rfl

/-- A search finds its key at the first probe or goes on from the next. -/
theorem search_succ_eq_some_iff {attempts : Nat} {p : Probe} {outcome : Outcome} :
    t.search text suffix (attempts + 1) p = some outcome ↔
      (p.key suffix = outcome.key ∧ t.judge text (p.key suffix) = outcome.verdict) ∨
      ((t.judge text (p.key suffix)).ends = false ∧
        t.search text suffix attempts (p.next (t.judge text (p.key suffix))) = some outcome) := by
  cases hJudge : t.judge text (p.key suffix) with
  | matched =>
      rw [search_of_matched hJudge]
      cases outcome <;> simp [Outcome.key, Outcome.verdict, Verdict.ends]
  | free =>
      rw [search_of_free hJudge]
      cases outcome <;> simp [Outcome.key, Outcome.verdict, Verdict.ends]
  | taken | under | above =>
      rw [search_of_not_ends (by rw [hJudge]; rfl), hJudge]
      cases outcome <;> simp [Outcome.verdict, Verdict.ends]

theorem search_succ_eq_none_iff {attempts : Nat} {p : Probe} :
    t.search text suffix (attempts + 1) p = none ↔
      (t.judge text (p.key suffix)).ends = false ∧
        t.search text suffix attempts (p.next (t.judge text (p.key suffix))) = none := by
  cases hJudge : t.judge text (p.key suffix) with
  | matched => simp [search_of_matched hJudge, Verdict.ends]
  | free => simp [search_of_free hJudge, Verdict.ends]
  | taken | under | above =>
      rw [search_of_not_ends (by rw [hJudge]; rfl), hJudge]
      simp [Verdict.ends]

/-- A search stops at a key with the verdict that its outcome tells. -/
theorem judge_of_search {attempts : Nat} {p : Probe} {outcome : Outcome}
    (h : t.search text suffix attempts p = some outcome) :
    t.judge text outcome.key = outcome.verdict := by
  induction attempts generalizing p with
  | zero => cases h
  | succ attempts ih =>
      rcases search_succ_eq_some_iff.mp h with ⟨hKey, hJudge⟩ | ⟨_, hRest⟩
      · rwa [hKey] at hJudge
      · exact ih hRest

/-- What holds of the first probe and is kept from probe to probe holds of the
probe at which a search stops. -/
theorem exists_probe_of_search (good : Probe → Prop)
    (hNext : ∀ p verdict, good p → good (p.next verdict)) {attempts : Nat} {p : Probe}
    {outcome : Outcome} (hGood : good p) (h : t.search text suffix attempts p = some outcome) :
    ∃ stop, good stop ∧ stop.key suffix = outcome.key := by
  induction attempts generalizing p with
  | zero => cases h
  | succ attempts ih =>
      rcases search_succ_eq_some_iff.mp h with ⟨hKey, _⟩ | ⟨_, hRest⟩
      · exact ⟨p, hGood, hKey⟩
      · exact ih (hNext p _ hGood) hRest

/-- More attempts change nothing about a search that found a key. -/
theorem search_mono {attempts more : Nat} {p : Probe} {outcome : Outcome}
    (h : t.search text suffix attempts p = some outcome) (hLe : attempts ≤ more) :
    t.search text suffix more p = some outcome := by
  induction attempts generalizing p more with
  | zero => cases h
  | succ attempts ih =>
      cases more with
      | zero => cases hLe
      | succ more =>
          apply search_succ_eq_some_iff.mpr
          rcases search_succ_eq_some_iff.mp h with hFound | ⟨hEnds, hRest⟩
          · exact .inl hFound
          · exact .inr ⟨hEnds, ih hRest (Nat.le_of_succ_le_succ hLe)⟩

/-- Placing a text is searching from its candidate, with as many attempts as the limit
allows. -/
theorem place_eq_ok_iff {limit : Nat} {candidate : String} {outcome : Outcome} :
    t.place limit text candidate suffix = .ok outcome ↔
      t.search text suffix limit ⟨candidate, 0⟩ = some outcome := by
  rw [place]
  cases t.search text suffix limit ⟨candidate, 0⟩ <;> simp

/-- No free key is reported exactly when the search has used up its attempts, with the key
that was asked for and the limit. -/
theorem place_eq_error_iff {limit : Nat} {candidate : String} {e : NoFreeKey} :
    t.place limit text candidate suffix = .error e ↔
      t.search text suffix limit ⟨candidate, 0⟩ = none ∧ e = ⟨Key.extend candidate suffix, limit⟩ := by
  rw [place]
  cases t.search text suffix limit ⟨candidate, 0⟩ <;> simp [eq_comm]

end Table
end LocaleKeys
