import LocaleKeys.Proofs.Segments

/-! Which key a search ends at. Every probe is the candidate with some qualifiers in
front, some value segments behind and perhaps a number. Numbers start only behind a
stored key that holds another text, and none is passed over that could have been
taken, so the number in the answer is the first that fits. -/
namespace LocaleKeys

/-- A key is no place for a text: it holds another text, or it is absent and overlaps
a stored key. -/
def Table.Blocks (t : Table) (text key : String) : Prop :=
  (∃ stored, t.lookup key = some stored ∧ stored ≠ text) ∨
    (t.lookup key = none ∧ ∃ stored ∈ t.keys, Key.Related key stored)

/-- A search goes on exactly from the keys that are no place for its text. -/
theorem Table.blocks_iff {t : Table} {text key : String} :
    t.Blocks text key ↔ (t.judge text key).ends = false := by
  constructor
  · rintro (⟨stored, hLookup, hText⟩ | ⟨hLookup, stored, hStored, hRelated⟩)
    · rw [judge_eq_taken_iff.mpr ⟨stored, hLookup, hText⟩]
      rfl
    · cases hJudge : t.judge text key with
      | matched => simp [judge_eq_matched_iff.mp hJudge] at hLookup
      | free => exact absurd hRelated ((judge_eq_free_iff.mp hJudge).2 stored hStored)
      | taken | under | above => rfl
  · intro hGoes
    have hSays := t.judge_says text key
    cases hJudge : t.judge text key with
    | matched | free => simp [hJudge, Verdict.ends] at hGoes
    | taken => exact .inl (judge_eq_taken_iff.mp hJudge)
    | under ancestor =>
        rw [hJudge] at hSays
        obtain ⟨hLookup, hStored, hUnder⟩ := hSays
        exact .inr ⟨hLookup, ancestor, hStored, .inl hUnder⟩
    | above descendant =>
        rw [hJudge] at hSays
        obtain ⟨hLookup, _, hStored, hUnder⟩ := hSays
        exact .inr ⟨hLookup, descendant, hStored, .inr hUnder⟩

namespace Probe

/-- A candidate with qualifiers in front and value segments behind. -/
def rewritten (fronts lifts : Nat) (candidate : String) : String :=
  Key.ofSegments (List.replicate fronts qualifier ++ candidate :: List.replicate lifts valueSegment)

theorem rewritten_zero (candidate : String) : rewritten 0 0 candidate = candidate :=
  Key.ofSegments_singleton candidate

theorem qualifier_rewritten (fronts lifts : Nat) (candidate : String) :
    qualifier ++ "." ++ rewritten fronts lifts candidate = rewritten (fronts + 1) lifts candidate := by
  have hJoin := Key.ofSegments_append (List.cons_ne_nil qualifier [])
    (List.append_ne_nil_of_right_ne_nil (List.replicate fronts qualifier)
      (List.cons_ne_nil candidate (List.replicate lifts valueSegment)))
  rw [Key.ofSegments_singleton] at hJoin
  exact hJoin.symm

theorem rewritten_value (fronts lifts : Nat) (candidate : String) :
    rewritten fronts lifts candidate ++ "." ++ valueSegment = rewritten fronts (lifts + 1) candidate := by
  have hJoin := Key.ofSegments_append
    (List.append_ne_nil_of_right_ne_nil (List.replicate fronts qualifier)
      (List.cons_ne_nil candidate (List.replicate lifts valueSegment)))
    (List.cons_ne_nil valueSegment [])
  rw [Key.ofSegments_singleton, List.append_assoc, List.cons_append,
    ← List.replicate_succ'] at hJoin
  exact hJoin.symm

/-- A probe to which a search for a text is led from a candidate: what it consists of,
and what was in the way of the base and of each smaller number. -/
structure Reached (t : Table) (text candidate suffix : String) (fronts lifts : Nat)
    (p : Probe) : Prop where
  base : p.base = rewritten fronts lifts candidate
  taken : 0 < p.number →
    ∃ stored, t.lookup (Key.extend p.base suffix) = some stored ∧ stored ≠ text
  passed : ∀ m, 0 < m → m < p.number → t.Blocks text (Key.extend (p.base ++ toString m) suffix)

namespace Reached

variable {t : Table} {text candidate suffix : String} {fronts lifts : Nat} {p : Probe}

/-- A base without a number is reached by its form alone. -/
theorem of_base {base : String} (h : base = rewritten fronts lifts candidate) :
    Reached t text candidate suffix fronts lifts ⟨base, 0⟩ where
  base := h
  taken := fun hNumber => absurd hNumber (Nat.lt_irrefl 0)
  passed := fun _ _ hLess => absurd hLess (Nat.not_lt_zero _)

theorem start (t : Table) (text candidate suffix : String) :
    Reached t text candidate suffix 0 0 ⟨candidate, 0⟩ :=
  of_base (rewritten_zero candidate).symm

/-- A number that is blocked is passed by the next one. -/
theorem count (h : Reached t text candidate suffix fronts lifts p) (hNumber : p.number ≠ 0)
    (hBlocked : t.Blocks text (p.key suffix)) :
    Reached t text candidate suffix fronts lifts p.count where
  base := h.base
  taken := fun _ => h.taken (Nat.pos_of_ne_zero hNumber)
  passed := by
    intro m hPositive hLess
    rcases Nat.lt_succ_iff_lt_or_eq.mp hLess with hSmaller | rfl
    · exact h.passed m hPositive hSmaller
    · rwa [key, stem, if_neg hNumber] at hBlocked

/-- From a blocked probe a search is led to one that took one more step: a qualifier,
a value segment or a count. -/
theorem next (h : Reached t text candidate suffix fronts lifts p)
    (hGoes : (t.judge text (p.key suffix)).ends = false) :
    ∃ fronts' lifts', Reached t text candidate suffix fronts' lifts'
        (p.next (t.judge text (p.key suffix))) ∧
      fronts' + lifts' + (p.next (t.judge text (p.key suffix))).number =
        fronts + lifts + p.number + 1 := by
  obtain ⟨base, number⟩ := p
  cases number with
  | zero =>
      obtain rfl : base = rewritten fronts lifts candidate := h.base
      cases hJudge : t.judge text (key suffix ⟨rewritten fronts lifts candidate, 0⟩) with
      | matched | free => simp [hJudge, Verdict.ends] at hGoes
      | taken =>
          refine ⟨fronts, lifts, ⟨rfl, fun _ => Table.judge_eq_taken_iff.mp hJudge, ?_⟩, rfl⟩
          intro m hPositive hLess
          exact absurd hLess (Nat.not_lt_of_le hPositive)
      | under ancestor =>
          refine ⟨fronts + 1, lifts, ?_, ?_⟩
          · exact of_base (qualifier_rewritten fronts lifts candidate)
          · show fronts + 1 + lifts + 0 = fronts + lifts + 0 + 1
            omega
      | above descendant =>
          refine ⟨fronts, lifts + 1, ?_, ?_⟩
          · exact of_base (rewritten_value fronts lifts candidate)
          · show fronts + (lifts + 1) + 0 = fronts + lifts + 0 + 1
            omega
  | succ number =>
      rw [next_of_numbered (Nat.succ_ne_zero number)]
      exact ⟨fronts, lifts, h.count (Nat.succ_ne_zero number) (Table.blocks_iff.mpr hGoes), rfl⟩

/-- A search stops at a probe that it reached within its attempts. -/
theorem exists_of_search (h : Reached t text candidate suffix fronts lifts p) {attempts : Nat}
    {outcome : Outcome} (hSearch : t.search text suffix attempts p = some outcome) :
    ∃ fronts' lifts' stop, Reached t text candidate suffix fronts' lifts' stop ∧
      outcome.key = stop.key suffix ∧
      fronts' + lifts' + stop.number + 1 ≤ fronts + lifts + p.number + attempts := by
  induction attempts generalizing fronts lifts p with
  | zero => cases hSearch
  | succ attempts ih =>
      rcases Table.search_succ_eq_some_iff.mp hSearch with ⟨hKey, _⟩ | ⟨hGoes, hRest⟩
      · exact ⟨fronts, lifts, p, h, hKey.symm, by omega⟩
      · obtain ⟨moreFronts, moreLifts, hNext, hSteps⟩ := h.next hGoes
        obtain ⟨fronts', lifts', stop, hStop, hKey, hWithin⟩ := ih hNext hRest
        exact ⟨fronts', lifts', stop, hStop, hKey, by omega⟩

end Reached
end Probe

namespace Table

variable {t : Table} {text suffix : String} {p : Probe}

theorem trail_of_not_ends {attempts : Nat} (h : (t.judge text (p.key suffix)).ends = false) :
    t.trail text suffix (attempts + 1) p =
      (p, t.judge text (p.key suffix)) ::
        t.trail text suffix attempts (p.next (t.judge text (p.key suffix))) := by
  rw [trail]
  cases hJudge : t.judge text (p.key suffix) with
  | matched | free => simp [hJudge, Verdict.ends] at h
  | taken | under | above => rfl

theorem trail_of_ends {attempts : Nat} (h : (t.judge text (p.key suffix)).ends = true) :
    t.trail text suffix (attempts + 1) p = [(p, t.judge text (p.key suffix))] := by
  rw [trail]
  cases hJudge : t.judge text (p.key suffix) with
  | matched | free => rfl
  | taken | under | above => simp [hJudge, Verdict.ends] at h

/-- A search finds nothing when it took all its attempts and each of them was blocked,
and only then. -/
theorem search_eq_none_iff_trail {attempts : Nat} :
    t.search text suffix attempts p = none ↔
      (t.trail text suffix attempts p).length = attempts ∧
        ∀ step ∈ t.trail text suffix attempts p, t.Blocks text (step.1.key suffix) := by
  induction attempts generalizing p with
  | zero => simp [search, trail]
  | succ attempts ih =>
      cases hEnds : (t.judge text (p.key suffix)).ends with
      | true =>
          have hOpen : ¬ t.Blocks text (p.key suffix) := by simp [blocks_iff, hEnds]
          rw [search_succ_eq_none_iff, trail_of_ends hEnds]
          simp [hEnds, hOpen]
      | false =>
          rw [search_of_not_ends hEnds, ih, trail_of_not_ends hEnds]
          simp [blocks_iff.mpr hEnds]

/-- A key is the first that fits. It is the candidate with qualifiers, value segments
and a number within the limit; a number stands there only when its base holds another
text and each smaller number was blocked. A request fails exactly when all its
attempts were blocked, and then tells its first key and its limit. -/
theorem place_first_fit (t : Table) (limit : Nat) (text candidate suffix : String) :
    (∀ outcome, t.place limit text candidate suffix = .ok outcome →
      ∃ fronts lifts stop, Probe.Reached t text candidate suffix fronts lifts stop ∧
        outcome.key = stop.key suffix ∧ fronts + lifts + stop.number + 1 ≤ limit) ∧
    (∀ e, t.place limit text candidate suffix = .error e ↔
      e = ⟨Key.extend candidate suffix, limit⟩ ∧
        (t.trail text suffix limit ⟨candidate, 0⟩).length = limit ∧
        ∀ step ∈ t.trail text suffix limit ⟨candidate, 0⟩,
          t.Blocks text (step.1.key suffix)) := by
  constructor
  · intro outcome h
    have hStart := Probe.Reached.start t text candidate suffix
    obtain ⟨fronts, lifts, stop, hStop, hKey, hWithin⟩ :=
      hStart.exists_of_search (place_eq_ok_iff.mp h)
    exact ⟨fronts, lifts, stop, hStop, hKey, by simpa using hWithin⟩
  · intro e
    rw [place_eq_error_iff, search_eq_none_iff_trail, and_comm]

/-- Below a stored key a heading gets a qualifier, and the second number, because its
base is taken and the first number has a key under it. Three attempts are not enough. -/
theorem third_heading_gets_second_number :
    let t := Table.ofList [("of.settings.heading", "One"), ("of.settings.heading1.hint", "Two"),
      ("settings", "Settings")]
    t.place 4 "Three" "settings.heading" "" = .ok (.inserted "of.settings.heading2") ∧
      (∃ fronts lifts stop,
        Probe.Reached t "Three" "settings.heading" "" fronts lifts stop ∧
          "of.settings.heading2" = stop.key "" ∧ fronts + lifts + stop.number + 1 ≤ 4) ∧
      t.place 3 "Three" "settings.heading" "" = .error ⟨"settings.heading", 3⟩ ∧
      ∀ step ∈ t.trail "Three" "" 3 ⟨"settings.heading", 0⟩,
        t.Blocks "Three" (step.1.key "") := by
  intro t
  have hFour : t.place 4 "Three" "settings.heading" "" = .ok (.inserted "of.settings.heading2") := by
    decide +kernel
  have hThree : t.place 3 "Three" "settings.heading" "" = .error ⟨"settings.heading", 3⟩ := by
    decide +kernel
  obtain ⟨hFound, _⟩ := place_first_fit t 4 "Three" "settings.heading" ""
  obtain ⟨_, hFails⟩ := place_first_fit t 3 "Three" "settings.heading" ""
  exact ⟨hFour, hFound _ hFour, hThree, ((hFails _).mp hThree).2.2⟩

end Table
end LocaleKeys
