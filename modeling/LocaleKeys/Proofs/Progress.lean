import LocaleKeys.Proofs.Numbering

/-! Rewriting ends, too, unless it is caught under a stored key that consists of
qualifiers alone: every further qualifier leaves the probe under that key. Of
other keys only those that are longer than the probe's qualifiers can be in the
way, and each rewriting makes the probe longer. -/
namespace LocaleKeys

namespace Key

/-- Every segment of the key is the qualifier. -/
def OnlyQualifiers (key : String) : Prop :=
  ∀ segment ∈ key.toList.splitOn '.', segment = Probe.qualifier.toList

instance (key : String) : Decidable (OnlyQualifiers key) :=
  inferInstanceAs (Decidable (∀ segment ∈ _, _))

/-- Qualifiers one after another, each with its dot. -/
def qualifiers (count : Nat) : List Char :=
  (List.replicate count (Probe.qualifier ++ ".").toList).flatten

theorem qualifiers_succ (count : Nat) :
    qualifiers (count + 1) = 'o' :: 'f' :: '.' :: qualifiers count := rfl

theorem qualifiers_succ_last (count : Nat) :
    qualifiers (count + 1) = qualifiers count ++ (Probe.qualifier ++ ".").toList := by
  simp [qualifiers, List.replicate_succ']

theorem length_qualifiers (count : Nat) : (qualifiers count).length = 3 * count := by
  induction count with
  | zero => rfl
  | succ count ih =>
      rw [qualifiers_succ]
      simp only [List.length_cons, ih]
      omega

theorem intercalate_qualifiers (count : Nat) :
    ['.'].intercalate (List.replicate (count + 1) Probe.qualifier.toList) ++ ['.'] =
      qualifiers (count + 1) := by
  induction count with
  | zero => rfl
  | succ count ih =>
      rw [List.replicate_succ, List.replicate_succ, List.intercalate_cons_cons,
        ← List.replicate_succ, List.append_assoc, ih]
      rfl

theorem onlyQualifiers_iff {key : String} :
    OnlyQualifiers key ↔ ∃ count, key.toList ++ ['.'] = qualifiers (count + 1) := by
  constructor
  · intro h
    have hSplit := List.eq_replicate_of_mem h
    obtain ⟨count, hCount⟩ :=
      Nat.exists_eq_succ_of_ne_zero (mt List.eq_nil_of_length_eq_zero (List.splitOn_ne_nil '.' key.toList))
    rw [hCount] at hSplit
    refine ⟨count, ?_⟩
    rw [← intercalate_qualifiers, ← hSplit, List.intercalate_splitOn]
  · rintro ⟨count, hCount⟩
    rw [← intercalate_qualifiers, List.append_left_inj] at hCount
    have hDot : ∀ segment ∈ List.replicate (count + 1) Probe.qualifier.toList, '.' ∉ segment := by
      intro segment hSegment
      rw [List.eq_of_mem_replicate hSegment]
      decide
    intro segment hSegment
    rw [hCount, List.splitOn_intercalate '.' hDot (by simp)] at hSegment
    exact List.eq_of_mem_replicate hSegment

/-- What ends with a dot among qualifiers consists of qualifiers. -/
theorem eq_qualifiers_of_starts_with_dot {start : List Char} {count : Nat}
    (h : start ++ ['.'] <+: qualifiers count) :
    ∃ fewer, start ++ ['.'] = qualifiers (fewer + 1) := by
  induction count generalizing start with
  | zero => exact absurd (List.prefix_nil.mp h) (by simp)
  | succ count ih =>
      rw [qualifiers_succ] at h
      match start with
      | [] => simp at h
      | [_] => simp at h
      | [_, _] =>
          obtain ⟨rfl, rfl⟩ : _ = 'o' ∧ _ = 'f' := by simpa using h
          exact ⟨0, rfl⟩
      | _ :: _ :: _ :: rest =>
          obtain ⟨rfl, rfl, rfl, hRest⟩ :
              _ = 'o' ∧ _ = 'f' ∧ _ = '.' ∧ rest ++ ['.'] <+: qualifiers count := by simpa using h
          obtain ⟨fewer, hFewer⟩ := ih hRest
          exact ⟨fewer + 1, by simp [qualifiers_succ fewer.succ, ← hFewer]⟩

/-- A key under qualifiers alone stays under them behind one more qualifier. -/
theorem OnlyQualifiers.under_qualified {stored base suffix : String} (h : OnlyQualifiers stored)
    (hUnder : Under (extend base suffix) stored) :
    Under (extend (Probe.qualifier ++ "." ++ base) suffix) stored := by
  obtain ⟨count, hCount⟩ := onlyQualifiers_iff.mp h
  rw [Under, hCount] at hUnder
  rw [Under, hCount, extend_append, String.toList_append]
  have hMore : qualifiers (count + 1) <+: qualifiers (count + 2) := by
    rw [qualifiers_succ_last (count + 1)]
    exact List.prefix_append _ _
  exact hMore.trans ((List.prefix_append_right_inj _).mpr hUnder)

end Key

/-- Whether a base with this verdict is rewritten. -/
def Verdict.rewrites : Verdict → Bool
  | .under _ | .above _ => true
  | .matched | .free | .taken => false

namespace Probe

/-- How often a base may still be rewritten while stored keys up to some length
are in the way. After all its turns the qualifiers in front are longer than those
keys, and after all its lifts the base is as long. -/
structure Budget (longest : Nat) (base : String) (count turns lifts : Nat) : Prop where
  front : Key.qualifiers count <+: base.toList
  turns : longest < 3 * (count + turns)
  lifts : longest ≤ base.length + 6 * lifts

namespace Budget

variable {longest count turns lifts : Nat} {base : String}

/-- A qualifier takes one turn, which is there while a stored key may be longer
than the qualifiers. -/
theorem qualify (h : Budget longest base count turns lifts) (hLong : 3 * count ≤ longest) :
    ∃ fewer, turns = fewer + 1 ∧
      Budget longest (qualifier ++ "." ++ base) (count + 1) fewer lifts := by
  have hTurns := h.turns
  have hLifts := h.lifts
  refine ⟨turns - 1, by omega, ?_, by omega, ?_⟩
  · rw [String.toList_append]
    exact (List.prefix_append_right_inj _).mpr h.front
  · rw [String.length_append]
    omega

/-- A value segment takes one lift, which is there while a stored key may be
longer than the base. -/
theorem deepen (h : Budget longest base count turns lifts) (hShort : base.length < longest) :
    ∃ fewer, lifts = fewer + 1 ∧
      Budget longest (base ++ "." ++ valueSegment) count turns fewer := by
  have hLifts := h.lifts
  have hSegment : ("." ++ valueSegment).length = 6 := rfl
  refine ⟨lifts - 1, by omega, ?_, h.turns, ?_⟩
  · rw [String.append_assoc, String.toList_append]
    exact h.front.trans (List.prefix_append _ _)
  · rw [String.append_assoc, String.length_append, hSegment]
    omega

end Budget
end Probe

namespace Table

open Key (Under OnlyQualifiers)

/-- Rewriting a base leads under a stored key of qualifiers alone. -/
inductive Stalls (t : Table) (text suffix : String) : String → Prop
  | caught {base stored : String} (hStored : stored ∈ t.keys) (hOnly : OnlyQualifiers stored)
      (hUnder : Under (Key.extend base suffix) stored) : Stalls t text suffix base
  | qualified {base ancestor : String}
      (hJudge : t.judge text (Key.extend base suffix) = .under ancestor)
      (hRest : Stalls t text suffix (Probe.qualifier ++ "." ++ base)) : Stalls t text suffix base
  | deepened {base descendant : String}
      (hJudge : t.judge text (Key.extend base suffix) = .above descendant)
      (hRest : Stalls t text suffix (base ++ "." ++ Probe.valueSegment)) : Stalls t text suffix base

/-- Rewriting leads from one base to another in a number of steps. -/
inductive RewritesTo (t : Table) (text suffix : String) : Nat → String → String → Prop
  | done (base : String) : RewritesTo t text suffix 0 base base
  | qualified {steps : Nat} {base last ancestor : String}
      (hJudge : t.judge text (Key.extend base suffix) = .under ancestor)
      (hRest : RewritesTo t text suffix steps (Probe.qualifier ++ "." ++ base) last) :
      RewritesTo t text suffix (steps + 1) base last
  | deepened {steps : Nat} {base last descendant : String}
      (hJudge : t.judge text (Key.extend base suffix) = .above descendant)
      (hRest : RewritesTo t text suffix steps (base ++ "." ++ Probe.valueSegment) last) :
      RewritesTo t text suffix (steps + 1) base last

variable {t : Table} {text suffix base : String}

/-- A base whose own key is blocked hands the search on to its next probe. -/
theorem search_base {verdict : Verdict} (h : t.judge text (Key.extend base suffix) = verdict)
    (hEnds : verdict.ends = false) (attempts : Nat) :
    t.search text suffix (attempts + 1) ⟨base, 0⟩ =
      t.search text suffix attempts (Probe.next ⟨base, 0⟩ verdict) := by
  have hJudge : t.judge text ((⟨base, 0⟩ : Probe).key suffix) = verdict := h
  rw [search_of_not_ends (by rw [hJudge, hEnds]), hJudge]

/-- Each step of the rewriting takes one attempt. -/
theorem search_of_rewritesTo {steps : Nat} {last : String}
    (h : t.RewritesTo text suffix steps base last) (attempts : Nat) :
    t.search text suffix (steps + attempts) ⟨base, 0⟩ =
      t.search text suffix attempts ⟨last, 0⟩ := by
  induction h with
  | done base => rw [Nat.zero_add]
  | qualified hJudge _ ih => rw [Nat.add_right_comm, search_base hJudge rfl, Probe.next_base_under, ih]
  | deepened hJudge _ ih => rw [Nat.add_right_comm, search_base hJudge rfl, Probe.next_base_above, ih]

/-- A caught probe is caught at every later attempt. -/
theorem search_eq_none_of_caught (hOverlaps : t.overlaps = []) {stored : String}
    (hStored : stored ∈ t.keys) (hOnly : OnlyQualifiers stored)
    (hUnder : Under (Key.extend base suffix) stored) (attempts : Nat) :
    t.search text suffix attempts ⟨base, 0⟩ = none := by
  induction attempts generalizing base with
  | zero => rfl
  | succ attempts ih =>
      have hLookup : t.lookup (Key.extend base suffix) = none := by
        rw [lookup_eq_none_iff]
        exact fun hKey => overlaps_eq_nil_iff.mp hOverlaps _ hKey stored hStored (.inl hUnder)
      obtain ⟨ancestor, hJudge⟩ := exists_judge_eq_under text hLookup hStored hUnder
      rw [search_base hJudge rfl, Probe.next_base_under]
      exact ih (hOnly.under_qualified hUnder)

theorem search_eq_none_of_stalls (hOverlaps : t.overlaps = [])
    (h : t.Stalls text suffix base) (attempts : Nat) :
    t.search text suffix attempts ⟨base, 0⟩ = none := by
  induction h generalizing attempts with
  | caught hStored hOnly hUnder =>
      exact search_eq_none_of_caught hOverlaps hStored hOnly hUnder attempts
  | qualified hJudge _ ih =>
      cases attempts with
      | zero => rfl
      | succ attempts => rw [search_base hJudge rfl, Probe.next_base_under, ih attempts]
  | deepened hJudge _ ih =>
      cases attempts with
      | zero => rfl
      | succ attempts => rw [search_base hJudge rfl, Probe.next_base_above, ih attempts]

/-- A stored key that is no longer than the qualifiers in front of a probe can
only be above it when it consists of qualifiers itself. -/
theorem onlyQualifiers_of_short {count : Nat} {stored : String}
    (hFront : Key.qualifiers count <+: base.toList) (hUnder : Under (Key.extend base suffix) stored)
    (hShort : stored.length < 3 * count) : OnlyQualifiers stored := by
  have hKey := hFront.trans (Key.prefix_extend base suffix)
  have hInside : stored.toList ++ ['.'] <+: Key.qualifiers count := by
    refine List.prefix_of_prefix_length_le hUnder hKey ?_
    simpa [Key.length_qualifiers, String.length_toList] using
      Nat.succ_le_of_lt hShort
  exact Key.onlyQualifiers_iff.mpr (Key.eq_qualifiers_of_starts_with_dot hInside)

/-- Rewriting that does not stall ends at a base that overlaps nothing or is stored. It
takes no more steps than the turns and lifts of the budget. -/
theorem exists_rewritesTo_of_not_stalls {longest : Nat}
    (hLongest : ∀ stored ∈ t.keys, stored.length ≤ longest) {count turns lifts : Nat}
    (hBudget : Probe.Budget longest base count turns lifts) (h : ¬ t.Stalls text suffix base) :
    ∃ steps last, steps ≤ turns + lifts ∧ t.RewritesTo text suffix steps base last ∧
      (t.judge text (Key.extend last suffix)).rewrites = false := by
  induction hTotal : turns + lifts using Nat.strong_induction_on
    generalizing base count turns lifts with
  | h total ih =>
      have hSays := t.judge_says text (Key.extend base suffix)
      cases hJudge : t.judge text (Key.extend base suffix) with
      | matched | free | taken => exact ⟨0, base, Nat.zero_le _, .done base, by rw [hJudge]; rfl⟩
      | under ancestor =>
          rw [hJudge] at hSays
          obtain ⟨_, hStored, hUnder⟩ := hSays
          have hLong : 3 * count ≤ ancestor.length := by
            by_contra hShort
            have hOnly := onlyQualifiers_of_short hBudget.front hUnder (Nat.lt_of_not_le hShort)
            exact h (.caught hStored hOnly hUnder)
          obtain ⟨fewer, rfl, hRest⟩ := hBudget.qualify (hLong.trans (hLongest ancestor hStored))
          obtain ⟨steps, last, hSteps, hLeads, hLast⟩ := ih (fewer + lifts) (by omega) hRest
            (fun hStalls => h (.qualified hJudge hStalls)) rfl
          exact ⟨steps + 1, last, by omega, .qualified hJudge hLeads, hLast⟩
      | above descendant =>
          rw [hJudge] at hSays
          obtain ⟨_, _, hStored, hUnder⟩ := hSays
          have hBase := (Key.prefix_extend base suffix).length_le
          rw [String.length_toList, String.length_toList] at hBase
          have hShort : base.length < longest :=
            (Nat.lt_of_le_of_lt hBase hUnder.length_lt).trans_le (hLongest descendant hStored)
          obtain ⟨fewer, rfl, hRest⟩ := hBudget.deepen hShort
          obtain ⟨steps, last, hSteps, hLeads, hLast⟩ := ih (turns + fewer) (by omega) hRest
            (fun hStalls => h (.deepened hJudge hStalls)) rfl
          exact ⟨steps + 1, last, by omega, .deepened hJudge hLeads, hLast⟩

/-- No stored key is above the base of a stored one when there are no overlaps. -/
theorem not_under_of_mem_keys (hOverlaps : t.overlaps = []) (hBase : Key.extend base suffix ∈ t.keys) :
    ∀ stored ∈ t.keys, ¬ Under base stored := by
  intro stored hStored hUnder
  have hKey : Under (Key.extend base suffix) stored :=
    List.IsPrefix.trans hUnder (Key.prefix_extend base suffix)
  exact overlaps_eq_nil_iff.mp hOverlaps _ hBase stored hStored (.inl hKey)

/-- A search ends within an explicit number of attempts unless it stalls. The
bound counts the turns and lifts of the budget, and the numbers. -/
theorem search_isSome_of_not_stalls (hOverlaps : t.overlaps = []) {longest : Nat}
    (hLongest : ∀ stored ∈ t.keys, stored.length ≤ longest) {attempts count turns lifts : Nat}
    (hBudget : Probe.Budget longest base count turns lifts)
    (hEnough : turns + lifts + t.size + 2 ≤ attempts) (h : ¬ t.Stalls text suffix base) :
    (t.search text suffix attempts ⟨base, 0⟩).isSome = true := by
  obtain ⟨steps, last, hSteps, hLeads, hLast⟩ := exists_rewritesTo_of_not_stalls hLongest hBudget h
  obtain ⟨more, rfl⟩ : ∃ more, attempts = steps + (more + 1) := ⟨attempts - steps - 1, by omega⟩
  rw [search_of_rewritesTo hLeads]
  cases hJudge : t.judge text (Key.extend last suffix) with
  | matched | free => exact search_isSome_of_ends (congrArg Verdict.ends hJudge)
  | under | above =>
      rw [hJudge] at hLast
      cases hLast
  | taken =>
      obtain ⟨stored, hLookup, _⟩ := judge_eq_taken_iff.mp hJudge
      rw [search_base hJudge rfl, Probe.next_base_taken]
      exact search_numbered_isSome
        (not_under_of_mem_keys hOverlaps (mem_keys_of_lookup hLookup)) (by omega)

def longestKey (t : Table) : Nat := (t.keys.map String.length).foldr max 0

theorem length_le_longestKey {stored : String} (h : stored ∈ t.keys) :
    stored.length ≤ t.longestKey := by
  rw [longestKey]
  generalize t.keys = keys at h
  induction keys with
  | nil => cases h
  | cons key rest ih =>
      rw [List.map_cons, List.foldr_cons]
      rcases List.mem_cons.mp h with rfl | hRest
      · exact Nat.le_max_left _ _
      · exact (ih hRest).trans (Nat.le_max_right _ _)

theorem Stalls.exists_onlyQualifiers (h : t.Stalls text suffix base) :
    ∃ stored ∈ t.keys, OnlyQualifiers stored := by
  induction h with
  | @caught _ stored hStored hOnly _ => exact ⟨stored, hStored, hOnly⟩
  | qualified _ _ ih | deepened _ _ ih => exact ih

theorem stalls_of_onlyQualifiers {stored : String} (hStored : stored ∈ t.keys)
    (hOnly : OnlyQualifiers stored) (segment : String) :
    t.Stalls text "" (stored ++ "." ++ segment) :=
  .caught hStored hOnly (by rw [Key.extend_empty]; exact ⟨segment.toList, by simp⟩)

/-- In a table without overlaps more attempts are of use exactly when rewriting
does not stall. A request that stalls fails within every limit, any other one is
answered from some limit on, and requests that stall exist exactly for the
tables that store a key of qualifiers alone. -/
theorem place_succeeds_eventually_iff_not_stalls (t : Table) (hOverlaps : t.overlaps = []) :
    (∀ text candidate suffix,
      (t.Stalls text suffix candidate → ∀ limit,
        t.place limit text candidate suffix = .error ⟨Key.extend candidate suffix, limit⟩) ∧
      (¬ t.Stalls text suffix candidate → ∃ enough, ∀ limit ≥ enough, ∃ outcome,
        t.place limit text candidate suffix = .ok outcome)) ∧
    ((∃ text candidate suffix, t.Stalls text suffix candidate) ↔
      ∃ stored ∈ t.keys, OnlyQualifiers stored) := by
  refine ⟨fun text candidate suffix => ⟨?_, ?_⟩, ?_, ?_⟩
  · intro h limit
    exact place_eq_error_iff.mpr ⟨search_eq_none_of_stalls hOverlaps h limit, rfl⟩
  · intro h
    refine ⟨t.longestKey + 1 + t.longestKey + t.size + 2, fun limit hLimit => ?_⟩
    have hBudget : Probe.Budget t.longestKey candidate 0 (t.longestKey + 1) t.longestKey :=
      ⟨List.nil_prefix, by omega, by omega⟩
    have hFound := search_isSome_of_not_stalls hOverlaps (fun _ => length_le_longestKey)
      hBudget hLimit h
    obtain ⟨outcome, hOutcome⟩ := Option.isSome_iff_exists.mp hFound
    exact ⟨outcome, place_eq_ok_iff.mpr hOutcome⟩
  · rintro ⟨text, candidate, suffix, h⟩
    exact h.exists_onlyQualifiers
  · rintro ⟨stored, hStored, hOnly⟩
    exact ⟨"", stored ++ "." ++ "", "", stalls_of_onlyQualifiers hStored hOnly ""⟩

/-- Where `of` is stored, a suffix below the candidate `of` fails within every
limit although the first numbered form is free; below `user` it does not. -/
theorem place_below_qualifier_fails :
    let t := Table.ofList [("of", "Of"), ("user", "User")]
    t.overlaps = [] ∧ t.judge "Save" "of1.text" = .free ∧
      (∀ limit, t.place limit "Save" "of" "text" = .error ⟨"of.text", limit⟩) ∧
      t.Stalls "Save" "text" "of" ∧ ∃ stored ∈ t.keys, OnlyQualifiers stored := by
  have hOverlaps : (Table.ofList [("of", "Of"), ("user", "User")]).overlaps = [] := by decide
  have hStored : "of" ∈ (Table.ofList [("of", "Of"), ("user", "User")]).keys := by decide
  have hStalls : (Table.ofList [("of", "Of"), ("user", "User")]).Stalls "Save" "text" "of" :=
    .caught hStored (by decide) (by decide)
  obtain ⟨hRequests, hTable⟩ := place_succeeds_eventually_iff_not_stalls _ hOverlaps
  exact ⟨hOverlaps, by decide, (hRequests "Save" "of" "text").1 hStalls, hStalls,
    hTable.mp ⟨"Save", "of", "text", hStalls⟩⟩

/-- Without overlaps is not enough for more attempts to be of use. -/
theorem not_place_succeeds_eventually :
    ¬ ∀ t : Table, t.overlaps = [] → ∀ text candidate suffix, ∃ enough, ∀ limit ≥ enough,
      ∃ outcome, t.place limit text candidate suffix = .ok outcome := by
  intro h
  have hOverlaps : (Table.ofList [("of", "Of")]).overlaps = [] := by decide
  obtain ⟨enough, hEnough⟩ := h _ hOverlaps "Save" "of" "text"
  obtain ⟨outcome, hOutcome⟩ := hEnough enough (Nat.le_refl _)
  have hStored : "of" ∈ (Table.ofList [("of", "Of")]).keys := by decide
  have hStalls : (Table.ofList [("of", "Of")]).Stalls "Save" "text" "of" :=
    .caught hStored (by decide) (by decide)
  rw [place_eq_ok_iff, search_eq_none_of_stalls hOverlaps hStalls] at hOutcome
  cases hOutcome

/-- Among `3 * size + longest + 1` attempts a search finds its end unless it
stalls. A table without entries takes the first probe; any entry at all pays for
the turns, the lifts and the numbers. -/
theorem search_isSome_of_bound_le (hOverlaps : t.overlaps = []) {attempts : Nat}
    (hEnough : 3 * t.size + t.longestKey + 1 ≤ attempts) (h : ¬ t.Stalls text suffix base) :
    (t.search text suffix attempts ⟨base, 0⟩).isSome = true := by
  rcases Nat.eq_zero_or_pos t.size with hEmpty | hEntry
  · obtain ⟨attempts, rfl⟩ : ∃ fewer, attempts = fewer + 1 := ⟨attempts - 1, by omega⟩
    have hKeys : t.keys = [] := by
      rw [keys, List.map_eq_nil_iff]
      exact List.eq_nil_of_length_eq_zero hEmpty
    have hFree : t.judge text ((⟨base, 0⟩ : Probe).key suffix) = .free := by
      rw [judge_eq_free_iff, lookup_eq_none_iff, hKeys]
      simp
    exact search_isSome_of_ends (congrArg Verdict.ends hFree)
  · have hBudget : Probe.Budget t.longestKey base 0 (t.longestKey / 3 + 1)
        ((t.longestKey + 5) / 6) := ⟨List.nil_prefix, by omega, by omega⟩
    exact search_isSome_of_not_stalls hOverlaps (fun _ => length_le_longestKey) hBudget
      (by omega) h

/-- One limit decides. In a table without overlaps a request that fails within
`3 * size + longest + 1` attempts fails within every limit, and only where a key
of qualifiers alone is stored; without such a key this limit and every larger one
suffice for all requests. -/
theorem place_decided_at_bound (t : Table) (hOverlaps : t.overlaps = [])
    (text candidate suffix : String) :
    (∀ e, t.place (3 * t.size + t.longestKey + 1) text candidate suffix = .error e →
      (∀ limit, t.place limit text candidate suffix = .error ⟨Key.extend candidate suffix, limit⟩) ∧
        ∃ stored ∈ t.keys, OnlyQualifiers stored) ∧
    ((∀ stored ∈ t.keys, ¬ OnlyQualifiers stored) →
      ∀ limit ≥ 3 * t.size + t.longestKey + 1, ∃ outcome,
        t.place limit text candidate suffix = .ok outcome) := by
  constructor
  · intro e hFails
    have hNone := (place_eq_error_iff.mp hFails).1
    have hStalls : t.Stalls text suffix candidate := by
      by_contra h
      have hFound := search_isSome_of_bound_le hOverlaps (Nat.le_refl _) h
      rw [hNone] at hFound
      cases hFound
    exact ⟨fun limit => place_eq_error_iff.mpr ⟨search_eq_none_of_stalls hOverlaps hStalls limit, rfl⟩,
      hStalls.exists_onlyQualifiers⟩
  · intro hOther limit hLimit
    have hGoes : ¬ t.Stalls text suffix candidate := by
      intro hStalls
      obtain ⟨stored, hStored, hOnly⟩ := hStalls.exists_onlyQualifiers
      exact hOther stored hStored hOnly
    have hFound := search_isSome_of_bound_le hOverlaps hLimit hGoes
    obtain ⟨outcome, hOutcome⟩ := Option.isSome_iff_exists.mp hFound
    exact ⟨outcome, place_eq_ok_iff.mpr hOutcome⟩

/-- Beside `of` the request that fails within eleven attempts always fails; beside
`off` eleven attempts suffice for the same request. -/
theorem place_decided_beside_qualifier :
    (∀ limit, (Table.ofList [("of", "Of"), ("user", "User")]).place limit "Save" "of" "text" =
      .error ⟨"of.text", limit⟩) ∧
    ∀ limit ≥ 11, ∃ outcome,
      (Table.ofList [("off", "Of"), ("user", "User")]).place limit "Save" "off" "text" =
        .ok outcome := by
  have hCaught := (place_decided_at_bound (.ofList [("of", "Of"), ("user", "User")]) (by decide)
    "Save" "of" "text").1 ⟨"of.text", 11⟩ (by decide)
  exact ⟨hCaught.1, (place_decided_at_bound (.ofList [("off", "Of"), ("user", "User")]) (by decide)
    "Save" "off" "text").2 (by decide)⟩

end Table
end LocaleKeys
