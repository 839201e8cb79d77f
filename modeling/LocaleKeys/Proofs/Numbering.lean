import LocaleKeys.Proofs.Placement
import Mathlib.Data.Finset.Card

/-! Numbering ends when no stored key is above the base. Numbers are digits only and
stand before the next dot, so a stored key can then be in the way of one number at
most, and one of the first numbers is free when there are more of them than stored
keys. -/
namespace LocaleKeys

namespace Key

/-- A key stands at another or under it. -/
def Within (key stem : String) : Prop := key = stem ∨ Under key stem

/-- A dot behind both keys makes the two cases of `Within` one. -/
theorem within_iff {key stem : String} :
    Within key stem ↔ stem.toList ++ ['.'] <+: key.toList ++ ['.'] := by
  rw [List.prefix_concat_iff, List.append_left_inj, String.toList_inj, eq_comm]
  rfl

theorem Within.of_under {key middle stem : String} (hUnder : Under key middle)
    (hWithin : Within middle stem) : Within key stem := by
  rcases hWithin with rfl | hStem
  · exact .inr hUnder
  · exact .inr (hUnder.trans hStem)

theorem extend_within (candidate suffix : String) : Within (extend candidate suffix) candidate := by
  have hSegments (segments : List String) (key : String) (hKey : Within key candidate) :
      Within (segments.foldl (fun key segment => key ++ "." ++ segment) key) candidate := by
    induction segments generalizing key with
    | nil => exact hKey
    | cons segment rest ih =>
        refine ih _ (.of_under ?_ hKey)
        exact ⟨segment.toList, by simp⟩
  exact hSegments _ candidate (.inl rfl)

theorem prefix_extend (candidate suffix : String) :
    candidate.toList <+: (extend candidate suffix).toList := by
  rcases extend_within candidate suffix with hSame | hUnder
  · rw [hSame]
  · exact (List.prefix_append _ _).trans hUnder

theorem extend_empty (candidate : String) : extend candidate "" = candidate := by
  have hSegments : segments "" = [] := by decide
  rw [extend, hSegments]
  rfl

/-- The suffix is put behind a key whatever stands in front. -/
theorem extend_append (front candidate suffix : String) :
    extend (front ++ candidate) suffix = front ++ extend candidate suffix := by
  rw [extend, extend]
  induction segments suffix generalizing candidate with
  | nil => rfl
  | cons segment rest ih =>
      rw [List.foldl_cons, List.foldl_cons, ← ih, String.append_assoc, String.append_assoc,
        String.append_assoc]

theorem dot_not_mem_number (number : Nat) : '.' ∉ (toString number).toList := by
  intro hDot
  rw [Nat.toString_eq_ofList_toDigits, String.toList_ofList] at hDot
  simpa using Nat.isDigit_of_mem_toDigits (by decide) (by decide) hDot

theorem number_injective {m n : Nat} (h : (toString m).toList = (toString n).toList) : m = n := by
  have hValue (k : Nat) : Nat.ofDigitChars 10 (toString k).toList 0 = k := by
    rw [Nat.toString_eq_ofList_toDigits, String.toList_ofList, Nat.ofDigitChars_ten_toDigits]
  rw [← hValue m, h, hValue n]

/-- A number is read up to the next dot. -/
theorem number_eq_of_starts_with_dot {m n : Nat}
    (h : (toString m).toList ++ ['.'] <+: (toString n).toList ++ ['.']) : m = n := by
  rcases List.prefix_concat_iff.mp h with hSame | hInside
  · exact number_injective (List.append_left_injective _ hSame)
  · exact absurd (hInside.subset (by simp)) (dot_not_mem_number n)

/-- No key stands at or under one stem with two numbers. -/
theorem number_eq_of_within {key base : String} {m n : Nat}
    (hM : Within key (base ++ toString m)) (hN : Within key (base ++ toString n)) : m = n := by
  rw [within_iff, String.toList_append, List.append_assoc] at hM hN
  rcases List.prefix_or_prefix_of_prefix hM hN with h | h
  · exact number_eq_of_starts_with_dot ((List.prefix_append_right_inj _).mp h)
  · exact (number_eq_of_starts_with_dot ((List.prefix_append_right_inj _).mp h)).symm

/-- What ends with a dot does not end inside a number. -/
theorem dot_prefix_of_append_number {start base : List Char} {number : Nat}
    (h : start ++ ['.'] <+: base ++ (toString number).toList) : start ++ ['.'] <+: base := by
  rcases List.prefix_or_prefix_of_prefix h (List.prefix_append base _) with hIn | hOut
  · exact hIn
  · rcases List.prefix_concat_iff.mp hOut with hSame | ⟨rest, rfl⟩
    · exact hSame ▸ List.prefix_refl _
    · rw [List.append_assoc] at h
      have hNumber := (List.prefix_append_right_inj base).mp h
      exact absurd (hNumber.subset (by simp)) (dot_not_mem_number number)

/-- A key above the numbered form of a key is above the base of the number, or has
the number written in it. -/
theorem under_or_within_of_under_numbered {base suffix stored : String} {number : Nat}
    (h : Under (extend (base ++ toString number) suffix) stored) :
    Under base stored ∨ Within stored (base ++ toString number) := by
  have hStem := within_iff.mp (extend_within (base ++ toString number) suffix)
  have hStored := List.IsPrefix.trans h (List.prefix_append _ ['.'])
  rcases List.prefix_or_prefix_of_prefix hStem hStored with hIn | hOut
  · exact .inr (within_iff.mpr hIn)
  · rcases List.prefix_concat_iff.mp hOut with hSame | hShort
    · exact .inr (within_iff.mpr (hSame ▸ List.prefix_refl _))
    · rw [String.toList_append] at hShort
      exact .inl (dot_prefix_of_append_number hShort)

end Key

namespace Table

open Key (Under Within)

variable {t : Table} {text suffix base : String}

/-- When no stored key is above a base, an obstacle to a numbered form of it is a
stored key with this number. -/
theorem exists_within_of_not_ends (hOutside : ∀ stored ∈ t.keys, ¬ Under base stored)
    {number : Nat}
    (h : (t.judge text (Key.extend (base ++ toString number) suffix)).ends = false) :
    ∃ stored ∈ t.keys, Within stored (base ++ toString number) := by
  have hStem := Key.extend_within (base ++ toString number) suffix
  have hSays := t.judge_says text (Key.extend (base ++ toString number) suffix)
  cases hJudge : t.judge text (Key.extend (base ++ toString number) suffix) with
  | matched | free =>
      rw [hJudge] at h
      cases h
  | taken =>
      obtain ⟨stored, hLookup, _⟩ := judge_eq_taken_iff.mp hJudge
      exact ⟨_, mem_keys_of_lookup hLookup, hStem⟩
  | above descendant =>
      rw [hJudge] at hSays
      obtain ⟨_, _, hStored, hUnder⟩ := hSays
      exact ⟨descendant, hStored, .of_under hUnder hStem⟩
  | under ancestor =>
      rw [hJudge] at hSays
      obtain ⟨_, hStored, hUnder⟩ := hSays
      have hWithin := Key.under_or_within_of_under_numbered hUnder
      exact ⟨ancestor, hStored, hWithin.resolve_left (hOutside ancestor hStored)⟩

/-- A search over numbers that found nothing met an obstacle at each of them. -/
theorem not_ends_of_search_numbered {attempts : Nat} (number : Nat)
    (h : t.search text suffix attempts ⟨base, number + 1⟩ = none) :
    ∀ k < attempts,
      (t.judge text (Key.extend (base ++ toString (number + 1 + k)) suffix)).ends = false := by
  induction attempts generalizing number with
  | zero => exact fun _ hk => absurd hk (Nat.not_lt_zero _)
  | succ attempts ih =>
      obtain ⟨hEnds, hRest⟩ := search_succ_eq_none_iff.mp h
      rw [Probe.next_of_numbered (Nat.succ_ne_zero number)] at hRest
      intro k hk
      cases k with
      | zero => exact hEnds
      | succ k =>
          have hLater := ih (number + 1) hRest k (Nat.lt_of_succ_lt_succ hk)
          rwa [show number + 1 + 1 + k = number + 1 + (k + 1) by omega] at hLater

/-- Keys that each hold another number are as many as the numbers. -/
theorem le_size_of_forall_within {count number : Nat}
    (h : ∀ k < count, ∃ stored ∈ t.keys, Within stored (base ++ toString (number + k))) :
    count ≤ t.size := by
  choose! holder hStored hWithin using h
  have hInjective : Set.InjOn holder (Finset.range count : Set Nat) := by
    intro i hi j hj hSame
    have hI := hWithin i (Finset.mem_range.mp hi)
    rw [hSame] at hI
    exact Nat.add_left_cancel (Key.number_eq_of_within hI (hWithin j (Finset.mem_range.mp hj)))
  have hCard : (Finset.range count).card ≤ t.keys.toFinset.card :=
    Finset.card_le_card_of_injOn holder
      (fun k hk => List.mem_toFinset.mpr (hStored k (Finset.mem_range.mp hk))) hInjective
  rw [Finset.card_range] at hCard
  refine hCard.trans ((List.toFinset_card_le t.keys).trans ?_)
  simp [keys, size]

/-- One of the first numbers is free when no stored key is above the base. -/
theorem search_numbered_isSome (hOutside : ∀ stored ∈ t.keys, ¬ Under base stored)
    {attempts : Nat} (hEnough : t.size < attempts) :
    (t.search text suffix attempts ⟨base, 1⟩).isSome = true := by
  cases hSearch : t.search text suffix attempts ⟨base, 1⟩ with
  | some outcome => rfl
  | none =>
      have hBlocked : ∀ k < attempts,
          ∃ stored ∈ t.keys, Within stored (base ++ toString (1 + k)) := fun k hk =>
        exists_within_of_not_ends hOutside (not_ends_of_search_numbered 0 hSearch k hk)
      exact absurd (le_size_of_forall_within hBlocked) (Nat.not_le_of_lt hEnough)

end Table
end LocaleKeys
