import LocaleKeys.Proofs.Branch

/-! Detection of overlaps. Looking up what stands before each dot finds the shortest stored
key above a probe, and the scan finds the first stored key under it, so the overlap that is
answered is determined by the stored keys alone. The list of all overlaps is in order and
without repetition, and a new key adds to it the pairs in which it stands and no others. -/
namespace LocaleKeys.Table

open Key (Under Related)

variable {t : Table} {key text ancestor descendant : String}

/-- The look-ups go from shorter to longer texts, so what they find is the shortest key. -/
theorem length_le_of_ancestorFrom {read : String} {rest more : List Char}
    (h : t.ancestorFrom read rest = some ancestor)
    (hStored : String.ofList (read.toList ++ more) ∈ t.keys) (hMore : more ++ ['.'] <+: rest) :
    ancestor.length ≤ read.length + more.length := by
  induction rest generalizing read more with
  | nil => cases h
  | cons c rest ih =>
      rw [ancestorFrom] at h
      split at h
      · obtain rfl := Option.some.inj h
        exact Nat.le_add_right _ _
      next hGoesOn =>
        cases more with
        | nil =>
            -- The key ends before this dot, where the look-up did not stop.
            obtain rfl : '.' = c := (List.cons_prefix_cons.mp hMore).1
            rw [List.append_nil, String.ofList_toList, ← contains_iff_mem_keys] at hStored
            exact absurd hStored (by simpa using hGoesOn)
        | cons d more =>
            obtain ⟨rfl, hTail⟩ := List.cons_prefix_cons.mp hMore
            have hStep := ih h (by simpa [String.toList_push] using hStored) hTail
            rw [String.length_push] at hStep
            rw [List.length_cons]
            omega

/-- Of the keys above one key no two are equally long. -/
theorem eq_of_under_of_length_eq {other : String} (h : Under key ancestor)
    (hOther : Under key other) (hLength : ancestor.length = other.length) : ancestor = other := by
  have hSameLength : (ancestor.toList ++ ['.']).length = (other.toList ++ ['.']).length := by
    rw [List.length_append, List.length_append, String.length_toList, String.length_toList, hLength]
  have hPrefix := List.prefix_of_prefix_length_le h hOther hSameLength.le
  exact String.toList_inj.mp (List.append_cancel_right (hPrefix.eq_of_length hSameLength))

theorem ancestorOf_eq_some_iff : t.ancestorOf key = some ancestor ↔
    ancestor ∈ t.keys ∧ Under key ancestor ∧
      ∀ other ∈ t.keys, Under key other → ancestor.length ≤ other.length := by
  have hShortest (found : String) (h : t.ancestorOf key = some found) :
      ∀ other ∈ t.keys, Under key other → found.length ≤ other.length := by
    intro other hOther hUnder
    have hLength := length_le_of_ancestorFrom h (by simpa [String.ofList_toList] using hOther) hUnder
    rwa [String.length_empty, String.length_toList, Nat.zero_add] at hLength
  constructor
  · intro h
    obtain ⟨hStored, hUnder⟩ := under_of_ancestorOf_eq_some h
    exact ⟨hStored, hUnder, hShortest ancestor h⟩
  · rintro ⟨hStored, hUnder, hLeast⟩
    cases hFound : t.ancestorOf key with
    | none => exact absurd hUnder (ancestorOf_eq_none_iff.mp hFound ancestor hStored)
    | some found =>
        obtain ⟨hFoundStored, hFoundUnder⟩ := under_of_ancestorOf_eq_some hFound
        have hLength := Nat.le_antisymm (hShortest found hFound ancestor hStored hUnder)
          (hLeast found hFoundStored hFoundUnder)
        rw [eq_of_under_of_length_eq hFoundUnder hUnder hLength]

/-- The first of an ascending list is its least member. -/
theorem head?_eq_some_iff_of_ascending {keys : List String} (h : keys.Pairwise (· < ·)) :
    keys.head? = some key ↔ key ∈ keys ∧ ∀ other ∈ keys, key ≤ other := by
  cases keys with
  | nil => simp
  | cons first rest =>
      have hFirst := (List.pairwise_cons.mp h).1
      rw [List.head?_cons, Option.some.injEq]
      constructor
      · rintro rfl
        refine ⟨List.mem_cons_self, fun other hOther => ?_⟩
        rcases List.mem_cons.mp hOther with rfl | hRest
        · exact String.le_refl _
        · exact String.not_lt.mp (String.lt_asymm (hFirst other hRest))
      · rintro ⟨hMem, hLeast⟩
        rcases List.mem_cons.mp hMem with hSame | hRest
        · exact hSame.symm
        · exact absurd (hFirst key hRest) (String.not_lt.mpr (hLeast first List.mem_cons_self))

theorem descendantOf_eq_some_iff : t.descendantOf key = some descendant ↔
    descendant ∈ t.keys ∧ Under descendant key ∧
      ∀ other ∈ t.keys, Under other key → descendant ≤ other := by
  rw [descendantOf, head?_eq_some_iff_of_ascending (t.descendants_ascending key),
    mem_descendants_iff, and_assoc]
  simp only [mem_descendants_iff, and_imp]

theorem overlapping_eq_ancestor_iff :
    t.overlapping key = some (.ancestor ancestor) ↔ t.ancestorOf key = some ancestor := by
  rw [overlapping]
  cases t.ancestorOf key <;> simp

theorem overlapping_eq_descendant_iff : t.overlapping key = some (.descendant descendant) ↔
    t.ancestorOf key = none ∧ t.descendantOf key = some descendant := by
  rw [overlapping]
  cases t.ancestorOf key <;> simp

/-- An entry under the probe itself is never seen. -/
theorem overlapping_insert_self (t : Table) (key text : String) :
    (t.insert key text).overlapping key = t.overlapping key := by
  apply overlapping_congr
  intro near hRelated
  have hNe : near ≠ key := by
    rintro rfl
    exact Key.not_related_self near hRelated
  rw [contains, contains, lookup_insert, if_neg hNe]

/-- The overlap that is answered follows from the stored keys. It is the shortest one that
the probe lies under, if there is one; else the first that lies under the probe; and none
when no stored key is related to the probe. What is stored under the probe itself does not
matter. -/
theorem overlapping_exact (t : Table) (key : String) :
    (∀ ancestor, t.overlapping key = some (.ancestor ancestor) ↔
      ancestor ∈ t.keys ∧ Under key ancestor ∧
        ∀ other ∈ t.keys, Under key other → ancestor.length ≤ other.length) ∧
    (∀ descendant, t.overlapping key = some (.descendant descendant) ↔
      (∀ stored ∈ t.keys, ¬ Under key stored) ∧
        descendant ∈ t.keys ∧ Under descendant key ∧
          ∀ other ∈ t.keys, Under other key → descendant ≤ other) ∧
    (t.overlapping key = none ↔ ∀ stored ∈ t.keys, ¬ Related key stored) ∧
    ∀ text, (t.insert key text).overlapping key = t.overlapping key := by
  refine ⟨fun ancestor => ?_, fun descendant => ?_, overlapping_eq_none_iff,
    t.overlapping_insert_self key⟩
  · rw [overlapping_eq_ancestor_iff, ancestorOf_eq_some_iff]
  · rw [overlapping_eq_descendant_iff, ancestorOf_eq_none_iff, descendantOf_eq_some_iff]

/-- An empty key is the shortest one above `.a..b`, and `a-b` stands between `a` and the
first key under it. -/
example :
    let t := Table.ofList [("", "E"), (".a", "A"), ("a", "B"), ("a-b", "C"), ("a..c", "D")]
    t.overlapping ".a..b" = some (.ancestor "") ∧ t.overlapping "a" = some (.descendant "a..c") ∧
      t.overlapping "a-" = none := by
  decide +kernel

/-- A key can be put in without a new overlap exactly when none is found for it. -/
theorem overlapping_eq_none_iff_overlaps_insert (text : String) (hNew : key ∉ t.keys) :
    t.overlapping key = none ↔ (t.insert key text).overlaps = t.overlaps := by
  constructor
  · intro hNone
    exact overlaps_insert_of_unrelated text hNew (overlapping_eq_none_iff.mp hNone)
  · intro hSame
    rw [overlapping_eq_none_iff]
    intro stored hStored hRelated
    have hOld (upper lower : String) (hPair : (upper, lower) ∈ (t.insert key text).overlaps) :
        upper ∈ t.keys ∧ lower ∈ t.keys := by
      rw [hSame, mem_overlaps_iff] at hPair
      exact ⟨hPair.1, hPair.2.1⟩
    have hKey : key ∈ (t.insert key text).keys := mem_keys_insert.mpr (.inl rfl)
    have hKept : stored ∈ (t.insert key text).keys := mem_keys_insert.mpr (.inr hStored)
    rcases hRelated with hUnder | hUnder
    · exact hNew (hOld stored key (mem_overlaps_iff.mpr ⟨hKept, hKey, hUnder⟩)).2
    · exact hNew (hOld key stored (mem_overlaps_iff.mpr ⟨hKey, hKept, hUnder⟩)).1

/-- The overlaps of a table are the pairs of stored keys of which the second lies under the
first, each once and in ascending order. With a new key come the pairs in which it stands
and no others, and none come when no overlap is found for it. -/
theorem overlaps_exact (t : Table) :
    (∀ ancestor descendant, (ancestor, descendant) ∈ t.overlaps ↔
      ancestor ∈ t.keys ∧ descendant ∈ t.keys ∧ Under descendant ancestor) ∧
    t.overlaps.Nodup ∧ t.overlaps.Pairwise (Prod.Lex (· < ·) (· < ·)) ∧
    ∀ key text, key ∉ t.keys →
      (t.insert key text).overlaps.filter (fun pair => pair.1 ≠ key ∧ pair.2 ≠ key) =
        t.overlaps ∧
      (t.overlapping key = none ↔ (t.insert key text).overlaps = t.overlaps) := by
  refine ⟨fun _ _ => mem_overlaps_iff, t.overlaps_ascending.nodup, t.overlaps_ascending, ?_⟩
  intro key text hNew
  exact ⟨overlaps_insert_filter text hNew, overlapping_eq_none_iff_overlaps_insert text hNew⟩

/-- `a-b` stands between `a` and the keys under it. The new key `a.b` lies under one key and
above another. -/
theorem overlaps_with_key_between :
    let t := Table.ofList [("a", "A"), ("a-b", "B"), ("a.b.c", "C"), ("a.d", "D")]
    "a.b" ∉ t.keys ∧ t.overlaps = [("a", "a.b.c"), ("a", "a.d")] ∧
      (t.insert "a.b" "E").overlaps =
        [("a", "a.b"), ("a", "a.b.c"), ("a", "a.d"), ("a.b", "a.b.c")] ∧
      (t.insert "a.b" "E").overlaps.filter (fun pair => pair.1 ≠ "a.b" ∧ pair.2 ≠ "a.b") =
        t.overlaps ∧
      (t.overlapping "a.b" = none ↔ (t.insert "a.b" "E").overlaps = t.overlaps) := by
  intro t
  have hNew : "a.b" ∉ t.keys := by decide +kernel
  exact ⟨hNew, by decide +kernel, by decide +kernel, (overlaps_exact t).2.2.2 "a.b" "E" hNew⟩

end LocaleKeys.Table
