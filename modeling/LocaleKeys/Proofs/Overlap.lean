import LocaleKeys.Overlap
import LocaleKeys.Proofs.Table
import Mathlib.Data.Prod.Basic

/-! Overlaps of a probe are found by look-ups before its dots and by one scan of
the ordered keys. Both searches are exact: they see precisely the stored keys
that are related to the probe, empty segments included. -/
namespace LocaleKeys

namespace Key

/-- One of two keys lies under the other. -/
def Related (a b : String) : Prop := Under a b ∨ Under b a

instance (a b : String) : Decidable (Related a b) := inferInstanceAs (Decidable (_ ∨ _))

theorem Related.symm {a b : String} (h : Related a b) : Related b a := Or.symm h

theorem not_related_self (key : String) : ¬ Related key key :=
  fun h => h.elim (not_under_self key) (not_under_self key)

theorem under_iff_starts_with_dot {descendant ancestor : String} :
    Under descendant ancestor ↔ (ancestor ++ ".").toList <+: descendant.toList := by
  rw [String.toList_append]
  rfl

theorem Under.trans {a b c : String} (hLower : Under a b) (hUpper : Under b c) : Under a c :=
  List.IsPrefix.trans hUpper (List.IsPrefix.trans (List.prefix_append _ _) hLower)

/-- The texts that start alike have no gap in the ascending order: whatever
stands between the common start and one of them starts so, too. -/
theorem isPrefix_of_not_lt_of_lt {start x y : List Char} (hStart : ¬ x < start) (hLt : x < y)
    (hY : start <+: y) : start <+: x := by
  induction start generalizing x y with
  | nil => exact List.nil_prefix
  | cons c start ih =>
      obtain ⟨rest, rfl⟩ := hY
      cases x with
      | nil => exact absurd (List.nil_lt_cons c start) hStart
      | cons d x =>
          rw [List.cons_lt_cons_iff] at hStart
          rcases List.cons_lt_cons_iff.mp hLt with hDown | ⟨rfl, hTail⟩
          · exact absurd (.inl hDown) hStart
          · have hTailStart : ¬ x < start := fun hBefore => hStart (.inr ⟨rfl, hBefore⟩)
            exact List.cons_prefix_cons.mpr ⟨rfl, ih hTailStart hTail (List.prefix_append _ _)⟩

end Key

namespace Table

open Key (Under Related under_iff_starts_with_dot)

/-- Where the elements that pass a test all stand in front, cutting the list
there takes them as a filter does and leaves the others. -/
theorem span_eq_filter {keys : List String} {test : String → Bool}
    (h : keys.Pairwise fun a b => test b = true → test a = true) :
    keys.takeWhile test = keys.filter test ∧
      keys.dropWhile test = keys.filter fun key => !test key := by
  induction keys with
  | nil => exact ⟨rfl, rfl⟩
  | cons key rest ih =>
      obtain ⟨hHead, hRest⟩ := List.pairwise_cons.mp h
      cases hKey : test key with
      | true => simp [hKey, ih hRest]
      | false =>
          have hNone : ∀ other ∈ rest, test other = false := by
            intro other hOther
            cases hTest : test other with
            | false => rfl
            | true => exact absurd (hHead other hOther hTest) (by simp [hKey])
          have hKept : rest.filter (fun key => !test key) = rest :=
            List.filter_eq_self.mpr fun other hOther => by simp [hNone other hOther]
          simpa [hKey, hKept] using hNone

/-- The scan for descendants misses none and takes nothing else. -/
theorem descendants_eq_filter (t : Table) (key : String) :
    t.descendants key = t.keys.filter fun stored => Under stored key := by
  have hDropped : t.keys.dropWhile (· < key ++ ".") =
      t.keys.filter fun stored => !decide (stored < key ++ ".") := by
    refine (span_eq_filter (t.keys_ascending.imp ?_)).2
    intro a b hLt hBefore
    simp only [decide_eq_true_eq] at hBefore ⊢
    exact String.lt_trans hLt hBefore
  have hTaken : (t.keys.filter fun stored => !decide (stored < key ++ ".")).Pairwise
      fun a b => decide (Under b key) = true → decide (Under a key) = true := by
    refine List.Pairwise.imp_of_mem ?_ (t.keys_ascending.filter _)
    intro a b hA _ hLt hUnder
    simp only [decide_eq_true_eq, under_iff_starts_with_dot] at hUnder ⊢
    have hStart : ¬ a < key ++ "." := by simpa using (List.mem_filter.mp hA).2
    exact Key.isPrefix_of_not_lt_of_lt hStart hLt hUnder
  rw [descendants, hDropped, (span_eq_filter hTaken).1, List.filter_filter]
  apply List.filter_congr
  intro stored _
  -- A descendant starts with the probe and its dot, so the scan is not past it.
  by_cases hUnder : Under stored key
  · have hStart : ¬ stored < key ++ "." := List.IsPrefix.le (under_iff_starts_with_dot.mp hUnder)
    simp [hUnder, hStart]
  · simp [hUnder]

theorem mem_descendants_iff {t : Table} {key stored : String} :
    stored ∈ t.descendants key ↔ stored ∈ t.keys ∧ Under stored key := by
  rw [descendants_eq_filter, List.mem_filter, decide_eq_true_eq]

theorem descendants_ascending (t : Table) (key : String) :
    (t.descendants key).Pairwise (· < ·) := by
  rw [descendants_eq_filter]
  exact t.keys_ascending.filter _

/-- A look-up that fails before every dot shows that nothing stored is above. -/
theorem not_mem_of_ancestorFrom_none {t : Table} {read : String} {rest more : List Char}
    (h : t.ancestorFrom read rest = none) (hMore : more ++ ['.'] <+: rest) :
    String.ofList (read.toList ++ more) ∉ t.keys := by
  induction rest generalizing read more with
  | nil => simp at hMore
  | cons c rest ih =>
      rw [ancestorFrom] at h
      split at h
      · cases h
      next hStop =>
        cases more with
        | nil =>
            obtain rfl : '.' = c := (List.cons_prefix_cons.mp hMore).1
            simpa [contains_iff_mem_keys, String.ofList_toList] using hStop
        | cons d more =>
            obtain ⟨rfl, hTail⟩ := List.cons_prefix_cons.mp hMore
            simpa [String.toList_push] using ih h hTail

/-- A successful look-up gives a stored key before a dot. -/
theorem mem_of_ancestorFrom_some {t : Table} {read ancestor : String} {rest : List Char}
    (h : t.ancestorFrom read rest = some ancestor) :
    ancestor ∈ t.keys ∧ ∃ more, more ++ ['.'] <+: rest ∧ ancestor.toList = read.toList ++ more := by
  induction rest generalizing read with
  | nil => cases h
  | cons c rest ih =>
      rw [ancestorFrom] at h
      split at h
      next hStop =>
        obtain rfl := Option.some.inj h
        obtain ⟨hDot, hStored⟩ : c = '.' ∧ t.contains read = true := by simpa using hStop
        exact ⟨contains_iff_mem_keys.mp hStored, [], by simp [hDot], by simp⟩
      · obtain ⟨hStored, more, hMore, hRead⟩ := ih h
        exact ⟨hStored, c :: more, List.cons_prefix_cons.mpr ⟨rfl, hMore⟩, by simp [hRead]⟩

theorem ancestorOf_eq_none_iff {t : Table} {key : String} :
    t.ancestorOf key = none ↔ ∀ stored ∈ t.keys, ¬ Under key stored := by
  constructor
  · intro h stored hStored hUnder
    have := not_mem_of_ancestorFrom_none h hUnder
    simp [String.ofList_toList] at this
    exact this hStored
  · intro h
    cases hFound : t.ancestorOf key with
    | none => rfl
    | some ancestor =>
        obtain ⟨hStored, more, hMore, hRead⟩ := mem_of_ancestorFrom_some hFound
        exact absurd (by simpa [Under, hRead] using hMore) (h ancestor hStored)

theorem under_of_ancestorOf_eq_some {t : Table} {key ancestor : String}
    (h : t.ancestorOf key = some ancestor) : ancestor ∈ t.keys ∧ Under key ancestor := by
  obtain ⟨hStored, more, hMore, hRead⟩ := mem_of_ancestorFrom_some h
  exact ⟨hStored, by simpa [Under, hRead] using hMore⟩

theorem descendantOf_eq_none_iff {t : Table} {key : String} :
    t.descendantOf key = none ↔ ∀ stored ∈ t.keys, ¬ Under stored key := by
  rw [descendantOf, List.head?_eq_none_iff, descendants_eq_filter, List.filter_eq_nil_iff]
  simp

theorem under_of_descendantOf_eq_some {t : Table} {key descendant : String}
    (h : t.descendantOf key = some descendant) : descendant ∈ t.keys ∧ Under descendant key :=
  mem_descendants_iff.mp (List.mem_of_mem_head? h)

/-- The look-ups and the scan together find an overlap whenever there is one. -/
theorem overlapping_eq_none_iff {t : Table} {key : String} :
    t.overlapping key = none ↔ ∀ stored ∈ t.keys, ¬ Related key stored := by
  constructor
  · intro h stored hStored hRelated
    rw [overlapping] at h
    split at h
    · cases h
    next hNone =>
      rw [Option.map_eq_none_iff, descendantOf_eq_none_iff] at h
      exact hRelated.elim (ancestorOf_eq_none_iff.mp hNone stored hStored) (h stored hStored)
  · intro h
    have hAncestor := ancestorOf_eq_none_iff.mpr fun stored hStored hUnder =>
      h stored hStored (.inl hUnder)
    have hDescendant := descendantOf_eq_none_iff.mpr fun stored hStored hUnder =>
      h stored hStored (.inr hUnder)
    simp [overlapping, hAncestor, hDescendant]

theorem mem_overlaps_iff {t : Table} {ancestor descendant : String} :
    (ancestor, descendant) ∈ t.overlaps ↔
      ancestor ∈ t.keys ∧ descendant ∈ t.keys ∧ Under descendant ancestor := by
  simp [overlaps, mem_descendants_iff]

/-- A table is without overlaps when no two of its keys are related. -/
theorem overlaps_eq_nil_iff {t : Table} :
    t.overlaps = [] ↔ ∀ a ∈ t.keys, ∀ b ∈ t.keys, ¬ Related a b := by
  constructor
  · intro h a hA b hB hRelated
    rcases hRelated with hUnder | hUnder
    · exact List.not_mem_nil (h ▸ mem_overlaps_iff.mpr ⟨hB, hA, hUnder⟩)
    · exact List.not_mem_nil (h ▸ mem_overlaps_iff.mpr ⟨hA, hB, hUnder⟩)
  · intro h
    refine List.eq_nil_iff_forall_not_mem.mpr fun pair hPair => ?_
    obtain ⟨hUpper, hLower, hUnder⟩ := mem_overlaps_iff.mp hPair
    exact h pair.1 hUpper pair.2 hLower (.inr hUnder)

/-- The pairs come by their first keys, and for each of these by their second keys. -/
theorem overlaps_ascending (t : Table) :
    t.overlaps.Pairwise (Prod.Lex (· < ·) (· < ·)) := by
  rw [overlaps, List.pairwise_flatMap]
  constructor
  · intro ancestor _
    rw [List.pairwise_map]
    exact (t.descendants_ascending ancestor).imp fun hLt => .right _ hLt
  · refine t.keys_ascending.imp fun {first second} hLt pair hPair other hOther => ?_
    obtain ⟨stored, _, rfl⟩ := List.mem_map.mp hPair
    obtain ⟨found, _, rfl⟩ := List.mem_map.mp hOther
    exact .left _ _ hLt

/-- A new key adds the pairs in which it stands and no others. -/
theorem overlaps_insert_filter {t : Table} {key : String} (text : String) (hNew : key ∉ t.keys) :
    (t.insert key text).overlaps.filter (fun pair => pair.1 ≠ key ∧ pair.2 ≠ key) =
      t.overlaps := by
  refine eq_of_mem_iff_of_pairwise (fun _ _ => asymm)
    ((t.insert key text).overlaps_ascending.filter _) t.overlaps_ascending ?_
  rintro ⟨ancestor, descendant⟩
  have hOld {stored : String} (hStored : stored ∈ t.keys) : stored ≠ key :=
    fun hSame => hNew (hSame ▸ hStored)
  rw [List.mem_filter, decide_eq_true_eq, mem_overlaps_iff, mem_overlaps_iff, mem_keys_insert,
    mem_keys_insert]
  constructor
  · rintro ⟨⟨hUpper, hLower, hUnder⟩, hUpperNe, hLowerNe⟩
    exact ⟨hUpper.resolve_left hUpperNe, hLower.resolve_left hLowerNe, hUnder⟩
  · rintro ⟨hUpper, hLower, hUnder⟩
    exact ⟨⟨.inr hUpper, .inr hLower, hUnder⟩, hOld hUpper, hOld hLower⟩

/-- A new key that is related to no stored key leaves the overlaps as they were. -/
theorem overlaps_insert_of_unrelated {t : Table} {key : String} (text : String)
    (hNew : key ∉ t.keys) (hFree : ∀ stored ∈ t.keys, ¬ Related key stored) :
    (t.insert key text).overlaps = t.overlaps := by
  rw [← overlaps_insert_filter text hNew, eq_comm, List.filter_eq_self]
  rintro ⟨ancestor, descendant⟩ hPair
  rw [mem_overlaps_iff, mem_keys_insert, mem_keys_insert] at hPair
  obtain ⟨hUpper, hLower, hUnder⟩ := hPair
  rw [decide_eq_true_eq]
  -- The key has no stored key above it or under it, and it does not lie under itself.
  constructor
  · rintro rfl
    rcases hLower with rfl | hStored
    · exact Key.not_under_self _ hUnder
    · exact hFree descendant hStored (.inr hUnder)
  · rintro rfl
    rcases hUpper with rfl | hStored
    · exact Key.not_under_self _ hUnder
    · exact hFree ancestor hStored (.inl hUnder)

end Table
end LocaleKeys
