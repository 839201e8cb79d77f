import LocaleKeys.Table
import Mathlib.Data.List.Induction
import Mathlib.Data.List.Nodup

/-! Look-ups, keys and entries of a table say the same, and a new entry is put
between the entries that were there. -/
namespace LocaleKeys

/-- A look-up in a list compares the first name and goes on. Stated with a test that can be
split, since the library's rule speaks of `==`. -/
theorem lookup_cons_eq_ite {α β : Type} [BEq α] [LawfulBEq α] [DecidableEq α] (entry : α × β)
    (rest : List (α × β)) (name : α) :
    (entry :: rest).lookup name = if name = entry.1 then some entry.2 else rest.lookup name := by
  rw [List.lookup_cons]
  by_cases h : name = entry.1
  · rw [if_pos h, beq_iff_eq.mpr h]
  · rw [if_neg h, beq_false_of_ne h]

section Association

variable {β : Type} {name : String} {value : β} {listed : List (String × β)}

/-- What a look-up finds is listed, whether names are listed twice or not. -/
theorem mem_of_lookup (h : listed.lookup name = some value) : (name, value) ∈ listed := by
  obtain ⟨before, after, hSplit, _⟩ := List.lookup_eq_some_iff.mp h
  rw [hSplit]
  simp

/-- A look-up finds nothing exactly when the name is not listed. -/
theorem lookup_eq_none_iff_not_mem : listed.lookup name = none ↔ name ∉ listed.map Prod.fst := by
  rw [List.lookup_eq_none_iff]
  grind

/-- Among distinct names a look-up sees exactly what is listed. -/
theorem lookup_eq_some_iff_mem (h : (listed.map Prod.fst).Nodup) :
    listed.lookup name = some value ↔ (name, value) ∈ listed := by
  refine ⟨mem_of_lookup, fun hMem => ?_⟩
  obtain ⟨before, after, hSplit⟩ := List.append_of_mem hMem
  refine List.lookup_eq_some_iff.mpr ⟨before, after, hSplit, fun entry hBefore => ?_⟩
  rw [hSplit, List.map_append, List.nodup_append] at h
  exact bne_iff_ne.mpr fun hSame =>
    h.2.2 entry.1 (List.mem_map_of_mem hBefore) name (by simp) hSame.symm

end Association

namespace Table

/-- A table contains a key when it is among its keys. The results on placing speak of keys,
the program asks with `contains`. -/
theorem contains_iff_mem_keys {t : Table} {key : String} :
    t.contains key = true ↔ key ∈ t.keys := by
  rw [contains, Option.isSome_iff_ne_none, ne_eq, lookup, List.lookup_eq_none_iff]
  simp [keys]

/-- A key that is not among the keys has no text, and the other way round. -/
theorem lookup_eq_none_iff {t : Table} {key : String} : t.lookup key = none ↔ key ∉ t.keys := by
  rw [← contains_iff_mem_keys, contains, Option.not_isSome_iff_eq_none]

theorem mem_keys_of_lookup {t : Table} {key text : String} (h : t.lookup key = some text) :
    key ∈ t.keys := by
  rw [← contains_iff_mem_keys, contains, h]
  rfl

theorem keys_ascending (t : Table) : t.keys.Pairwise (· < ·) :=
  List.pairwise_map.mpr t.ascending

/-- The keys of a table ascend, so no key is there twice. Counting keys is counting
entries. -/
theorem keys_nodup (t : Table) : t.keys.Nodup := by
  refine t.keys_ascending.imp ?_
  rintro key _ hLt rfl
  exact String.lt_irrefl key hLt

/-- The entries are what look-ups find. Tables are compared by look-ups and listed by entries,
and this leads from one to the other. -/
theorem mem_entries_iff {t : Table} {key text : String} :
    (key, text) ∈ t.entries ↔ t.lookup key = some text :=
  (lookup_eq_some_iff_mem t.keys_nodup).symm

theorem mem_keys_iff {t : Table} {key : String} :
    key ∈ t.keys ↔ ∃ text, (key, text) ∈ t.entries := by
  simp [keys]

theorem size_eq_length_keys (t : Table) : t.size = t.keys.length := by
  simp [size, keys]

/-- Ascending lists are told apart by what they hold. -/
theorem eq_of_mem_iff_of_pairwise {α : Type} {lt : α → α → Prop}
    (hAsymm : ∀ a b, lt a b → ¬ lt b a) {xs ys : List α} (hXs : xs.Pairwise lt)
    (hYs : ys.Pairwise lt) (h : ∀ x, x ∈ xs ↔ x ∈ ys) : xs = ys := by
  have hNe {a b : α} (hLt : lt a b) : a ≠ b := by
    rintro rfl
    exact hAsymm a a hLt hLt
  have hPerm := (List.perm_ext_iff_of_nodup (hXs.imp hNe) (hYs.imp hNe)).mpr h
  exact hPerm.eq_of_pairwise (fun a b _ _ hAB hBA => absurd hBA (hAsymm a b hAB)) hXs hYs

/-- A table is determined by its look-ups, because its entries ascend. Results that two tables
are equal come down to this. -/
theorem ext_lookup {t other : Table} (h : ∀ key, t.lookup key = other.lookup key) : t = other := by
  have hAsymm (a b : String × String) (hLt : a.1 < b.1) : ¬ b.1 < a.1 := String.lt_asymm hLt
  have hEntries : t.entries = other.entries := by
    refine eq_of_mem_iff_of_pairwise hAsymm t.ascending other.ascending fun ⟨key, text⟩ => ?_
    rw [mem_entries_iff, mem_entries_iff, h key]
  cases t
  cases other
  rw [mk.injEq]
  exact hEntries

/-- A new entry is put between the others, which keep their order. The counts of keys and
entries come from this. -/
theorem insertEntry_of_not_mem {key : String} (text : String) {entries : List (String × String)}
    (h : key ∉ entries.map Prod.fst) :
    ∃ before after, entries = before ++ after ∧
      insertEntry key text entries = before ++ (key, text) :: after := by
  induction entries with
  | nil => exact ⟨[], [], rfl, rfl⟩
  | cons head rest ih =>
      obtain ⟨k, stored⟩ := head
      obtain ⟨hNe, hRest⟩ : key ≠ k ∧ key ∉ rest.map Prod.fst := by simpa using h
      by_cases hLt : key < k
      · exact ⟨[], (k, stored) :: rest, rfl, by simp [insertEntry, hLt]⟩
      · obtain ⟨before, after, hEntries, hInserted⟩ := ih hRest
        exact ⟨(k, stored) :: before, after, by simp [hEntries], by
          simp [insertEntry, hLt, hNe, hInserted]⟩

theorem keys_insert_of_not_mem {t : Table} {key : String} (text : String) (h : key ∉ t.keys) :
    ∃ before after, t.keys = before ++ after ∧
      (t.insert key text).keys = before ++ key :: after := by
  obtain ⟨before, after, hEntries, hInserted⟩ := insertEntry_of_not_mem text h
  refine ⟨before.map Prod.fst, after.map Prod.fst, ?_, ?_⟩
  · simp [keys, hEntries]
  · simp [keys, insert, hInserted]

/-- A new key makes a table larger by one entry. So the growth of a table counts its new
keys. -/
theorem size_insert_of_not_mem {t : Table} {key : String} (text : String) (h : key ∉ t.keys) :
    (t.insert key text).size = t.size + 1 := by
  obtain ⟨before, after, hKeys, hInserted⟩ := keys_insert_of_not_mem text h
  simp [size_eq_length_keys, hKeys, hInserted, Nat.add_assoc]

/-- An insertion adds its key and keeps the others, whether the key was there before or
not. -/
theorem mem_keys_insert {t : Table} {key text other : String} :
    other ∈ (t.insert key text).keys ↔ other = key ∨ other ∈ t.keys := by
  rw [← contains_iff_mem_keys, ← contains_iff_mem_keys, contains, contains, lookup_insert]
  by_cases h : other = key <;> simp [h]

/-- The table of a list of entries holds the last one of each key, so a key that is given
twice has its last text. -/
theorem lookup_ofList (entries : List (String × String)) (key : String) :
    (ofList entries).lookup key = entries.reverse.lookup key := by
  induction entries using List.reverseRecOn with
  | nil => rfl
  | append_singleton entries entry ih =>
      have hInsert : ofList (entries ++ [entry]) = (ofList entries).insert entry.1 entry.2 := by
        rw [ofList, List.foldl_append]
        rfl
      rw [hInsert, lookup_insert, List.reverse_concat, ih]
      split
      next hKey => rw [hKey, List.lookup_cons_self]
      next hKey => rw [lookup_cons_of_ne hKey]

theorem mem_keys_ofList {key : String} {entries : List (String × String)} :
    key ∈ (ofList entries).keys ↔ key ∈ entries.map Prod.fst := by
  rw [← contains_iff_mem_keys, contains, lookup_ofList, List.lookup_isSome_iff]
  simp

/-- A list that holds the entries of a table, in whatever order and however often, makes the
table. Flattened trees are compared with their tables by this. -/
theorem ofList_eq {t : Table} {entries : List (String × String)}
    (h : ∀ entry, entry ∈ entries ↔ entry ∈ t.entries) : ofList entries = t := by
  have hStored (key text : String) (hLookup : (ofList entries).lookup key = some text) :
      t.lookup key = some text := by
    rw [lookup_ofList] at hLookup
    exact mem_entries_iff.mp ((h _).mp (List.mem_reverse.mp (mem_of_lookup hLookup)))
  apply ext_lookup
  intro key
  cases hLookup : (ofList entries).lookup key with
  | some text => exact (hStored key text hLookup).symm
  | none =>
      rw [lookup_eq_none_iff, mem_keys_ofList] at hLookup
      rw [eq_comm, lookup_eq_none_iff]
      intro hKey
      obtain ⟨text, hEntry⟩ := mem_keys_iff.mp hKey
      exact hLookup (List.mem_map_of_mem ((h _).mpr hEntry))

/-- Entries with distinct keys are the entries of the table that they make. -/
theorem entries_ofList_perm {entries : List (String × String)}
    (h : (entries.map Prod.fst).Nodup) : (ofList entries).entries.Perm entries := by
  have hReverse : (entries.reverse.map Prod.fst).Nodup := by
    rwa [List.map_reverse, List.nodup_reverse]
  refine (List.perm_ext_iff_of_nodup (ofList entries).keys_nodup.of_map h.of_map).mpr ?_
  rintro ⟨key, text⟩
  rw [mem_entries_iff, lookup_ofList, lookup_eq_some_iff_mem hReverse, List.mem_reverse]

/-- The entries of the keys that pass a test. -/
def filterKeys (keep : String → Bool) (t : Table) : Table where
  entries := t.entries.filter fun entry => keep entry.1
  ascending := t.ascending.filter _

theorem mem_entries_filterKeys {keep : String → Bool} {t : Table} {entry : String × String} :
    entry ∈ (t.filterKeys keep).entries ↔ entry ∈ t.entries ∧ keep entry.1 = true :=
  List.mem_filter

/-- Two tests that agree on the keys of a table leave the same entries. -/
theorem filterKeys_congr {keep other : String → Bool} {t : Table}
    (h : ∀ key ∈ t.keys, keep key = other key) : t.filterKeys keep = t.filterKeys other := by
  have hEntries : (t.filterKeys keep).entries = (t.filterKeys other).entries :=
    List.filter_congr fun entry hEntry => h entry.1 (List.mem_map_of_mem hEntry)
  rw [mk.injEq]
  exact hEntries

theorem filterKeys_eq_self {keep : String → Bool} {t : Table}
    (h : ∀ key ∈ t.keys, keep key = true) : t.filterKeys keep = t := by
  have hEntries : (t.filterKeys keep).entries = t.entries :=
    List.filter_eq_self.mpr fun entry hEntry => h entry.1 (List.mem_map_of_mem hEntry)
  cases t
  rw [mk.injEq]
  exact hEntries

end Table
end LocaleKeys
