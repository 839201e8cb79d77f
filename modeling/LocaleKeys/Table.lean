/-! Tables from strings to strings in ascending order of their keys. Order is
by code point. The entries are kept strictly ascending, so a table is determined
by its look-ups and two tables with the same entries are equal. -/
namespace LocaleKeys

/-- A finite map from keys to texts, listed in ascending order of the keys. -/
structure Table where
  entries : List (String × String)
  ascending : entries.Pairwise (fun a b => a.1 < b.1)
  deriving DecidableEq

namespace Table

/-- The table without entries. -/
def empty : Table := ⟨[], .nil⟩

instance : Inhabited Table := ⟨empty⟩

/-- The text stored under a key. -/
def lookup (t : Table) (key : String) : Option String := t.entries.lookup key

/-- Whether a key is stored. -/
def contains (t : Table) (key : String) : Bool := (t.lookup key).isSome

/-- Number of entries. -/
def size (t : Table) : Nat := t.entries.length

/-- The stored keys, ascending. -/
def keys (t : Table) : List String := t.entries.map Prod.fst

/-- Puts an entry in its place of an ascending list; an entry with the same key
gives way to it. -/
def insertEntry (key text : String) : List (String × String) → List (String × String)
  | [] => [(key, text)]
  | (k, stored) :: rest =>
      if key < k then (key, text) :: (k, stored) :: rest
      else if key = k then (key, text) :: rest
      else (k, stored) :: insertEntry key text rest

theorem mem_insertEntry {key text : String} {entries : List (String × String)}
    {entry : String × String} (h : entry ∈ insertEntry key text entries) :
    entry = (key, text) ∨ entry ∈ entries := by
  induction entries with
  | nil => simpa [insertEntry] using h
  | cons head rest ih =>
      obtain ⟨k, stored⟩ := head
      simp only [insertEntry] at h
      split at h
      · simpa using h
      · split at h
        · rcases List.mem_cons.mp h with h | h
          · exact .inl h
          · exact .inr (List.mem_cons_of_mem _ h)
        · rcases List.mem_cons.mp h with h | h
          · exact .inr (h ▸ List.mem_cons_self)
          · exact (ih h).imp id (List.mem_cons_of_mem _)

theorem lt_of_not_lt_of_ne {a b : String} (hLt : ¬ a < b) (hNe : a ≠ b) : b < a := by
  by_cases h : b < a
  · exact h
  · exact absurd (String.le_antisymm (String.not_lt.mp h) (String.not_lt.mp hLt)) hNe

theorem insertEntry_ascending (key text : String) {entries : List (String × String)}
    (h : entries.Pairwise (fun a b => a.1 < b.1)) :
    (insertEntry key text entries).Pairwise (fun a b => a.1 < b.1) := by
  induction entries with
  | nil => simp [insertEntry]
  | cons head rest ih =>
      obtain ⟨k, stored⟩ := head
      obtain ⟨hHead, hRest⟩ := List.pairwise_cons.mp h
      simp only [insertEntry]
      split
      next hLt =>
        refine List.pairwise_cons.mpr ⟨?_, h⟩
        intro entry member
        rcases List.mem_cons.mp member with rfl | member
        · exact hLt
        · exact String.lt_trans hLt (hHead entry member)
      next hLt =>
        split
        next hEq =>
          subst hEq
          exact List.pairwise_cons.mpr ⟨hHead, hRest⟩
        next hNe =>
          refine List.pairwise_cons.mpr ⟨?_, ih hRest⟩
          intro entry member
          rcases mem_insertEntry member with rfl | member
          · exact lt_of_not_lt_of_ne hLt hNe
          · exact hHead entry member

/-- The table with one entry added or replaced. -/
def insert (t : Table) (key text : String) : Table :=
  ⟨insertEntry key text t.entries, insertEntry_ascending key text t.ascending⟩

theorem lookup_cons_of_ne {key text other : String} {rest : List (String × String)}
    (h : other ≠ key) : ((key, text) :: rest).lookup other = rest.lookup other := by
  have hBeq : (other == key) = false := beq_false_of_ne h
  simp only [List.lookup_cons, hBeq]

theorem lookup_insertEntry (key text other : String) (entries : List (String × String)) :
    (insertEntry key text entries).lookup other =
      if other = key then some text else entries.lookup other := by
  by_cases h : other = key
  · subst h
    rw [if_pos rfl]
    induction entries with
    | nil => simp [insertEntry]
    | cons head rest ih =>
        obtain ⟨k, stored⟩ := head
        simp only [insertEntry]
        split
        · exact List.lookup_cons_self
        · split
          next => exact List.lookup_cons_self
          next hNe => rw [lookup_cons_of_ne hNe, ih]
  · rw [if_neg h]
    induction entries with
    | nil => rw [insertEntry, lookup_cons_of_ne h]
    | cons head rest ih =>
        obtain ⟨k, stored⟩ := head
        simp only [insertEntry]
        split
        · exact lookup_cons_of_ne h
        · split
          next hEq =>
            subst hEq
            rw [lookup_cons_of_ne h, lookup_cons_of_ne h]
          next =>
            by_cases hk : other = k
            · subst hk
              simp
            · rw [lookup_cons_of_ne hk, lookup_cons_of_ne hk, ih]

/-- An insertion is seen under its key and nowhere else. -/
theorem lookup_insert (t : Table) (key text other : String) :
    (t.insert key text).lookup other = if other = key then some text else t.lookup other :=
  lookup_insertEntry key text other t.entries

/-- The table of a list of entries; of two with one key the later one stays. -/
def ofList (entries : List (String × String)) : Table :=
  entries.foldl (fun t entry => t.insert entry.1 entry.2) empty

/-- Every text replaced by a function of its key and itself; the keys stay. -/
def mapTexts (f : String → String → String) (t : Table) : Table where
  entries := t.entries.map fun entry => (entry.1, f entry.1 entry.2)
  ascending := List.pairwise_map.mpr t.ascending

end Table
end LocaleKeys
