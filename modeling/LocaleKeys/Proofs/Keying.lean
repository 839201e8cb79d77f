import LocaleKeys.Batch
import LocaleKeys.Proofs.Stability
import LocaleKeys.Settings
import Mathlib.Data.List.Perm.Subperm

/-! Batches keyed entry by entry. The table grows along the way, and in every later
table the same entries have the same keys and none of them is new. -/
namespace LocaleKeys

namespace Table.Grows

variable {t later : Table}

theorem keys_subperm (h : t.Grows later) : t.keys.Subperm later.keys :=
  t.keys_nodup.subperm fun _ hKey => h.mem_keys hKey

/-- A table that grows does not become smaller. -/
theorem size_le (h : t.Grows later) : t.size ≤ later.size := by
  rw [size_eq_length_keys, size_eq_length_keys]
  exact h.keys_subperm.length_le

/-- A table that is no larger after it has grown is the same. -/
theorem eq_of_size_le (h : t.Grows later) (hSize : later.size ≤ t.size) : later = t := by
  rw [size_eq_length_keys, size_eq_length_keys] at hSize
  have hPerm := h.keys_subperm.perm_of_length_le hSize
  apply ext_lookup
  intro key
  cases hLookup : t.lookup key with
  | some text => exact h.keeps key text hLookup
  | none =>
      rw [lookup_eq_none_iff] at hLookup ⊢
      exact fun hKey => hLookup (hPerm.mem_iff.mpr hKey)

end Table.Grows

/-- Where the text of an entry is found or put by the settings. -/
def Settings.place (s : Settings) (t : Table) (entry : Batch.Entry) : Except NoFreeKey Outcome :=
  t.place s.maxIterations entry.text
    (s.scheme.candidate entry.text (s.context entry.file entry.path)) entry.suffix

/-- The namer of the settings in the middle of its work. -/
def Settings.namerAt (s : Settings) (t : Table) (requests : Nat) : Namer where
  ledger := { table := t, requests }
  scheme := s.scheme
  limit := s.maxIterations

/-- A request for an entry is answered by its place in the table. -/
theorem Settings.name_namerAt (s : Settings) (t : Table) (requests : Nat) (entry : Batch.Entry) :
    (s.namerAt t requests).name entry.text (s.context entry.file entry.path) entry.suffix =
      match s.place t entry with
      | .ok outcome => (.ok outcome, s.namerAt (t.after entry.text outcome) (requests + 1))
      | .error e => (.error e, s.namerAt t (requests + 1)) := by
  simp only [Namer.name, Ledger.place, Ledger.request, namerAt, place]
  cases t.place s.maxIterations entry.text
    (s.scheme.candidate entry.text (s.context entry.file entry.path)) entry.suffix <;> rfl

namespace Batch

/-- The entries of a batch are given keys, each in the table that the ones before it have
left, and a table is left in the end. -/
inductive Keyed (s : Settings) : Table → List Entry → List String → Table → Prop
  | nil (t : Table) : Keyed s t [] [] t
  | cons {t later : Table} {entry : Entry} {entries : List Entry} {outcome : Outcome}
      {keys : List String} (hPlace : s.place t entry = .ok outcome)
      (hRest : Keyed s (t.after entry.text outcome) entries keys later) :
      Keyed s t (entry :: entries) (outcome.key :: keys) later

theorem keyed_nil_iff {s : Settings} {t later : Table} {keys : List String} :
    Keyed s t [] keys later ↔ keys = [] ∧ later = t := by
  constructor
  · rintro ⟨⟩
    exact ⟨rfl, rfl⟩
  · rintro ⟨rfl, rfl⟩
    exact .nil _

/-- Entries are keyed one after another, each in the table that the ones before it have
left. -/
theorem keyed_cons_iff {s : Settings} {t later : Table} {entry : Entry} {entries : List Entry}
    {keys : List String} : Keyed s t (entry :: entries) keys later ↔
      ∃ outcome rest, s.place t entry = .ok outcome ∧
        Keyed s (t.after entry.text outcome) entries rest later ∧ keys = outcome.key :: rest := by
  constructor
  · rintro (_ | ⟨hPlace, hRest⟩)
    exact ⟨_, _, hPlace, hRest, rfl⟩
  · rintro ⟨outcome, rest, hPlace, hRest, rfl⟩
    exact .cons hPlace hRest

namespace Keyed

variable {s : Settings} {t later last : Table} {entries : List Entry} {keys : List String}

/-- There are as many keys as entries. -/
theorem length_eq (h : Keyed s t entries keys later) : keys.length = entries.length := by
  induction h with
  | nil t => rfl
  | cons hPlace hRest ih => rw [List.length_cons, List.length_cons, ih]

/-- The table only grows while entries are keyed, so keys that were given stay where they
are. -/
theorem grows (h : Keyed s t entries keys later) : t.Grows later := by
  induction h with
  | nil t => exact .refl t
  | cons hPlace hRest ih => exact (Table.after_of_place hPlace).1.trans ih

theorem length_pos (h : Keyed s t entries keys later) (hSize : t.size < later.size) :
    0 < entries.length := by
  cases h with
  | nil t => exact absurd hSize (Nat.lt_irrefl _)
  | cons hPlace hRest => exact Nat.succ_pos _

/-- A table that has grown since gives the same keys and does not grow any more. -/
theorem again (h : Keyed s t entries keys later) (hGrows : later.Grows last) :
    Keyed s last entries keys last := by
  induction h with
  | nil t => exact .nil last
  | cons hPlace hRest ih =>
      have hMatched := cons ((hRest.grows.trans hGrows).place_again hPlace) (ih hGrows)
      exact hMatched

end Keyed
end Batch
end LocaleKeys
