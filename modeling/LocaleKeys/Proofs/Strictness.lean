import LocaleKeys.Proofs.Flattening

/-! Flattening without loss. A table can hold leaves that are texts with keys of their own.
Where all leaves of a value are of this kind, strict flattening gives the table that lenient
flattening gives, and else it stops at the first leaf that is not. -/
namespace LocaleKeys.Tree

/-- Leaves that a table holds one for one: texts, no two of one key. -/
structure Storable (listed : List (String × Json)) : Prop where
  texts : ∀ leaf ∈ listed, ∃ text, leaf.2 = .string text
  distinct : (listed.map Prod.fst).Nodup

/-- A leaf that cannot be stored with those before it, and the error that tells of it. Only
a text is refused for its key. -/
inductive Refused (before : List (String × Json)) : String × Json → FlattenError → Prop
  | notText {key : String} {leaf : Json} (hLeaf : leaf.text? = none) :
      Refused before (key, leaf) (.notText key)
  | repeated {key text : String} (hKey : key ∈ before.map Prod.fst) :
      Refused before (key, .string text) (.repeated key)

/-- The entries that leaves make. Leaves that are no texts make none. -/
def entriesOf (listed : List (String × Json)) : List (String × String) :=
  listed.filterMap fun leaf => leaf.2.text?.map fun text => (leaf.1, text)

variable {listed before after : List (String × Json)} {leaf : String × Json}
  {error : FlattenError} {t : Table}

theorem entriesOf_texts (entries : List (String × String)) :
    entriesOf (entries.map fun entry => (entry.1, .string entry.2)) = entries := by
  simp [entriesOf, Json.text?]

theorem storable_texts {entries : List (String × String)} (h : (entries.map Prod.fst).Nodup) :
    Storable (entries.map fun entry => (entry.1, .string entry.2)) where
  texts := by
    intro leaf hLeaf
    obtain ⟨entry, -, rfl⟩ := List.mem_map.mp hLeaf
    exact ⟨entry.2, rfl⟩
  distinct := by rwa [List.map_map]

theorem Storable.of_perm (h : Storable listed) {others : List (String × Json)}
    (hPerm : listed.Perm others) : Storable others where
  texts := fun leaf hLeaf => h.texts leaf (hPerm.mem_iff.mpr hLeaf)
  distinct := (hPerm.map Prod.fst).nodup_iff.mp h.distinct

/-- Texts are written with the entries that they make. -/
theorem Storable.eq_texts (h : Storable listed) :
    listed = (entriesOf listed).map fun entry => (entry.1, .string entry.2) := by
  have hTexts := h.texts
  clear h
  induction listed with
  | nil => rfl
  | cons leaf rest ih =>
      obtain ⟨⟨text, hText⟩, hRest⟩ := List.forall_mem_cons.mp hTexts
      have hEntries : entriesOf (leaf :: rest) = (leaf.1, text) :: entriesOf rest := by
        simp [entriesOf, hText, Json.text?]
      rw [hEntries, List.map_cons, ← ih hRest, ← hText]

theorem Storable.nodup_entriesOf (h : Storable listed) :
    ((entriesOf listed).map Prod.fst).Nodup := by
  have hDistinct := h.distinct
  rwa [h.eq_texts, List.map_map] at hDistinct

theorem Storable.size_ofList (h : Storable listed) :
    (Table.ofList (entriesOf listed)).size = listed.length := by
  have hLength := congrArg List.length h.eq_texts
  rw [List.length_map] at hLength
  rw [Table.size, (Table.entries_ofList_perm h.nodup_entriesOf).length_eq, hLength]

/-- Texts with keys that are all new are taken into a table one after another. -/
theorem collect_texts {t : Table} {entries : List (String × String)}
    (hNew : ∀ entry ∈ entries, entry.1 ∉ t.keys) (hKeys : (entries.map Prod.fst).Nodup) :
    collect t (entries.map fun entry => (entry.1, .string entry.2)) =
      .ok (entries.foldl (fun t entry => t.insert entry.1 entry.2) t) := by
  induction entries generalizing t with
  | nil => rfl
  | cons entry rest ih =>
      obtain ⟨hFirst, hRest⟩ := List.forall_mem_cons.mp hNew
      obtain ⟨hHead, hTail⟩ := List.nodup_cons.mp hKeys
      have hAbsent : t.contains entry.1 = false := by
        simpa [← Table.contains_iff_mem_keys] using hFirst
      have hLater : ∀ later ∈ rest, later.1 ∉ (t.insert entry.1 entry.2).keys := by
        intro later hMem
        rw [Table.mem_keys_insert, not_or]
        refine ⟨?_, hRest later hMem⟩
        rintro hSame
        exact hHead (hSame ▸ List.mem_map_of_mem hMem)
      simp [collect, Json.text?, hAbsent, ih hLater hTail]

/-- Leaves that are taken into a table are texts with new keys, no two of one key. -/
theorem exists_of_collect {t later : Table} {listed : List (String × Json)}
    (h : collect t listed = .ok later) :
    ∃ entries : List (String × String),
      listed = entries.map (fun entry => (entry.1, .string entry.2)) ∧
      (∀ entry ∈ entries, entry.1 ∉ t.keys) ∧ (entries.map Prod.fst).Nodup ∧
      later = entries.foldl (fun t entry => t.insert entry.1 entry.2) t := by
  induction listed generalizing t with
  | nil => exact ⟨[], rfl, by simp, .nil, (Except.ok.inj h).symm⟩
  | cons first rest ih =>
      obtain ⟨key, leaf⟩ := first
      cases leaf with
      | string text =>
          simp only [collect, Json.text?] at h
          split at h
          · cases h
          next hAbsent =>
            obtain ⟨entries, rfl, hNew, hKeys, rfl⟩ := ih h
            simp only [Table.mem_keys_insert, not_or] at hNew
            rw [Table.contains_iff_mem_keys] at hAbsent
            refine ⟨(key, text) :: entries, rfl, ?_, ?_, rfl⟩
            · exact List.forall_mem_cons.mpr ⟨hAbsent, fun entry hEntry => (hNew entry hEntry).2⟩
            · refine List.nodup_cons.mpr ⟨fun hMem => ?_, hKeys⟩
              obtain ⟨entry, hEntry, hSame⟩ := List.mem_map.mp hMem
              exact (hNew entry hEntry).1 hSame
      | _ => cases h

/-- Leaves are taken into the empty table when they are storable, and only then. -/
theorem collect_eq_ok_iff : collect .empty listed = .ok t ↔
    Storable listed ∧ t = .ofList (entriesOf listed) := by
  constructor
  · intro h
    obtain ⟨entries, rfl, -, hKeys, rfl⟩ := exists_of_collect h
    rw [entriesOf_texts]
    exact ⟨storable_texts hKeys, rfl⟩
  · rintro ⟨hStorable, rfl⟩
    have hNone : ∀ entry ∈ entriesOf listed, entry.1 ∉ Table.empty.keys := by
      simp [Table.empty, Table.keys]
    have hTaken := collect_texts hNone hStorable.nodup_entriesOf
    rwa [← hStorable.eq_texts] at hTaken

/-- A value is flattened without loss to the table whose entries are its leaves. -/
theorem flatten?_eq_ok_iff {value : Json} : flatten? value = .ok t ↔
    (leaves value).Perm (t.entries.map fun entry => (entry.1, .string entry.2)) := by
  rw [flatten?, collect_eq_ok_iff]
  constructor
  · rintro ⟨hStorable, rfl⟩
    have hPerm := (Table.entries_ofList_perm hStorable.nodup_entriesOf).symm.map
      fun entry => (entry.1, Json.string entry.2)
    rwa [← hStorable.eq_texts] at hPerm
  · intro h
    have hEntries := h.filterMap fun leaf => leaf.2.text?.map fun text => (leaf.1, text)
    change (entriesOf (leaves value)).Perm (entriesOf _) at hEntries
    rw [entriesOf_texts] at hEntries
    have hTable := Table.ofList_eq fun _ => hEntries.mem_iff
    exact ⟨(storable_texts t.keys_nodup).of_perm h.symm, hTable.symm⟩

/-- What stands behind is taken into the table that the leaves in front give. -/
theorem collect_append (t : Table) (front back : List (String × Json)) :
    collect t (front ++ back) = collect t front >>= fun later => collect later back := by
  induction front generalizing t with
  | nil => rfl
  | cons leaf rest ih =>
      rw [List.cons_append, collect, collect]
      cases leaf.2.text? with
      | none => rfl
      | some text =>
          cases t.contains leaf.1 with
          | true => rfl
          | false => exact ih (t.insert leaf.1 text)

/-- A leaf that is refused behind storable ones gives its error, whatever comes after it. -/
theorem collect_of_refused (h : Storable before) (hRefused : Refused before leaf error) :
    collect .empty (before ++ leaf :: after) = .error error := by
  rw [collect_append, collect_eq_ok_iff.mpr ⟨h, rfl⟩]
  show collect (.ofList (entriesOf before)) (leaf :: after) = .error error
  rw [collect]
  cases hRefused with
  | notText hLeaf => rw [hLeaf]
  | @repeated key text hKey =>
      have hStored : (Table.ofList (entriesOf before)).contains key = true := by
        rw [Table.contains_iff_mem_keys, Table.mem_keys_ofList]
        rwa [h.eq_texts, List.map_map] at hKey
      simp [Json.text?, hStored]

theorem Storable.concat_or_refused (h : Storable before) (leaf : String × Json) :
    Storable (before ++ [leaf]) ∨ ∃ error, Refused before leaf error := by
  obtain ⟨key, value⟩ := leaf
  cases value with
  | string text =>
      by_cases hKey : key ∈ before.map Prod.fst
      · exact .inr ⟨_, .repeated hKey⟩
      · left
        constructor
        · intro leaf hLeaf
          rcases List.mem_append.mp hLeaf with hBefore | hLast
          · exact h.texts leaf hBefore
          · exact ⟨text, by rw [List.mem_singleton.mp hLast]⟩
        · rw [List.map_append]
          exact h.distinct.append (List.nodup_singleton _) (by simpa using hKey)
  | _ => exact .inr ⟨_, .notText rfl⟩

/-- Leaves are storable, or one of them is the first that is refused. -/
theorem storable_or_exists_refused (listed : List (String × Json)) :
    Storable listed ∨ ∃ before leaf after error,
      listed = before ++ leaf :: after ∧ Storable before ∧ Refused before leaf error := by
  induction listed using List.reverseRecOn with
  | nil => exact .inl ⟨by simp, .nil⟩
  | append_singleton listed leaf ih =>
      rcases ih with hStorable | ⟨before, first, after, error, rfl, hBefore, hFirst⟩
      · rcases hStorable.concat_or_refused leaf with hAll | ⟨error, hLast⟩
        · exact .inl hAll
        · exact .inr ⟨listed, leaf, [], error, rfl, hStorable, hLast⟩
      · exact .inr ⟨before, first, after ++ [leaf], error, by simp, hBefore, hFirst⟩

/-- Taking leaves into the empty table fails with the error of the first one that is refused. -/
theorem collect_eq_error_iff : collect .empty listed = .error error ↔
    ∃ before leaf after,
      listed = before ++ leaf :: after ∧ Storable before ∧ Refused before leaf error := by
  constructor
  · intro h
    rcases storable_or_exists_refused listed with
      hStorable | ⟨before, leaf, after, first, rfl, hBefore, hRefused⟩
    · rw [collect_eq_ok_iff.mpr ⟨hStorable, rfl⟩] at h
      cases h
    · rw [collect_of_refused hBefore hRefused] at h
      cases h
      exact ⟨before, leaf, after, rfl, hBefore, hRefused⟩
  · rintro ⟨before, leaf, after, rfl, hBefore, hRefused⟩
    exact collect_of_refused hBefore hRefused

/-- Strict flattening takes the leaves of a value with their dotted keys, in order. It
succeeds when all are texts with keys of their own, and then agrees with lenient flattening
and loses no leaf. Else its error is about the first leaf that is no text or has the key of a
leaf before it; of a leaf that is both it says that it is no text. -/
theorem strict_flattening_exact (value : Json) :
    let listed := (endings value).map fun ending => (dotted ending.1, ending.2)
    (∀ t, flatten? value = .ok t ↔
      Storable listed ∧ t = flatten value ∧ t.size = listed.length) ∧
    ∀ error, flatten? value = .error error ↔ ∃ before leaf after,
      listed = before ++ leaf :: after ∧ Storable before ∧ Refused before leaf error := by
  intro listed
  have hLeaves : leaves value = listed := leaves_eq value
  rw [← hLeaves]
  refine ⟨fun t => ?_, fun error => collect_eq_error_iff⟩
  rw [flatten?, collect_eq_ok_iff]
  apply and_congr_right
  intro hStorable
  show t = flatten value ↔ t = flatten value ∧ t.size = (leaves value).length
  constructor
  · intro hSame
    subst t
    exact ⟨rfl, hStorable.size_ofList⟩
  · exact And.left

/-- Of two leaves with the key `a.b` the second is no text, and that is what the error says.
An empty name puts no dot in front, so the text behind it has a key that is there already. -/
example :
    flatten? (.object [("a.b", .string "Flat"), ("a", .object [("b", .bool true)])]) =
        .error (.notText "a.b") ∧
      flatten? (.object [("a.b", .string "Flat"), ("", .object [("a.b", .string "B")])]) =
        .error (.repeated "a.b") := ⟨rfl, rfl⟩

end LocaleKeys.Tree
