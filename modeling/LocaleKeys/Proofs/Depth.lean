import LocaleKeys.Proofs.Grouping
import LocaleKeys.Proofs.Reading

/-! How deep values are. No value that is read has more containers open at once than a
value may have, and a tree of texts that has no more is read back from its text. The tree
of a table is as deep as the longest way of a key. -/
namespace LocaleKeys

namespace Json

variable {depth : Nat} {named : String → Prop} {value : Json}

theorem nestingOfMembers_le_iff {members : Members} :
    nestingOfMembers members ≤ depth ↔ ∀ member ∈ members, nesting member.2 ≤ depth := by
  induction members with
  | nil => simp [nestingOfMembers]
  | cons member rest ih => rw [nestingOfMembers, Nat.max_le, ih, List.forall_mem_cons]

theorem nestingOfMembers_ofList_le (written : Members) :
    nestingOfMembers (Members.ofList written) ≤ nestingOfMembers written :=
  nestingOfMembers_le_iff.mpr fun member hMember =>
    nestingOfMembers_le_iff.mp (Nat.le_refl _) member (Members.mem_of_mem_ofList hMember)

namespace Document

mutual

/-- A value has no more containers open at once than its document may open. -/
theorem nesting_le_of_valueWithin {depth : Nat} {value : Json} : (d : Document) →
    d.valueWithin depth = some value → nesting value ≤ depth
  | .null, h | .bool _, h => by
      cases h
      exact Nat.zero_le _
  | .number _, h | .string _, h => by
      obtain ⟨_, -, rfl⟩ := Option.map_eq_some_iff.mp h
      exact Nat.zero_le _
  | .array items, h => by
      cases depth with
      | zero => cases h
      | succ depth =>
          obtain ⟨values, hValues, rfl⟩ := Option.map_eq_some_iff.mp h
          exact Nat.succ_le_succ (nesting_le_of_itemsWithin items hValues)
  | .object members, h => by
      cases depth with
      | zero => cases h
      | succ depth =>
          obtain ⟨written, hWritten, rfl⟩ := Option.map_eq_some_iff.mp h
          exact Nat.succ_le_succ ((nestingOfMembers_ofList_le written).trans
            (nesting_le_of_membersWithin members hWritten))

theorem nesting_le_of_itemsWithin {depth : Nat} {values : List Json} : (items : List Document) →
    itemsWithin depth items = some values → nestingOfItems values ≤ depth
  | [], h => by
      cases h
      exact Nat.zero_le _
  | item :: rest, h => by
      simp only [itemsWithin, Option.bind_eq_bind, Option.bind_eq_some_iff, Option.pure_def,
        Option.some.injEq] at h
      obtain ⟨value, hValue, values, hValues, rfl⟩ := h
      exact Nat.max_le.mpr
        ⟨nesting_le_of_valueWithin item hValue, nesting_le_of_itemsWithin rest hValues⟩

theorem nesting_le_of_membersWithin {depth : Nat} {written : Members} :
    (members : List (Raw × Document)) →
    membersWithin depth members = some written → nestingOfMembers written ≤ depth
  | [], h => by
      cases h
      exact Nat.zero_le _
  | (name, item) :: rest, h => by
      simp only [membersWithin, Option.bind_eq_bind, Option.bind_eq_some_iff, Option.pure_def,
        Option.some.injEq] at h
      obtain ⟨_, -, value, hValue, values, hValues, rfl⟩ := h
      exact Nat.max_le.mpr
        ⟨nesting_le_of_valueWithin item hValue, nesting_le_of_membersWithin rest hValues⟩

end

mutual

/-- A document that may open more containers has the same value. -/
theorem valueWithin_mono {depth more : Nat} (hLe : depth ≤ more) {value : Json} :
    (d : Document) → d.valueWithin depth = some value → d.valueWithin more = some value
  | .null, h | .bool _, h | .number _, h | .string _, h => h
  | .array items, h => by
      cases depth with
      | zero => cases h
      | succ depth =>
          obtain ⟨more, rfl⟩ := Nat.exists_eq_succ_of_ne_zero (Nat.ne_zero_of_lt hLe)
          obtain ⟨values, hValues, rfl⟩ := Option.map_eq_some_iff.mp h
          have hMore := itemsWithin_mono (Nat.le_of_succ_le_succ hLe) items hValues
          exact Option.map_eq_some_iff.mpr ⟨values, hMore, rfl⟩
  | .object members, h => by
      cases depth with
      | zero => cases h
      | succ depth =>
          obtain ⟨more, rfl⟩ := Nat.exists_eq_succ_of_ne_zero (Nat.ne_zero_of_lt hLe)
          obtain ⟨written, hWritten, rfl⟩ := Option.map_eq_some_iff.mp h
          have hMore := membersWithin_mono (Nat.le_of_succ_le_succ hLe) members hWritten
          exact Option.map_eq_some_iff.mpr ⟨written, hMore, rfl⟩

theorem itemsWithin_mono {depth more : Nat} (hLe : depth ≤ more) {values : List Json} :
    (items : List Document) → itemsWithin depth items = some values →
      itemsWithin more items = some values
  | [], h => h
  | item :: rest, h => by
      simp only [itemsWithin, Option.bind_eq_bind, Option.bind_eq_some_iff, Option.pure_def,
        Option.some.injEq] at h ⊢
      obtain ⟨value, hValue, values, hValues, rfl⟩ := h
      exact ⟨value, valueWithin_mono hLe item hValue, values, itemsWithin_mono hLe rest hValues,
        rfl⟩

theorem membersWithin_mono {depth more : Nat} (hLe : depth ≤ more) {written : Members} :
    (members : List (Raw × Document)) → membersWithin depth members = some written →
      membersWithin more members = some written
  | [], h => h
  | (name, item) :: rest, h => by
      simp only [membersWithin, Option.bind_eq_bind, Option.bind_eq_some_iff, Option.pure_def,
        Option.some.injEq] at h ⊢
      obtain ⟨name, hName, value, hValue, values, hValues, rfl⟩ := h
      exact ⟨name, hName, value, valueWithin_mono hLe item hValue, values,
        membersWithin_mono hLe rest hValues, rfl⟩

end

end Document

/-- A tree of texts is read back from its text when it is no deeper than a value may be,
and from the text of a deeper one nothing is read. -/
theorem TextTree.ofText?_eq_some_iff (h : TextTree named value) {blanks : String}
    (hBlanks : Reader.skipBlanks blanks.toList = []) {read : Json} :
    ofText? (value.prettyText ++ blanks) = some read ↔
      nesting value ≤ Document.depthLimit ∧ read = value := by
  constructor
  · intro hRead
    obtain ⟨d, hDocument, hValue⟩ := h.exists_document hBlanks
    rw [ofText?, hDocument] at hRead
    have hDeep := d.valueWithin_mono (Nat.le_max_left Document.depthLimit (nesting value)) hRead
    rw [hValue _ (Nat.le_max_right _ _)] at hDeep
    obtain rfl := Option.some.inj hDeep
    exact ⟨d.nesting_le_of_valueWithin hRead, rfl⟩
  · rintro ⟨hDepth, rfl⟩
    exact h.ofText?_prettyText hDepth hBlanks

end Json

namespace Tree

open Json (nesting)

variable {named : String → Prop} {value : Json} {depth : Nat} {path : List String}
  {content : LeafContent} {t : Table}

/-- A tree of texts is as deep as the longest way to one of its groups. -/
theorem nesting_le_iff (h : Json.TextTree named value) :
    nesting value ≤ depth ↔ ∀ path, spotAt path value = .group → path.length < depth := by
  induction h generalizing depth with
  | text text =>
      refine ⟨fun _ path hGroup => ?_, fun _ => Nat.zero_le _⟩
      cases path <;> cases hGroup
  | @group members hNames _ _ ih =>
      cases depth with
      | zero =>
          refine ⟨fun hDepth => absurd hDepth (Nat.not_succ_le_zero _), fun hAll => ?_⟩
          exact absurd (hAll [] rfl) (Nat.lt_irrefl 0)
      | succ depth =>
          rw [nesting, Nat.succ_le_succ_iff, Json.nestingOfMembers_le_iff]
          constructor
          · intro hInner path hGroup
            cases path with
            | nil => exact Nat.succ_pos _
            | cons name rest =>
                rw [spotAt_cons] at hGroup
                cases hLookup : members.lookup name with
                | none => simp [hLookup] at hGroup
                | some inner =>
                    have hMember := mem_of_lookup hLookup
                    rw [hLookup] at hGroup
                    exact Nat.succ_lt_succ
                      ((ih _ hMember).mp (hInner _ hMember) rest hGroup)
          · intro hAll member hMember
            refine (ih member hMember).mpr fun rest hGroup => ?_
            have hLookup := (lookup_eq_some_iff_mem hNames).mpr hMember
            have hBehind : spotAt (member.1 :: rest) (.object members) = .group := by
              rw [spotAt_cons, hLookup]
              exact hGroup
            exact Nat.lt_of_succ_lt_succ (hAll _ hBehind)

/-- In the tree of a table the groups stand on the ways of the keys. -/
theorem spotAt_ofTable_eq_group_iff : spotAt path (ofTable content t) = .group ↔
    path = [] ∨ ∃ key ∈ t.keys, path <+: way key ∧ path ≠ way key := by
  have hSays := spotAt_says content.of t.entries path
  rw [← ofTable_eq] at hSays
  have hKeys : (∃ key ∈ t.keys, path <+: way key ∧ path ≠ way key) ↔
      ∃ entry ∈ t.entries, path <+: way entry.1 ∧ path ≠ way entry.1 := by simp [Table.keys]
  rw [hKeys]
  constructor
  · intro hGroup
    rwa [hGroup] at hSays
  · intro hPassed
    rcases hPassed with rfl | ⟨entry, hEntry, hPrefix, hNe⟩
    · rfl
    · cases hSpot : spotAt path (ofTable content t) with
      | group => rfl
      | empty =>
          rw [hSpot] at hSays
          exact absurd hPrefix (hSays.2 entry hEntry)
      | leaf value =>
          rw [hSpot] at hSays
          exact absurd (hSays.2 entry hEntry hPrefix) hNe

/-- The tree of a table is as deep as its longest way, and one group at least. -/
theorem nesting_ofTable_le_iff : nesting (ofTable content t) ≤ depth ↔
    0 < depth ∧ ∀ key ∈ t.keys, (way key).length ≤ depth := by
  have hTree : Json.TextTree (fun _ => True) (ofTable content t) :=
    textTree_membersOf fun _ _ _ _ => trivial
  simp only [nesting_le_iff hTree, spotAt_ofTable_eq_group_iff]
  constructor
  · intro hAll
    refine ⟨hAll [] (.inl rfl), fun key hKey => ?_⟩
    -- The last group on the way is left by the last name.
    have hLess := hAll (way key).dropLast
      (.inr ⟨key, hKey, List.dropLast_prefix _, fun hSame => ?_⟩)
    · rw [List.length_dropLast] at hLess
      omega
    · have hLength := congrArg List.length hSame
      have hPositive := List.length_pos_of_ne_nil (way_ne_nil key)
      rw [List.length_dropLast] at hLength
      omega
  · rintro ⟨hPositive, hWays⟩ path hPassed
    rcases hPassed with rfl | ⟨key, hKey, hPrefix, hNe⟩
    · exact hPositive
    · have hShorter : path.length ≠ (way key).length :=
        fun hSame => hNe (hPrefix.eq_of_length hSame)
      exact (Nat.lt_of_le_of_ne hPrefix.length_le hShorter).trans_le (hWays key hKey)

end Tree
end LocaleKeys
