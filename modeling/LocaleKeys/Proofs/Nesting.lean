import LocaleKeys.Proofs.Lossless

/-! Which tables are nested trees. Flattening a tree whose names are segments
gives no two keys of which one lies under the other, because no way goes on behind
a leaf. A table of such keys is the flat form of its own tree when nothing overlaps
in it, so overlaps are the only obstacle. -/
namespace LocaleKeys

namespace Tree

open Key (IsSegment Whole)

variable {named : String → Prop} {value leaf : Json} {members : Json.Members}
  {path : List String}

/-- Ways pass through the names of the groups. -/
theorem named_of_mem_endings (h : Json.TextTree named value)
    (hEnding : (path, leaf) ∈ endings value) :
    ∀ name ∈ path, named name := by
  induction h generalizing path with
  | text text =>
      rw [endings_of_leaf rfl] at hEnding
      obtain ⟨rfl, _⟩ := Prod.mk.inj (List.mem_singleton.mp hEnding)
      simp
  | @group members _ hNamed _ ih =>
      cases path with
      | nil => simp
      | cons name path =>
          obtain ⟨value, hMember, hBelow⟩ := cons_mem_endings_object.mp hEnding
          exact List.forall_mem_cons.mpr ⟨hNamed _ hMember, ih _ hMember hBelow⟩

/-- Flattening writes a way of segments with its segments. -/
theorem dotted_of_segments (h : ∀ name ∈ path, IsSegment name) :
    dotted path = Key.ofSegments path := by
  cases path with
  | nil => rfl
  | cons first rest => exact foldl_under (h first List.mem_cons_self).1 rest

/-- The key of a leaf in a group of segments is written with the way to the leaf. -/
theorem whole_dotted_of_mem_endings (h : Json.TextTree IsSegment (.object members))
    (hEnding : (path, leaf) ∈ endings (.object members)) :
    Whole (dotted path) ∧ Key.segments (dotted path) = path := by
  have hPath := named_of_mem_endings h hEnding
  have hSome : path ≠ [] := by
    rintro rfl
    cases (mem_endings_iff h.distinct).mp hEnding
  rw [dotted_of_segments hPath]
  exact ⟨Key.whole_ofSegments hSome hPath, Key.segments_ofSegments hSome hPath⟩

/-- At the way that the segments of a key of a flattened tree spell there is a text. -/
theorem exists_way_of_mem_keys_flatten (h : Json.TextTree IsSegment (.object members))
    {key : String} (hKey : key ∈ (flatten (.object members)).keys) :
    Whole key ∧ ∃ text, spotAt (Key.segments key) (.object members) = .leaf (.string text) := by
  obtain ⟨text, path, hEnding, rfl⟩ := mem_keys_flatten.mp hKey
  obtain ⟨hWhole, hSegments⟩ := whole_dotted_of_mem_endings h hEnding
  exact ⟨hWhole, text, by rw [hSegments, (mem_endings_iff h.distinct).mp hEnding]⟩

/-- No key of a flattened tree of segments lies under another. -/
theorem not_under_of_mem_keys_flatten (h : Json.TextTree IsSegment (.object members))
    {key other : String} (hKey : key ∈ (flatten (.object members)).keys)
    (hOther : other ∈ (flatten (.object members)).keys) : ¬ Key.Under other key := by
  intro hUnder
  obtain ⟨hWhole, text, hLeaf⟩ := exists_way_of_mem_keys_flatten h hKey
  obtain ⟨hOtherWhole, otherText, hOtherLeaf⟩ := exists_way_of_mem_keys_flatten h hOther
  obtain ⟨rest, hRest⟩ := (Key.within_iff_segments hOtherWhole hWhole).mp (.inr hUnder)
  by_cases hEnd : rest = []
  · -- Two keys with one way are one key, and no key lies under itself.
    rw [hEnd, List.append_nil] at hRest
    have hSame : key = other := by
      rw [← Key.ofSegments_segments hWhole, hRest, Key.ofSegments_segments hOtherWhole]
    exact Key.not_under_self key (hSame ▸ hUnder)
  · -- A longer way would go on behind the leaf of the shorter one.
    have hStops : spotAt (Key.segments key) (.object members) ≠ .group := by simp [hLeaf]
    have hNothing := spotAt_append_of_ne_group hStops hEnd
    rw [hRest, hOtherLeaf] at hNothing
    cases hNothing

theorem overlaps_flatten (h : Json.TextTree IsSegment (.object members)) :
    (flatten (.object members)).overlaps = [] :=
  Table.overlaps_eq_nil_iff.mpr fun _ hA _ hB hRelated =>
    hRelated.elim (not_under_of_mem_keys_flatten h hB hA) (not_under_of_mem_keys_flatten h hA hB)

end Tree

variable {t : Table}

/-- Keys of segments that do not overlap come back from their tree. -/
theorem Table.groupable_of_whole (h : ∀ key ∈ t.keys, Key.Whole key) (hNone : t.overlaps = []) :
    t.Groupable where
  spelled := fun key hKey => .inl (h key hKey)
  apart := fun a hA b hB => eq_of_way_prefix hNone hA hB ⟨.inl (h a hA), .inl (h b hB)⟩

/-- What flattening makes of an object of texts and groups whose names are segments. -/
def Table.Nested (t : Table) : Prop :=
  ∃ members : Json.Members,
    Json.TextTree Key.IsSegment (.object members) ∧ Tree.flatten (.object members) = t

/-- Overlaps are all that keeps a table from being nested. A table of keys without
empty segments has none exactly when there is a tree of which it is the flat form. -/
theorem Table.overlaps_eq_nil_iff_nested (t : Table) (h : ∀ key ∈ t.keys, Key.Whole key) :
    t.overlaps = [] ↔ t.Nested := by
  constructor
  · intro hNone
    refine ⟨_, Tree.textTree_membersOf ?_, Tree.flatten_of_groupable (groupable_of_whole h hNone)⟩
    intro entry hEntry name hName
    have hKey : entry.1 ∈ t.keys := List.mem_map_of_mem hEntry
    rw [Tree.way_of_whole (h entry.1 hKey)] at hName
    exact Key.isSegment_of_mem_segments hName
  · rintro ⟨members, hTree, rfl⟩
    exact Tree.overlaps_flatten hTree

/-- Keys that share their first segments are nested; with a key on the way of
another they are not. -/
theorem Table.menu_is_nested :
    (Table.ofList [("menu.open", "Open"), ("menu.open_all.hint", "Opens all")]).Nested ∧
    ¬ (Table.ofList [("menu.open", "Open"), ("menu.open.hint", "Opens")]).Nested := by
  constructor
  · exact (overlaps_eq_nil_iff_nested _ (by decide +kernel)).mp (by decide +kernel)
  · rw [← overlaps_eq_nil_iff_nested _ (by decide +kernel)]
    decide +kernel

end LocaleKeys
