import LocaleKeys.Proofs.RoundTrip
import Mathlib.Data.List.Perm.Subperm

/-! What a tree loses of a table. The leaves of a tree stand at the ends of the ways of
its table's keys, and there is one for each entry exactly when the keys keep apart on
their ways. In a table without overlaps only keys with empty segments can fail to. -/
namespace LocaleKeys.Tree

variable {t : Table} {content : LeafContent}

theorem length_leaves (value : Json) : (leaves value).length = (endings value).length := by
  rw [leaves_eq, List.length_map]

theorem nodup_endings_ofTable (content : LeafContent) (t : Table) :
    ((endings (ofTable content t)).map Prod.fst).Nodup :=
  nodup_endings (distinct_ofTable content t)

/-- Each leaf stands at the end of the way of a key. -/
theorem endings_subset (content : LeafContent) (t : Table) :
    (endings (ofTable content t)).map Prod.fst ⊆ t.keys.map way := by
  intro path hPath
  obtain ⟨⟨_, leaf⟩, hEnding, rfl⟩ := List.mem_map.mp hPath
  obtain ⟨key, text, hEntry, hWay, _⟩ := exists_of_mem_endings hEnding
  exact List.mem_map.mpr ⟨key, Table.mem_keys_iff.mpr ⟨text, hEntry⟩, hWay.symm⟩

theorem endings_subperm (content : LeafContent) (t : Table) :
    ((endings (ofTable content t)).map Prod.fst).Subperm (t.keys.map way) :=
  (nodup_endings_ofTable content t).subperm (endings_subset content t)

/-- With a leaf for each entry every way leads to a leaf, and each to another. -/
theorem apart_of_length_leaves (h : (leaves (ofTable content t)).length = t.size) : t.Apart := by
  have hPerm : ((endings (ofTable content t)).map Prod.fst).Perm (t.keys.map way) := by
    refine (endings_subperm content t).perm_of_length_le ?_
    rw [List.length_map, List.length_map, ← length_leaves, ← Table.size_eq_length_keys, h]
  have hInjective := List.inj_on_of_nodup_map (hPerm.nodup_iff.mp (nodup_endings_ofTable content t))
  intro a hA b hB hPrefix
  have hReached := hPerm.mem_iff.mpr (List.mem_map_of_mem hA)
  obtain ⟨⟨path, leaf⟩, hEnding, rfl⟩ := List.mem_map.mp hReached
  obtain ⟨_, _, _, _, _, hLast⟩ := exists_of_mem_endings hEnding
  exact hInjective hA hB (hLast b hB hPrefix)

/-- Where keys keep apart each entry has its own leaf with its own content. -/
theorem endings_perm (content : LeafContent) (h : t.Apart) : (endings (ofTable content t)).Perm
    (t.entries.map fun entry => (way entry.1, .string (content.of entry.1 entry.2))) := by
  have hWays : (t.keys.map way).Nodup :=
    t.keys_nodup.map_on fun a hA b hB hSame => h a hA b hB (hSame ▸ List.prefix_refl _)
  have hEntries : (t.entries.map fun entry =>
      (way entry.1, Json.string (content.of entry.1 entry.2))).Nodup := by
    refine .of_map Prod.fst ?_
    rw [Table.keys, List.map_map] at hWays
    rwa [List.map_map]
  refine (List.perm_ext_iff_of_nodup (nodup_endings_ofTable content t).of_map hEntries).mpr ?_
  rintro ⟨path, leaf⟩
  rw [List.mem_map]
  constructor
  · intro hEnding
    obtain ⟨key, text, hEntry, rfl, rfl, _⟩ := exists_of_mem_endings hEnding
    exact ⟨(key, text), hEntry, rfl⟩
  · rintro ⟨⟨key, text⟩, hEntry, hSame⟩
    exact hSame ▸ mem_endings_of_entry hEntry (h key (Table.mem_keys_iff.mpr ⟨text, hEntry⟩))

/-- A tree has a leaf for each entry when the keys keep apart, and only then. -/
theorem length_leaves_eq_iff : (leaves (ofTable content t)).length = t.size ↔ t.Apart := by
  refine ⟨apart_of_length_leaves, fun h => ?_⟩
  rw [length_leaves, (endings_perm content h).length_eq, List.length_map, Table.size]

end LocaleKeys.Tree

namespace LocaleKeys

variable {t : Table}

/-- The overlaps show every clash of two keys without empty segments. -/
theorem Table.eq_of_way_prefix {a b : String} (h : t.overlaps = []) (hA : a ∈ t.keys)
    (hB : b ∈ t.keys) (hSpelled : Key.Spelled a ∧ Key.Spelled b)
    (hPrefix : Tree.way a <+: Tree.way b) : a = b := by
  have hWays := Tree.eq_or_under_of_way_prefix hSpelled.1 hSpelled.2 hPrefix
  exact hWays.resolve_right fun hUnder => overlaps_eq_nil_iff.mp h a hA b hB (.inr hUnder)

/-- The tree of a table without overlaps has a leaf for each entry unless a key
with an empty segment clashes with another key. Where no key has an empty segment
beside others, the leaves are the entries. -/
theorem Tree.leaves_without_overlaps (t : Table) (h : t.overlaps = []) :
    ((leaves (ofTable .texts t)).length = t.size ↔
      ∀ a ∈ t.keys, ∀ b ∈ t.keys, ¬ (Key.Spelled a ∧ Key.Spelled b) → way a <+: way b → a = b) ∧
    ((∀ key ∈ t.keys, Key.Spelled key) →
      (leaves (ofTable .texts t)).Perm (t.entries.map fun entry => (entry.1, .string entry.2))) := by
  rw [length_leaves_eq_iff]
  refine ⟨⟨fun hApart a hA b hB _ => hApart a hA b hB, fun hHidden a hA b hB hPrefix => ?_⟩, ?_⟩
  · by_cases hSpelled : Key.Spelled a ∧ Key.Spelled b
    · exact Table.eq_of_way_prefix h hA hB hSpelled hPrefix
    · exact hHidden a hA b hB hSpelled hPrefix
  · intro hSpelled
    have hApart : t.Apart := fun a hA b hB =>
      Table.eq_of_way_prefix h hA hB ⟨hSpelled a hA, hSpelled b hB⟩
    have hPerm := (endings_perm .texts hApart).map fun ending => (dotted ending.1, ending.2)
    rw [← leaves_eq, List.map_map] at hPerm
    refine hPerm.trans (List.Perm.of_eq (List.map_congr_left fun entry hEntry => ?_))
    have hKey := Table.mem_keys_iff.mpr ⟨entry.2, hEntry⟩
    simp [LeafContent.of, dotted_way_of_spelled (hSpelled entry.1 hKey)]

/-- Two keys of one group, of which one has an empty segment. -/
theorem Tree.leaves_of_menu :
    let t := Table.ofList [("menu..close", "Close"), ("menu.open", "Open")]
    t.overlaps = [] ∧ (leaves (ofTable .texts t)).length = t.size := by
  have hOverlaps :
      (Table.ofList [("menu..close", "Close"), ("menu.open", "Open")]).overlaps = [] := by
    decide +kernel
  exact ⟨hOverlaps, (leaves_without_overlaps _ hOverlaps).1.mpr (by decide +kernel)⟩

/-- An empty segment hides a clash: a text gives way to a group and is lost. -/
theorem Tree.not_leaf_for_each_entry :
    ¬ ∀ t : Table, t.overlaps = [] → (leaves (ofTable .texts t)).length = t.size := by
  intro h
  have hClash := h (.ofList [("menu..open", "Open"), ("menu.open.hint", "Opens the menu")])
    (by decide +kernel)
  revert hClash
  decide +kernel

end LocaleKeys
