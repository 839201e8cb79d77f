import LocaleKeys.Proofs.LeafOrder
import LocaleKeys.Proofs.Strictness

/-! Trees that come back from their flat form. The ways to the leaves of a tree determine
the tree, up to the order in which the members of its groups come, when no group is empty.
Flattening a tree whose names are segments keeps these ways, so grouping the keys again
makes the same tree. -/
namespace LocaleKeys

namespace Json

/-- Two values that differ at most in the order of members: the same names, and what
stands under one name in both differs in no other way either. -/
inductive Rearranged : Json → Json → Prop
  | leaf {value : Json} (hLeaf : value.isObject = false) : Rearranged value value
  | group {members others : Members}
      (hNames : (members.map Prod.fst).Perm (others.map Prod.fst))
      (hInner : ∀ member ∈ members, ∀ other ∈ others, member.1 = other.1 →
        Rearranged member.2 other.2) : Rearranged (.object members) (.object others)

/-- No group inside the value is without members. The value itself may be. -/
def FilledInside : Json → Prop
  | .object members => ∀ member ∈ members, Filled member.2
  | _ => True

theorem Filled.inside {value : Json} (h : Filled value) : FilledInside value := by
  cases h with
  | leaf hLeaf =>
      cases value with
      | object members => cases hLeaf
      | _ => trivial
  | group _ hInner => exact hInner

/-- A value of texts and groups whose names are segments, with no empty group inside. -/
structure Canonical (value : Json) : Prop where
  tree : TextTree Key.IsSegment value
  filled : FilledInside value

end Json

namespace Tree

open Json (Canonical FilledInside Rearranged TextTree)

variable {named : String → Prop} {value leaf other : Json} {members others : Json.Members}
  {path : List String} {name : String}

/-- Where no group is empty, the names are those with which the ways begin. -/
theorem mem_names_iff (h : FilledInside (.object members)) : name ∈ members.map Prod.fst ↔
    ∃ path leaf, (name :: path, leaf) ∈ endings (.object members) := by
  constructor
  · intro hName
    obtain ⟨⟨_, value⟩, hMember, rfl⟩ := List.mem_map.mp hName
    obtain ⟨⟨path, leaf⟩, hEnding⟩ :=
      List.exists_mem_of_ne_nil _ (endings_ne_nil (h _ hMember))
    exact ⟨path, leaf, cons_mem_endings_object.mpr ⟨value, hMember, hEnding⟩⟩
  · rintro ⟨path, leaf, hEnding⟩
    obtain ⟨value, hMember, _⟩ := cons_mem_endings_object.mp hEnding
    exact List.mem_map_of_mem hMember

/-- Among distinct names a way leads through the one member of its first name. -/
theorem cons_mem_endings_iff (hNames : (members.map Prod.fst).Nodup)
    (hMember : (name, value) ∈ members) :
    (name :: path, leaf) ∈ endings (.object members) ↔ (path, leaf) ∈ endings value := by
  rw [cons_mem_endings_object]
  constructor
  · rintro ⟨found, hFound, hEnding⟩
    rw [← lookup_eq_some_iff_mem hNames] at hFound hMember
    obtain rfl := Option.some.inj (hFound.symm.trans hMember)
    exact hEnding
  · intro hEnding
    exact ⟨value, hMember, hEnding⟩

/-- Groups with the same leaves at the same ways have the same names. -/
theorem names_perm_of_same_endings (hNames : (members.map Prod.fst).Nodup)
    (hFilled : FilledInside (.object members)) (hOtherNames : (others.map Prod.fst).Nodup)
    (hOtherFilled : FilledInside (.object others))
    (h : ∀ path leaf, (path, leaf) ∈ endings (.object members) ↔
      (path, leaf) ∈ endings (.object others)) :
    (members.map Prod.fst).Perm (others.map Prod.fst) := by
  rw [List.perm_ext_iff_of_nodup hNames hOtherNames]
  intro name
  rw [mem_names_iff hFilled, mem_names_iff hOtherFilled]
  simp only [h]

/-- A value without empty groups inside is determined by its leaves and the ways to them, up
to the order of members. -/
theorem rearranged_of_same_endings (hValue : value.Distinct) (hFilled : FilledInside value)
    (hOther : other.Distinct) (hOtherFilled : FilledInside other)
    (h : ∀ path leaf, (path, leaf) ∈ endings value ↔ (path, leaf) ∈ endings other) :
    Rearranged value other := by
  induction hValue generalizing other with
  | @leaf value hLeaf =>
      have hEnding : ([], value) ∈ endings other :=
        (h [] value).mp (nil_mem_endings.mpr ⟨hLeaf, rfl⟩)
      obtain rfl := (nil_mem_endings.mp hEnding).2
      exact .leaf hLeaf
  | @object members hNames hInner ih =>
      cases hOther with
      | leaf hLeaf =>
          have hEnding := (h [] other).mpr (nil_mem_endings.mpr ⟨hLeaf, rfl⟩)
          cases (nil_mem_endings.mp hEnding).1
      | @object others hOtherNames hOtherInner =>
          apply Rearranged.group
          · exact names_perm_of_same_endings hNames hFilled hOtherNames hOtherFilled h
          · rintro ⟨name, value⟩ hMember ⟨_, partner⟩ hPartner rfl
            have hSame (path : List String) (leaf : Json) :
                (path, leaf) ∈ endings value ↔ (path, leaf) ∈ endings partner := by
              rw [← cons_mem_endings_iff hNames hMember, h,
                cons_mem_endings_iff hOtherNames hPartner]
            exact ih _ hMember (hFilled _ hMember).inside (hOtherInner _ hPartner)
              (hOtherFilled _ hPartner).inside hSame

theorem exists_text_of_mem_endings (h : TextTree named value)
    (hEnding : (path, leaf) ∈ endings value) : ∃ text, leaf = .string text := by
  induction h generalizing path with
  | text text =>
      obtain ⟨_, rfl⟩ := Prod.mk.inj (List.mem_singleton.mp hEnding)
      exact ⟨text, rfl⟩
  | @group members _ _ _ ih =>
      cases path with
      | nil => cases (nil_mem_endings.mp hEnding).1
      | cons name path =>
          obtain ⟨value, hMember, hBelow⟩ := cons_mem_endings_object.mp hEnding
          exact ih _ hMember hBelow

/-- In a group of segments the way to a leaf is read from the key of the leaf. -/
theorem map_way_leaves (h : TextTree Key.IsSegment (.object members)) :
    (leaves (.object members)).map (fun leaf => (way leaf.1, leaf.2)) =
      endings (.object members) := by
  rw [leaves_eq, List.map_map]
  conv_rhs => rw [← List.map_id (endings (.object members))]
  apply List.map_congr_left
  intro ending hEnding
  obtain ⟨hWhole, hSegments⟩ := whole_dotted_of_mem_endings h hEnding
  show (way (dotted ending.1), ending.2) = ending
  rw [way_of_whole hWhole, hSegments]

/-- Each leaf of a group of segments is a text with a key of its own. -/
theorem storable_leaves (h : TextTree Key.IsSegment (.object members)) :
    Storable (leaves (.object members)) where
  texts := by
    rw [leaves_eq]
    intro leaf hLeaf
    obtain ⟨ending, hEnding, rfl⟩ := List.mem_map.mp hLeaf
    exact exists_text_of_mem_endings h hEnding
  distinct := by
    have hWays := nodup_endings h.distinct
    rw [← map_way_leaves h, List.map_map] at hWays
    refine .of_map way ?_
    rwa [List.map_map]

/-- A group of segments is flattened without loss. -/
theorem flatten?_of_textTree (h : TextTree Key.IsSegment (.object members)) :
    flatten? (.object members) = .ok (flatten (.object members)) :=
  collect_eq_ok_iff.mpr ⟨storable_leaves h, rfl⟩

/-- The tree of the flat form has the leaves of the tree that was flattened, at the same ways. -/
theorem endings_ofTable_flatten (h : TextTree Key.IsSegment (.object members)) :
    (endings (ofTable .texts (flatten (.object members)))).Perm (endings (.object members)) := by
  have hWhole (key : String) (hKey : key ∈ (flatten (.object members)).keys) : Key.Whole key :=
    (exists_way_of_mem_keys_flatten h hKey).1
  have hApart := (Table.groupable_of_whole hWhole (overlaps_flatten h)).apart
  have hLeaves := (flatten?_eq_ok_iff.mp (flatten?_of_textTree h)).map fun leaf =>
    (way leaf.1, leaf.2)
  rw [map_way_leaves h, List.map_map] at hLeaves
  exact (endings_perm .texts hApart).trans hLeaves.symm

/-- Grouping undoes flattening. A group of texts and groups whose names are segments, with no
empty group inside, is flattened without loss and without overlaps, and the tree of its flat
form is the group itself up to the order of members. -/
theorem ofTable_flatten (h : Canonical (.object members)) :
    flatten? (.object members) = .ok (flatten (.object members)) ∧
      (flatten (.object members)).overlaps = [] ∧
      Rearranged (ofTable .texts (flatten (.object members))) (.object members) := by
  have hFilled : FilledInside (ofTable .texts (flatten (.object members))) := filled_membersOf
  have hBack := rearranged_of_same_endings (distinct_ofTable _ _) hFilled h.tree.distinct h.filled
    fun _ _ => (endings_ofTable_flatten h.tree).mem_iff
  exact ⟨flatten?_of_textTree h.tree, overlaps_flatten h.tree, hBack⟩

/-- A menu whose members are in no order. A hyphen sorts `menu-x` before what lies under
`menu`. -/
theorem menu_comes_back :
    let go := Json.object [("to", .string "To"), ("by", .string "By")]
    let menu := Json.object [("open", .string "Open"), ("go", go)]
    let page := Json.object [("title", .string "T"), ("menu", menu), ("menu-x", .string "X")]
    Canonical page ∧ flatten? page = .ok (flatten page) ∧ (flatten page).overlaps = [] ∧
      Rearranged (ofTable .texts (flatten page)) page ∧
      ofTable .texts (flatten page) = .object [("menu-x", .string "X"),
        ("menu", .object [("go", .object [("by", .string "By"), ("to", .string "To")]),
          ("open", .string "Open")]),
        ("title", .string "T")] := by
  intro go menu page
  have hText (text : String) : Json.Filled (.string text) := .leaf rfl
  have hGo : TextTree Key.IsSegment go ∧ Json.Filled go :=
    ⟨.group (by decide) (by simp [Key.IsSegment]) (by simp [TextTree.text]),
      .group (by simp) (by simp [hText])⟩
  have hMenu : TextTree Key.IsSegment menu ∧ Json.Filled menu :=
    ⟨.group (by decide) (by simp [Key.IsSegment]) (by simp [TextTree.text, hGo]),
      .group (by simp) (by simp [hText, hGo])⟩
  have hPage : Canonical page :=
    ⟨.group (by decide) (by simp [Key.IsSegment]) (by simp [TextTree.text, hMenu]),
      by simp [page, FilledInside, hText, hMenu]⟩
  obtain ⟨hStrict, hNone, hBack⟩ := ofTable_flatten hPage
  exact ⟨hPage, hStrict, hNone, hBack, rfl⟩

end Tree
end LocaleKeys
