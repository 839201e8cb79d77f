import LocaleKeys.Proofs.Nesting

/-! The order of leaves. Keys that begin with the same segments have no gap in the
ascending order, although characters before the dot sort other names between a key and
what lies under it. So a group is only ever added to while it is the last one, each key
puts its leaf behind all others, and the leaves are listed in the order of their keys. -/
namespace LocaleKeys

namespace Json

/-- No group in the value is without members. -/
inductive Filled : Json → Prop
  | leaf {value : Json} (hLeaf : value.isObject = false) : Filled value
  | group {members : Members} (hSome : members ≠ [])
      (hInner : ∀ member ∈ members, Filled member.2) : Filled (.object members)

end Json

namespace Key

/-- The keys under one key have no gap in the ascending order. -/
theorem under_of_lt_of_lt {a b c stem : String} (hAB : a < b) (hBC : b < c) (hA : Under a stem)
    (hC : Under c stem) : Under b stem := by
  have hFirst : ¬ a < stem ++ "." := List.IsPrefix.le (under_iff_starts_with_dot.mp hA)
  have hStart : ¬ b < stem ++ "." := fun hLt => hFirst (String.lt_trans hAB hLt)
  rw [under_iff_starts_with_dot] at hC ⊢
  exact isPrefix_of_not_lt_of_lt hStart hBC hC

/-- Of two unrelated keys at or under a third neither is the third, because the other
would lie under it. -/
theorem Within.under_of_not_related {a c stem : String} (hA : Within a stem) (hC : Within c stem)
    (hNe : a ≠ c) (hApart : ¬ Related a c) : Under a stem := by
  refine hA.resolve_left fun hSame => hApart ?_
  rw [← hSame] at hC
  exact .inr (hC.resolve_left hNe.symm)

/-- Among keys of segments, what stands between two unrelated keys that begin alike
begins like them. -/
theorem segments_prefix_between {a b c : String} (hA : Whole a) (hB : Whole b) (hC : Whole c)
    (hAB : a < b) (hBC : b < c) (hApart : ¬ Related a c) {start : List String}
    (hStartA : start <+: segments a) (hStartC : start <+: segments c) : start <+: segments b := by
  by_cases hNone : start = []
  · exact hNone ▸ List.nil_prefix
  have hSegment : ∀ segment ∈ start, IsSegment segment := fun segment hMem =>
    isSegment_of_mem_segments (hStartA.subset hMem)
  have hStem := whole_ofSegments hNone hSegment
  have hSpelled := segments_ofSegments hNone hSegment
  rw [← hSpelled] at hStartA hStartC ⊢
  have hWithinA := (within_iff_segments hA hStem).mpr hStartA
  have hWithinC := (within_iff_segments hC hStem).mpr hStartC
  have hNe : a ≠ c := fun hSame => String.lt_irrefl a (String.lt_trans hAB (hSame ▸ hBC))
  have hUnderA := hWithinA.under_of_not_related hWithinC hNe hApart
  have hUnderC := hWithinC.under_of_not_related hWithinA hNe.symm fun h => hApart h.symm
  exact (within_iff_segments hB hStem).mp (.inr (under_of_lt_of_lt hAB hBC hUnderA hUnderC))

end Key

namespace Tree

open Json (Filled)
open Key (Whole)

variable {leaf value : Json} {members : Json.Members} {name : String} {path rest : List String}
  {named : String → Prop}

theorem endings_ne_nil (h : Filled value) : endings value ≠ [] := by
  induction h with
  | leaf hLeaf => simp [endings_of_leaf hLeaf]
  | @group members hSome _ ih =>
      obtain ⟨first, rest, rfl⟩ := List.exists_cons_of_ne_nil hSome
      rw [endings_object, List.flatMap_cons]
      refine List.append_ne_nil_of_left_ne_nil ?_ _
      rw [ne_eq, List.map_eq_nil_iff]
      exact ih first List.mem_cons_self

theorem graft_ne_nil (hPath : path ≠ []) : graft leaf path members ≠ [] := by
  match path with
  | [] => exact absurd rfl hPath
  | [last] =>
      rw [graft]
      split
      next hLookup => exact List.ne_nil_of_mem (mem_of_lookup hLookup)
      next => exact Json.Members.put_ne_nil _ _ _
  | segment :: next :: rest =>
      rw [graft_cons_cons]
      exact Json.Members.put_ne_nil _ _ _

theorem filled_groupOf (h : ∀ member ∈ members, Filled member.2) (name : String) :
    ∀ member ∈ groupOf name members, Filled member.2 := by
  rw [groupOf]
  split
  next inner hLookup =>
    obtain ⟨⟨⟩⟩ | ⟨_, hInner⟩ := h _ (mem_of_lookup hLookup)
    exact hInner
  next => simp

theorem filled_graft (hLeaf : leaf.isObject = false) (h : ∀ member ∈ members, Filled member.2) :
    ∀ member ∈ graft leaf path members, Filled member.2 := by
  induction path generalizing members with
  | nil => exact h
  | cons segment rest ih =>
      cases rest with
      | nil =>
          rw [graft]
          split
          · exact h
          · intro member hMember
            rcases Json.Members.mem_put hMember with rfl | hOld
            · exact .leaf hLeaf
            · exact h member hOld
      | cons next rest =>
          rw [graft_cons_cons]
          intro member hMember
          rcases Json.Members.mem_put hMember with rfl | hOld
          · exact .group (graft_ne_nil (List.cons_ne_nil _ _)) (ih (filled_groupOf h segment))
          · exact h member hOld

/-- The ways to the leaves of a value, in order. -/
def ways (value : Json) : List (List String) := (endings value).map Prod.fst

theorem ways_append (members more : Json.Members) :
    ways (.object (members ++ more)) = ways (.object members) ++ ways (.object more) := by
  rw [ways, endings_append, List.map_append]
  rfl

theorem ways_singleton (name : String) (value : Json) :
    ways (.object [(name, value)]) = (ways value).map (name :: ·) := by
  rw [ways, endings_singleton, List.map_map, ways, List.map_map]
  rfl

theorem exists_mem_ways (h : Filled value) : ∃ way, way ∈ ways value := by
  obtain ⟨ending, hEnding⟩ := List.exists_mem_of_ne_nil _ (endings_ne_nil h)
  exact ⟨ending.1, List.mem_map_of_mem hEnding⟩

theorem cons_mem_ways (h : (name, value) ∈ members) (hPath : path ∈ ways value) :
    name :: path ∈ ways (.object members) := by
  obtain ⟨⟨_, leaf⟩, hEnding, rfl⟩ := List.mem_map.mp hPath
  exact List.mem_map_of_mem (cons_mem_endings_object.mpr ⟨value, h, hEnding⟩)

/-- A way follows listed ways when it is no part of one, none is a part of it, and those
that begin like it stand behind the others. -/
structure Follows (path : List String) (listed : List (List String)) : Prop where
  apart : ∀ other ∈ listed, ¬ other <+: path ∧ ¬ path <+: other
  last : ∀ start, start <+: path → listed.Pairwise fun a b => start <+: a → start <+: b

/-- Behind its first name a way follows the ways that go through this name. -/
theorem Follows.behind {listed inside : List (List String)}
    (h : Follows (name :: path) (listed ++ inside.map (name :: ·))) : Follows path inside where
  apart := by
    intro other hOther
    have hApart := h.apart (name :: other) (by simp [hOther])
    simpa [List.cons_prefix_cons] using hApart
  last := by
    intro start hStart
    have hPairwise := h.last (name :: start) (List.cons_prefix_cons.mpr ⟨rfl, hStart⟩)
    have hInside := List.pairwise_map.mp (List.pairwise_append.mp hPairwise).2.1
    simpa [List.cons_prefix_cons] using hInside

/-- The group that a following way enters is the last member. -/
theorem Follows.eq_nil_of_group {before after inner : Json.Members}
    (hNames : ((before ++ (name, .object inner) :: after).map Prod.fst).Nodup)
    (hFilled : ∀ member ∈ before ++ (name, .object inner) :: after, Filled member.2)
    (h : Follows (name :: path) (ways (.object (before ++ (name, .object inner) :: after)))) :
    after = [] := by
  by_contra hAfter
  obtain ⟨next, after, rfl⟩ := List.exists_cons_of_ne_nil hAfter
  obtain ⟨inside, hInside⟩ := exists_mem_ways (hFilled (name, .object inner) (by simp))
  obtain ⟨beyond, hBeyond⟩ := exists_mem_ways (hFilled next (by simp))
  -- A way into the group stands before a way through the next member.
  have hPairwise := h.last [name] (List.cons_prefix_cons.mpr ⟨rfl, List.nil_prefix⟩)
  rw [List.append_cons, ways_append, List.pairwise_append] at hPairwise
  have hNext := hPairwise.2.2 (name :: inside) (cons_mem_ways (by simp) hInside)
    (next.1 :: beyond) (cons_mem_ways (by simp) hBeyond)
    (List.cons_prefix_cons.mpr ⟨rfl, List.nil_prefix⟩)
  obtain rfl : name = next.1 := (List.cons_prefix_cons.mp hNext).1
  simp [List.nodup_append] at hNames

/-- The member that a following way goes through is put at the end, where the group to
which the way adds was before, if there was one. -/
theorem Follows.exists_before (hNames : (members.map Prod.fst).Nodup)
    (hFilled : ∀ member ∈ members, Filled member.2)
    (h : Follows (name :: rest) (ways (.object members))) :
    ∃ before : Json.Members,
      (∀ value, members.put name value = before ++ [(name, value)]) ∧
      endings (.object members) =
        endings (.object (before ++ [(name, .object (groupOf name members))])) := by
  cases hLookup : members.lookup name with
  | none =>
      refine ⟨members, fun value => ?_, ?_⟩
      · exact Json.Members.put_of_not_mem value (lookup_eq_none_iff_not_mem.mp hLookup)
      · rw [endings_append, endings_singleton, groupOf, hLookup]
        simp [endings_object]
  | some old =>
      cases hOld : old.isObject with
      | false =>
          have hLeaf : [name] ∈ ways (.object members) := by
            refine cons_mem_ways (mem_of_lookup hLookup) ?_
            simp [ways, endings_of_leaf hOld]
          exact absurd (List.prefix_append [name] rest) (h.apart [name] hLeaf).1
      | true =>
          obtain ⟨inner, rfl⟩ : ∃ inner, old = .object inner := by
            cases old with
            | object inner => exact ⟨inner, rfl⟩
            | _ => cases hOld
          obtain ⟨before, after, rfl, hBefore⟩ := List.lookup_eq_some_iff.mp hLookup
          have hNew : name ∉ before.map Prod.fst := by
            intro hMem
            obtain ⟨member, hMember, hName⟩ := List.mem_map.mp hMem
            exact bne_iff_ne.mp (hBefore member hMember) hName.symm
          obtain rfl := h.eq_nil_of_group hNames hFilled
          refine ⟨before, fun value => Json.Members.put_append_cons hNew _ _, ?_⟩
          rw [groupOf, hLookup]

/-- A leaf whose way follows all others is listed behind them. -/
theorem endings_graft (hLeaf : leaf.isObject = false) (hPath : path ≠ [])
    (hTree : Json.TextTree named (.object members))
    (hFilled : ∀ member ∈ members, Filled member.2)
    (h : Follows path (ways (.object members))) :
    endings (.object (graft leaf path members)) = endings (.object members) ++ [(path, leaf)] := by
  induction path generalizing members with
  | nil => exact absurd rfl hPath
  | cons segment rest ih =>
      cases rest with
      | nil =>
          have hNone : members.lookup segment = none := by
            by_contra hSome
            obtain ⟨old, hLookup⟩ := Option.ne_none_iff_exists'.mp hSome
            have hMember := mem_of_lookup hLookup
            obtain ⟨inside, hInside⟩ := exists_mem_ways (hFilled _ hMember)
            have hApart := h.apart (segment :: inside) (cons_mem_ways hMember hInside)
            exact hApart.2 (List.prefix_append [segment] inside)
          rw [graft, hNone, Json.Members.put_of_not_mem leaf (lookup_eq_none_iff_not_mem.mp hNone),
            endings_append, endings_singleton, endings_of_leaf hLeaf]
          rfl
      | cons next rest =>
          obtain ⟨before, hPut, hEndings⟩ := h.exists_before hTree.nodup hFilled
          have hBehind : Follows (next :: rest) (ways (.object (groupOf segment members))) := by
            rw [ways, hEndings, ← ways, ways_append, ways_singleton] at h
            exact h.behind
          have hGroup := ih (List.cons_ne_nil _ _) (textTree_groupOf hTree segment)
            (filled_groupOf hFilled segment) hBehind
          calc endings (.object (graft leaf (segment :: next :: rest) members))
              = endings (.object (before ++ [(segment,
                  .object (graft leaf (next :: rest) (groupOf segment members)))])) := by
                rw [graft_cons_cons, hPut]
            _ = endings (.object (before ++ [(segment, .object (groupOf segment members))])) ++
                  [(segment :: next :: rest, leaf)] := by
                rw [endings_append, endings_append, endings_singleton, endings_singleton, hGroup,
                  List.map_append, List.append_assoc]
                rfl
            _ = endings (.object members) ++ [(segment :: next :: rest, leaf)] := by rw [hEndings]

variable {content : String → String → String} {entries : List (String × String)}

theorem filled_membersOf : ∀ member ∈ membersOf content entries, Filled member.2 := by
  induction entries using List.reverseRecOn with
  | nil => simp [membersOf]
  | append_singleton entries entry ih =>
      rw [membersOf_concat]
      exact filled_graft rfl ih

/-- The way of a key follows those of the keys before it, if no two are related. -/
theorem follows_of_lt {key : String} {before : List String}
    (hAscending : (before ++ [key]).Pairwise (· < ·))
    (hWhole : ∀ other ∈ before ++ [key], Whole other)
    (hApart : ∀ other ∈ before, ¬ Key.Related other key) :
    Follows (way key) (before.map way) where
  apart := by
    intro path hPath
    obtain ⟨other, hOther, rfl⟩ := List.mem_map.mp hPath
    have hNe : other ≠ key := by
      rintro rfl
      have hLt := (List.pairwise_append.mp hAscending).2.2 other hOther other (by simp)
      exact String.lt_irrefl other hLt
    have hSpelledOther : Key.Spelled other := .inl (hWhole other (by simp [hOther]))
    have hSpelledKey : Key.Spelled key := .inl (hWhole key (by simp))
    constructor
    · intro hPrefix
      have hWays := eq_or_under_of_way_prefix hSpelledOther hSpelledKey hPrefix
      exact hApart other hOther (.inr (hWays.resolve_left hNe))
    · intro hPrefix
      have hWays := eq_or_under_of_way_prefix hSpelledKey hSpelledOther hPrefix
      exact hApart other hOther (.inl (hWays.resolve_left hNe.symm))
  last := by
    intro start hStart
    obtain ⟨hBefore, _, hBehind⟩ := List.pairwise_append.mp hAscending
    have hKey := hWhole key (by simp)
    rw [way_of_whole hKey] at hStart
    refine List.pairwise_map.mpr (hBefore.imp_of_mem fun {a b} hA hB hLt hFirst => ?_)
    have hWholeA := hWhole a (by simp [hA])
    have hWholeB := hWhole b (by simp [hB])
    rw [way_of_whole hWholeA] at hFirst
    rw [way_of_whole hWholeB]
    exact Key.segments_prefix_between hWholeA hWholeB hKey hLt (hBehind b hB key (by simp))
      (hApart a hA) hFirst hStart

/-- Entries with ascending unrelated keys of segments are the leaves of the members that
they make, in their order. -/
theorem endings_membersOf (hAscending : (entries.map Prod.fst).Pairwise (· < ·))
    (hWhole : ∀ key ∈ entries.map Prod.fst, Whole key)
    (hApart : ∀ a ∈ entries.map Prod.fst, ∀ b ∈ entries.map Prod.fst, ¬ Key.Related a b) :
    endings (.object (membersOf content entries)) =
      entries.map fun entry => (way entry.1, .string (content entry.1 entry.2)) := by
  induction entries using List.reverseRecOn with
  | nil => rfl
  | append_singleton entries entry ih =>
      rw [List.map_append, List.map_singleton] at hAscending hWhole hApart
      have hBefore := ih (List.pairwise_append.mp hAscending).1
        (fun key hKey => hWhole key (List.mem_append_left _ hKey))
        fun a hA b hB => hApart a (List.mem_append_left _ hA) b (List.mem_append_left _ hB)
      have hFollows : Follows (way entry.1) (ways (.object (membersOf content entries))) := by
        rw [ways, hBefore, List.map_map]
        have hKeys := follows_of_lt hAscending hWhole fun other hOther =>
          hApart other (List.mem_append_left _ hOther) entry.1 (by simp)
        rwa [List.map_map] at hKeys
      have hTree : Json.TextTree (fun _ => True) (.object (membersOf content entries)) :=
        textTree_membersOf fun _ _ _ _ => trivial
      rw [membersOf_concat, endings_graft rfl (way_ne_nil entry.1) hTree filled_membersOf hFollows,
        hBefore, List.map_append, List.map_singleton]

/-- The leaves of the tree are listed in the order of the keys. Depth first and member
by member, the tree of a table of keys of segments that do not overlap has the entries
of the table as its leaves, ascending and each once. -/
theorem leaves_in_key_order (t : Table) (hWhole : ∀ key ∈ t.keys, Whole key)
    (hNone : t.overlaps = []) :
    leaves (ofTable .texts t) = t.entries.map (fun entry => (entry.1, .string entry.2)) ∧
      ((leaves (ofTable .texts t)).map Prod.fst).Pairwise (· < ·) := by
  have hEndings : endings (ofTable .texts t) =
      t.entries.map fun entry => (way entry.1, .string entry.2) :=
    endings_membersOf t.keys_ascending hWhole (Table.overlaps_eq_nil_iff.mp hNone)
  have hLeaves : leaves (ofTable .texts t) =
      t.entries.map fun entry => (entry.1, .string entry.2) := by
    rw [leaves_eq, hEndings, List.map_map]
    refine List.map_congr_left fun entry hEntry => ?_
    have hKey : entry.1 ∈ t.keys := List.mem_map_of_mem hEntry
    simp [dotted_way_of_spelled (.inl (hWhole entry.1 hKey))]
  refine ⟨hLeaves, ?_⟩
  rw [hLeaves, List.map_map]
  exact t.keys_ascending

/-- Characters before the dot sort `menu bar`, `menu!` and `menu-x` in front of what lies
under `menu`, and a group inside `menu` stands between two of its texts. -/
theorem menu_leaves_in_key_order :
    let t := Table.ofList [("menu.open", "Open"), ("menu-x", "X"), ("menu.go.to", "To"),
      ("menu bar", "Bar"), ("menu.close", "Close"), ("menu!.a", "A"), ("menu.go.by", "By")]
    leaves (ofTable .texts t) = t.entries.map (fun entry => (entry.1, .string entry.2)) ∧
      (leaves (ofTable .texts t)).map Prod.fst = ["menu bar", "menu!.a", "menu-x", "menu.close",
        "menu.go.by", "menu.go.to", "menu.open"] := by
  intro t
  have hOrder := leaves_in_key_order t (by decide +kernel) (by decide +kernel)
  refine ⟨hOrder.1, ?_⟩
  rw [hOrder.1, List.map_map]
  decide +kernel

end Tree
end LocaleKeys
