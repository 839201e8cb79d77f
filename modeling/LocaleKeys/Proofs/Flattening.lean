import LocaleKeys.Proofs.Grouping

/-! Leaves of trees. Leaves are reached by ways, of which the dotted keys are made.
In a value without repeated names no two leaves have the same way, and the leaf
at the end of a way is the one that stands there. -/
namespace LocaleKeys.Tree

mutual

/-- The values that are no objects, with the ways to them, in order. -/
def endings : Json → List (List String × Json)
  | .object members => endingsOfMembers members
  | leaf => [([], leaf)]

def endingsOfMembers : Json.Members → List (List String × Json)
  | [] => []
  | (name, value) :: rest =>
      (endings value).map (fun ending => (name :: ending.1, ending.2)) ++ endingsOfMembers rest

end

/-- The names on a path with dots between them, as flattening writes them. -/
def dotted (path : List String) : String := path.foldl under ""

variable {leaf value : Json} {members : Json.Members} {path : List String}

theorem endings_of_leaf (h : value.isObject = false) : endings value = [([], value)] := by
  cases value with
  | object members => cases h
  | _ => rfl

theorem endings_object (members : Json.Members) :
    endings (.object members) = members.flatMap fun member =>
      (endings member.2).map fun ending => (member.1 :: ending.1, ending.2) := by
  rw [endings]
  induction members with
  | nil => rfl
  | cons member rest ih => rw [endingsOfMembers, ih, List.flatMap_cons]

theorem endings_append (members more : Json.Members) :
    endings (.object (members ++ more)) = endings (.object members) ++ endings (.object more) := by
  rw [endings_object, endings_object, endings_object, List.flatMap_append]

theorem endings_singleton (name : String) (value : Json) :
    endings (.object [(name, value)]) =
      (endings value).map fun ending => (name :: ending.1, ending.2) := by
  rw [endings_object, List.flatMap_singleton]

mutual

/-- Flattening writes each way behind the key above it. -/
theorem leavesUnder_eq (above : String) : (value : Json) → leavesUnder above value =
    (endings value).map fun ending => (ending.1.foldl under above, ending.2)
  | .object members => leavesOfMembers_eq above members
  | .null | .bool _ | .number _ | .string _ | .array _ => rfl

theorem leavesOfMembers_eq (above : String) : (members : Json.Members) →
    leavesOfMembers above members =
      (endingsOfMembers members).map fun ending => (ending.1.foldl under above, ending.2)
  | [] => rfl
  | (name, value) :: rest => by
      rw [leavesOfMembers, endingsOfMembers, leavesUnder_eq (under above name) value,
        leavesOfMembers_eq above rest, List.map_append, List.map_map]
      rfl

end

theorem leaves_eq (value : Json) :
    leaves value = (endings value).map fun ending => (dotted ending.1, ending.2) :=
  leavesUnder_eq "" value

/-- The way of no name leads to the value itself when it is a leaf. -/
theorem nil_mem_endings : ([], leaf) ∈ endings value ↔ value.isObject = false ∧ leaf = value := by
  cases value with
  | object members =>
      rw [endings_object]
      simp [Json.isObject]
  | _ => simp [endings, Json.isObject]

/-- A way into a group leads through one of its members. -/
theorem cons_mem_endings_object {name : String} :
    (name :: path, leaf) ∈ endings (.object members) ↔
      ∃ value, (name, value) ∈ members ∧ (path, leaf) ∈ endings value := by
  rw [endings_object, List.mem_flatMap]
  simp [and_assoc, eq_comm]

/-- The leaves that are listed are those that stand at their ways. -/
theorem mem_endings_iff (h : value.Distinct) :
    (path, leaf) ∈ endings value ↔ spotAt path value = .leaf leaf := by
  induction path generalizing value with
  | nil =>
      rw [nil_mem_endings, spotAt]
      cases value <;> simp [Json.isObject, Spot.of, eq_comm]
  | cons name rest ih =>
      cases h with
      | leaf hLeaf =>
          rw [endings_of_leaf hLeaf, spotAt_cons_of_leaf hLeaf]
          simp
      | @object members hNames hInner =>
          have hMember (value : Json) : (name, value) ∈ members ∧ (rest, leaf) ∈ endings value ↔
              members.lookup name = some value ∧ spotAt rest value = .leaf leaf := by
            rw [lookup_eq_some_iff_mem hNames]
            exact and_congr_right fun hMem => ih (hInner _ hMem)
          rw [cons_mem_endings_object, spotAt_cons, exists_congr hMember]
          cases members.lookup name <;> simp

/-- No way leads to two leaves. -/
theorem nodup_endings (h : value.Distinct) : ((endings value).map Prod.fst).Nodup := by
  induction h with
  | leaf hLeaf =>
      rw [endings_of_leaf hLeaf]
      simp
  | @object members hNames hInner ih =>
      rw [endings_object, List.map_flatMap, List.nodup_flatMap]
      constructor
      · intro member hMember
        rw [List.map_map]
        have hTails := (ih member hMember).map (List.cons_injective (a := member.1))
        rwa [List.map_map] at hTails
      · -- Ways through two members differ in their first name.
        refine (List.pairwise_map.mp hNames).imp fun hNe => ?_
        intro path hFirst hSecond
        simp only [List.map_map, List.mem_map, Function.comp_apply] at hFirst hSecond
        obtain ⟨_, _, rfl⟩ := hFirst
        obtain ⟨_, _, hSame⟩ := hSecond
        exact hNe (List.cons.inj hSame).1.symm

variable {t : Table} {content : LeafContent} {key text : String}

/-- A leaf of the tree of a table is written from a key on which none goes on. -/
theorem exists_of_mem_endings (h : (path, leaf) ∈ endings (ofTable content t)) :
    ∃ key text, (key, text) ∈ t.entries ∧ path = way key ∧ leaf = .string (content.of key text) ∧
      ∀ other ∈ t.keys, path <+: way other → path = way other := by
  have hSays := spotAt_says content.of t.entries path
  rw [← ofTable_eq, (mem_endings_iff (distinct_ofTable content t)).mp h] at hSays
  obtain ⟨⟨⟨key, text⟩, hEntry, rfl, rfl⟩, hLast⟩ := hSays
  refine ⟨key, text, hEntry, rfl, rfl, fun other hOther => ?_⟩
  obtain ⟨stored, hStored⟩ := Table.mem_keys_iff.mp hOther
  exact hLast (other, stored) hStored

/-- A key on which none goes on, and which shares its way with none, has its
leaf in the tree. -/
theorem mem_endings_of_entry (hEntry : (key, text) ∈ t.entries)
    (hAlone : ∀ other ∈ t.keys, way key <+: way other → key = other) :
    (way key, .string (content.of key text)) ∈ endings (ofTable content t) := by
  have hSays := spotAt_says content.of t.entries (way key)
  have hOther (entry : String × String) (hMem : entry ∈ t.entries)
      (hPrefix : way key <+: way entry.1) : key = entry.1 :=
    hAlone entry.1 (List.mem_map_of_mem hMem) hPrefix
  rw [← ofTable_eq] at hSays
  rw [mem_endings_iff (distinct_ofTable content t)]
  cases hSpot : spotAt (way key) (ofTable content t) with
  | empty =>
      rw [hSpot] at hSays
      exact absurd (List.prefix_refl (way key)) (hSays.2 (key, text) hEntry)
  | group =>
      -- Only a key that goes on behind this one could have made a group here.
      rw [hSpot] at hSays
      rcases hSays with hRoot | ⟨entry, hMem, hPrefix, hNe⟩
      · exact absurd hRoot (way_ne_nil key)
      · exact absurd (congrArg way (hOther entry hMem hPrefix)) hNe
  | leaf value =>
      rw [hSpot] at hSays
      obtain ⟨⟨⟨other, stored⟩, hMem, hWay, rfl⟩, _⟩ := hSays
      obtain rfl : key = other := hOther _ hMem (hWay ▸ List.prefix_refl _)
      rw [Table.mem_entries_iff] at hMem hEntry
      rw [Option.some.inj (hMem.symm.trans hEntry)]

end LocaleKeys.Tree
