import LocaleKeys.Proofs.Members
import LocaleKeys.Proofs.Segments
import LocaleKeys.Proofs.Table
import LocaleKeys.Tree

/-! What stands where in the tree of a table. A way leads to a group when some key
goes on behind it, and else to the leaf of the last key that ends there. -/
namespace LocaleKeys.Tree

/-- What stands at the end of a way into a value. -/
inductive Spot
  | empty
  | group
  /-- A value that is no object. -/
  | leaf (value : Json)

def Spot.of : Json → Spot
  | .object _ => .group
  | value => .leaf value

/-- A spot after a leaf was set there. A group stays. -/
def Spot.set (leaf : Json) : Spot → Spot
  | .group => .group
  | _ => .leaf leaf

def spotAt : List String → Json → Spot
  | [], value => .of value
  | name :: rest, .object members =>
      match members.lookup name with
      | some value => spotAt rest value
      | none => .empty
  | _ :: _, _ => .empty

variable {leaf value : Json} {members : Json.Members} {name : String} {rest path : List String}

theorem spot_of_leaf (h : value.isObject = false) : Spot.of value = .leaf value := by
  cases value with
  | object members => cases h
  | _ => rfl

theorem spotAt_cons_of_leaf (h : value.isObject = false) :
    spotAt (name :: rest) value = .empty := by
  cases value with
  | object members => cases h
  | _ => rfl

/-- What stands at a path is found member by member, as in the objects themselves. -/
theorem spotAt_cons (first : String) (rest : List String) (members : Json.Members) :
    spotAt (first :: rest) (.object members) =
      ((members.lookup first).map (spotAt rest)).getD .empty := by
  rw [spotAt]
  cases members.lookup first <;> rfl

/-- Behind what is no group there is nothing. -/
theorem spotAt_append_of_ne_group (h : spotAt path value ≠ .group) (hRest : rest ≠ []) :
    spotAt (path ++ rest) value = .empty := by
  induction path generalizing value with
  | nil =>
      obtain ⟨next, rest, rfl⟩ := List.exists_cons_of_ne_nil hRest
      cases value with
      | object members => exact absurd rfl h
      | _ => rfl
  | cons first path ih =>
      cases value with
      | object members =>
          rw [spotAt_cons] at h
          rw [List.cons_append, spotAt_cons]
          cases hLookup : members.lookup first with
          | none => rfl
          | some inner =>
              rw [hLookup] at h
              exact ih h
      | _ => rfl

/-- Behind a name one sees its group, which has nothing in it when it is none. -/
theorem spotAt_groupOf (hRest : rest ≠ []) :
    spotAt rest (.object (groupOf name members)) = spotAt (name :: rest) (.object members) := by
  obtain ⟨next, rest, rfl⟩ := List.exists_cons_of_ne_nil hRest
  rw [groupOf, spotAt_cons name]
  cases members.lookup name with
  | none => rfl
  | some value =>
      cases value with
      | object inner => rfl
      | _ => rfl

/-- A member that was put is seen by the paths that start with its name, and by no others. -/
theorem spotAt_put (name : String) (value : Json) (members : Json.Members) (first : String)
    (rest : List String) :
    spotAt (first :: rest) (.object (members.put name value)) =
      if first = name then spotAt rest value else spotAt (first :: rest) (.object members) := by
  rw [spotAt_cons, spotAt_cons, Json.Members.lookup_put]
  by_cases h : first = name
  · rw [if_pos h, if_pos h]
    rfl
  · rw [if_neg h, if_neg h]

theorem graft_cons_cons (leaf : Json) (segment next : String) (rest : List String)
    (members : Json.Members) :
    graft leaf (segment :: next :: rest) members =
      members.put segment (.object (graft leaf (next :: rest) (groupOf segment members))) := by
  rw [graft]
  simp

/-- The last step of a graft puts the leaf, unless a group is there already, which stays. -/
theorem graft_last (leaf : Json) (last : String) (members : Json.Members) :
    graft leaf [last] members =
      match spotAt [last] (.object members) with
      | .group => members
      | _ => members.put last leaf := by
  rw [graft, spotAt_cons]
  cases members.lookup last with
  | none => rfl
  | some value => cases value <;> rfl

/-- A leaf that is grafted into a group changes what stands at its own path only. -/
theorem spotAt_graft_last (hLeaf : leaf.isObject = false) (last : String) (w : List String) :
    spotAt w (.object (graft leaf [last] members)) =
      if w = [last] then (spotAt [last] (.object members)).set leaf
      else spotAt w (.object members) := by
  rw [graft_last]
  cases w with
  | nil => rfl
  | cons first rest =>
      cases hSpot : spotAt [last] (.object members) with
      | group =>
          by_cases hLast : first :: rest = [last]
          · rw [if_pos hLast, hLast, hSpot]
            rfl
          · rw [if_neg hLast]
      | empty | leaf old =>
          -- The leaf is put: at its end it is seen, and nothing was or is behind it.
          rw [spotAt_put]
          by_cases hFirst : first = last
          · subst hFirst
            cases rest with
            | nil =>
                rw [if_pos rfl, if_pos rfl]
                exact spot_of_leaf hLeaf
            | cons next rest =>
                have hNothing : spotAt ([first] ++ next :: rest) (.object members) = .empty :=
                  spotAt_append_of_ne_group (by simp [hSpot]) (List.cons_ne_nil _ _)
                rw [if_pos rfl, if_neg (by simp), spotAt_cons_of_leaf hLeaf]
                exact hNothing.symm
          · simp [hFirst]

/-- A leaf that is set is seen at its place, unless a group stands there, and
groups are seen on the way to it. All else is as it was. -/
theorem spotAt_graft (hLeaf : leaf.isObject = false) (hPath : path ≠ []) (w : List String) :
    spotAt w (.object (graft leaf path members)) =
      if w = path then (spotAt path (.object members)).set leaf
      else if w <+: path then .group
      else spotAt w (.object members) := by
  induction path generalizing w members with
  | nil => exact absurd rfl hPath
  | cons segment rest ih =>
      cases w with
      | nil => simp [spotAt, Spot.of]
      | cons first w =>
          cases rest with
          | nil =>
              rw [spotAt_graft_last hLeaf]
              by_cases hSame : first :: w = [segment]
              · rw [if_pos hSame, if_pos hSame]
              · rw [if_neg hSame, if_neg hSame, if_neg]
                exact fun hPrefix => hSame (hPrefix.eq_of_length_le (by simp))
          | cons next rest =>
              rw [graft_cons_cons, spotAt_put]
              by_cases hFirst : first = segment
              · subst hFirst
                rw [if_pos rfl, ih (List.cons_ne_nil _ _), spotAt_groupOf (List.cons_ne_nil _ _)]
                simp only [List.cons.injEq, true_and, List.cons_prefix_cons]
                split
                · rfl
                · split
                  · rfl
                  next hNot =>
                    refine spotAt_groupOf ?_
                    rintro rfl
                    exact hNot List.nil_prefix
              · simp [hFirst]

theorem way_ne_nil (key : String) : way key ≠ [] := by
  rw [way]
  split
  · simp
  next h => exact h

variable {content : String → String → String} {entries : List (String × String)}

/-- The members that entries make when they are set one after another. -/
def membersOf (content : String → String → String) (entries : List (String × String)) :
    Json.Members :=
  entries.foldl (fun found entry => graft (.string (content entry.1 entry.2)) (way entry.1) found) []

/-- The tree of a table is grown entry by entry, in the order of the entries. -/
theorem membersOf_concat (content : String → String → String) (entries : List (String × String))
    (entry : String × String) : membersOf content (entries ++ [entry]) =
      graft (.string (content entry.1 entry.2)) (way entry.1) (membersOf content entries) := by
  rw [membersOf, List.foldl_append]
  rfl

theorem ofTable_eq (content : LeafContent) (t : Table) :
    ofTable content t = .object (membersOf content.of t.entries) := rfl

/-- What a spot tells of the entries from which a tree was made. -/
def Spot.Says (content : String → String → String) (entries : List (String × String))
    (path : List String) : Spot → Prop
  | .empty => path ≠ [] ∧ ∀ entry ∈ entries, ¬ path <+: way entry.1
  | .group => path = [] ∨ ∃ entry ∈ entries, path <+: way entry.1 ∧ path ≠ way entry.1
  | .leaf value =>
      (∃ entry ∈ entries, path = way entry.1 ∧ value = .string (content entry.1 entry.2)) ∧
        ∀ entry ∈ entries, path <+: way entry.1 → path = way entry.1

/-- A group stays a group. -/
theorem Spot.Says.concat_group (h : Spot.group.Says content entries path)
    (entry : String × String) : Spot.group.Says content (entries ++ [entry]) path :=
  h.imp_right fun ⟨other, hOther, hPassed⟩ => ⟨other, List.mem_append_left _ hOther, hPassed⟩

/-- One more entry, of which the way is not a part, changes nothing. -/
theorem Spot.Says.concat_of_not_prefix {spot : Spot} {entry : String × String}
    (h : spot.Says content entries path) (hApart : ¬ path <+: way entry.1) :
    spot.Says content (entries ++ [entry]) path := by
  cases spot with
  | empty =>
      obtain ⟨hPath, hNone⟩ := h
      refine ⟨hPath, fun other hOther => ?_⟩
      rcases List.mem_append.mp hOther with hOld | hNew
      · exact hNone other hOld
      · exact List.mem_singleton.mp hNew ▸ hApart
  | group => exact h.concat_group entry
  | leaf value =>
      obtain ⟨⟨held, hHeld, hValue⟩, hLast⟩ := h
      refine ⟨⟨held, List.mem_append_left _ hHeld, hValue⟩, fun other hOther hPrefix => ?_⟩
      rcases List.mem_append.mp hOther with hOld | hNew
      · exact hLast other hOld hPrefix
      · exact absurd (List.mem_singleton.mp hNew ▸ hPrefix) hApart

/-- One more entry that ends at the way sets its leaf where no group stands. -/
theorem Spot.Says.concat_set {spot : Spot} {entry : String × String}
    (h : spot.Says content entries (way entry.1)) :
    (spot.set (.string (content entry.1 entry.2))).Says content (entries ++ [entry])
      (way entry.1) := by
  have hSet (hLast : ∀ other ∈ entries, way entry.1 <+: way other.1 →
      way entry.1 = way other.1) :
      (Spot.leaf (.string (content entry.1 entry.2))).Says content (entries ++ [entry])
        (way entry.1) := by
    refine ⟨⟨entry, by simp, rfl, rfl⟩, fun other hOther hPrefix => ?_⟩
    rcases List.mem_append.mp hOther with hOld | hNew
    · exact hLast other hOld hPrefix
    · rw [List.mem_singleton.mp hNew]
  cases spot with
  | empty => exact hSet fun other hOther hPrefix => absurd hPrefix (h.2 other hOther)
  | group => exact h.concat_group entry
  | leaf value => exact hSet h.2

/-- Every spot in a tree tells the truth about the entries of the tree. -/
theorem spotAt_says (content : String → String → String) (entries : List (String × String))
    (path : List String) :
    (spotAt path (.object (membersOf content entries))).Says content entries path := by
  -- Entries are set from the left, so the induction takes the last one off.
  induction entries using List.reverseRecOn with
  | nil =>
      cases path with
      | nil => exact .inl rfl
      | cons first rest => exact ⟨List.cons_ne_nil _ _, by simp⟩
  | append_singleton entries entry ih =>
      rw [membersOf_concat, spotAt_graft rfl (way_ne_nil entry.1)]
      split
      next hEnd =>
        subst hEnd
        exact ih.concat_set
      next hNe =>
        split
        next hPrefix => exact .inr ⟨entry, by simp, hPrefix, hNe⟩
        next hApart => exact ih.concat_of_not_prefix hApart

variable {named : String → Prop}

theorem textTree_groupOf (h : Json.TextTree named (.object members)) (name : String) :
    Json.TextTree named (.object (groupOf name members)) := by
  rw [groupOf]
  split
  next hLookup => exact h.of_mem (mem_of_lookup hLookup)
  next => exact .empty

theorem textTree_graft {text : String} (h : Json.TextTree named (.object members))
    (hPath : ∀ name ∈ path, named name) :
    Json.TextTree named (.object (graft (.string text) path members)) := by
  induction path generalizing members with
  | nil => exact h
  | cons segment rest ih =>
      obtain ⟨hSegment, hRest⟩ := List.forall_mem_cons.mp hPath
      cases rest with
      | nil =>
          rw [graft_last]
          split
          · exact h
          · exact h.put hSegment (.text text)
      | cons next rest =>
          rw [graft_cons_cons]
          exact h.put hSegment (ih (textTree_groupOf h segment) hRest)

/-- A tree of entries has the names that their ways have. -/
theorem textTree_membersOf (h : ∀ entry ∈ entries, ∀ name ∈ way entry.1, named name) :
    Json.TextTree named (.object (membersOf content entries)) := by
  induction entries using List.reverseRecOn with
  | nil => exact .empty
  | append_singleton entries entry ih =>
      rw [membersOf_concat]
      refine textTree_graft (ih fun other hOther => h other ?_) (h entry ?_)
      · exact List.mem_append_left _ hOther
      · simp

/-- A tree has no two members of one name in one group. -/
theorem distinct_ofTable (content : LeafContent) (t : Table) : (ofTable content t).Distinct := by
  have hTree : Json.TextTree (fun _ => True) (ofTable content t) :=
    textTree_membersOf fun _ _ _ _ => trivial
  exact hTree.distinct

end LocaleKeys.Tree
