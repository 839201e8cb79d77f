import LocaleKeys.Json.Value
import LocaleKeys.Proofs.Table

/-! Members of objects. A member that is put is seen under its name and nowhere
else, and no name is doubled by it, so trees of texts are built member by member. -/
namespace LocaleKeys.Json

namespace Members

variable {name other : String} {value : Json} {members : Members}

/-- A member that is put is found under its name, and all others are found as before. -/
theorem lookup_put (name : String) (value : Json) (members : Members) (other : String) :
    (put name value members).lookup other =
      if other = name then some value else members.lookup other := by
  induction members with
  | nil => rw [put, lookup_cons_eq_ite]
  | cons head rest ih =>
      obtain ⟨first, old⟩ := head
      rw [put, lookup_cons_eq_ite]
      split
      next hFirst =>
        rw [lookup_cons_eq_ite, hFirst]
        split <;> rfl
      next hFirst =>
        rw [lookup_cons_eq_ite, ih]
        by_cases h : other = first
        · rw [if_pos h, if_neg (h ▸ hFirst), if_pos h]
        · rw [if_neg h, if_neg h]

theorem mem_put {member : String × Json} (h : member ∈ put name value members) :
    member = (name, value) ∨ member ∈ members := by
  induction members with
  | nil => simpa [put] using h
  | cons head rest ih =>
      obtain ⟨first, old⟩ := head
      rw [put] at h
      split at h
      next hFirst =>
        subst hFirst
        exact (List.mem_cons.mp h).imp_right (List.mem_cons_of_mem _)
      next =>
        rcases List.mem_cons.mp h with rfl | hRest
        · exact .inr List.mem_cons_self
        · exact (ih hRest).imp_right (List.mem_cons_of_mem _)

/-- Putting a member keeps names apart, so the objects that are built have each name once. -/
theorem nodup_put (name : String) (value : Json) (h : (members.map Prod.fst).Nodup) :
    ((put name value members).map Prod.fst).Nodup := by
  induction members with
  | nil => simp [put]
  | cons head rest ih =>
      obtain ⟨first, old⟩ := head
      obtain ⟨hFirst, hRest⟩ := List.nodup_cons.mp h
      rw [put]
      split
      · exact h
      next hNe =>
        refine List.nodup_cons.mpr ⟨fun hMem => ?_, ih hRest⟩
        obtain ⟨member, hMember, hName⟩ := List.mem_map.mp hMem
        rcases mem_put hMember with rfl | hOld
        · exact hNe hName.symm
        · exact hFirst (hName ▸ List.mem_map_of_mem hOld)

/-- A new member is put behind the others. The order of an object is the order in which its
names came up. -/
theorem put_of_not_mem (value : Json) (h : name ∉ members.map Prod.fst) :
    put name value members = members ++ [(name, value)] := by
  induction members with
  | nil => rfl
  | cons head rest ih =>
      obtain ⟨hFirst, hRest⟩ : name ≠ head.1 ∧ name ∉ rest.map Prod.fst := by simpa using h
      rw [put, if_neg (Ne.symm hFirst), ih hRest, List.cons_append]

theorem put_ne_nil (name : String) (value : Json) (members : Members) :
    put name value members ≠ [] := by
  cases members with
  | nil => simp [put]
  | cons head rest =>
      rw [put]
      split <;> simp

/-- A member that is there is put in its place. -/
theorem put_append_cons {before : Members} (hNew : name ∉ before.map Prod.fst) (old : Json)
    (after : Members) :
    put name value (before ++ (name, old) :: after) = before ++ (name, value) :: after := by
  induction before with
  | nil => simp [put]
  | cons head rest ih =>
      obtain ⟨hFirst, hRest⟩ : name ≠ head.1 ∧ name ∉ rest.map Prod.fst := by simpa using hNew
      rw [List.cons_append, put, if_neg (Ne.symm hFirst), ih hRest, List.cons_append]

/-- The object of a list is built member by member; a name that comes again has its value
replaced. -/
theorem ofList_concat (members : Members) (member : String × Json) :
    ofList (members ++ [member]) = put member.1 member.2 (ofList members) := by
  rw [ofList, List.foldl_append]
  rfl

/-- Members that are settled hold the last value of each name. -/
theorem lookup_ofList (members : Members) (name : String) :
    (ofList members).lookup name = members.reverse.lookup name := by
  induction members using List.reverseRecOn with
  | nil => rfl
  | append_singleton members member ih =>
      rw [ofList_concat, lookup_put, List.reverse_concat, lookup_cons_eq_ite, ih]

theorem nodup_ofList (members : Members) : ((ofList members).map Prod.fst).Nodup := by
  induction members using List.reverseRecOn with
  | nil => exact .nil
  | append_singleton members member ih =>
      rw [ofList_concat]
      exact nodup_put member.1 member.2 ih

/-- Members that are settled are among those that were written. -/
theorem mem_of_mem_ofList {member : String × Json} (h : member ∈ ofList members) :
    member ∈ members := by
  induction members using List.reverseRecOn with
  | nil => exact h
  | append_singleton members last ih =>
      rw [ofList_concat] at h
      rcases mem_put h with rfl | hOld
      · simp
      · exact List.mem_append_left _ (ih hOld)

end Members

/-- No object outside the arrays of a value has two members of one name. -/
inductive Distinct : Json → Prop
  | leaf {value : Json} (hLeaf : value.isObject = false) : Distinct value
  | object {members : Members} (hNames : (members.map Prod.fst).Nodup)
      (hInner : ∀ member ∈ members, Distinct member.2) : Distinct (.object members)

/-- Groups and texts alone. In a group no name is given twice, and each is of
the kind that is asked for. -/
inductive TextTree (named : String → Prop) : Json → Prop
  | text (text : String) : TextTree named (.string text)
  | group {members : Members} (hNames : (members.map Prod.fst).Nodup)
      (hNamed : ∀ member ∈ members, named member.1)
      (hInner : ∀ member ∈ members, TextTree named member.2) : TextTree named (.object members)

namespace TextTree

variable {named : String → Prop} {members : Members} {name : String} {value : Json}

/-- In a tree of texts no object has a name twice, at any depth. -/
theorem distinct (h : TextTree named value) : value.Distinct := by
  induction h with
  | text text => exact .leaf rfl
  | group hNames _ _ ih => exact .object hNames ih

theorem empty : TextTree named (.object []) := .group .nil (by simp) (by simp)

theorem nodup (h : TextTree named (.object members)) : (members.map Prod.fst).Nodup := by
  cases h with
  | group hNames _ _ => exact hNames

theorem of_mem (h : TextTree named (.object members)) {member : String × Json}
    (hMember : member ∈ members) : TextTree named member.2 := by
  cases h with
  | group _ _ hInner => exact hInner member hMember

/-- A text or a group may be put into a group of a tree of texts, under a name that is
allowed. -/
theorem put (h : TextTree named (.object members)) (hName : named name)
    (hValue : TextTree named value) : TextTree named (.object (members.put name value)) := by
  obtain _ | ⟨hNames, hNamed, hInner⟩ := h
  refine .group (Members.nodup_put name value hNames) ?_ ?_
  · intro member hMember
    rcases Members.mem_put hMember with rfl | hOld
    · exact hName
    · exact hNamed member hOld
  · intro member hMember
    rcases Members.mem_put hMember with rfl | hOld
    · exact hValue
    · exact hInner member hOld

end TextTree
end LocaleKeys.Json
