import LocaleKeys.Proofs.Grouping
import LocaleKeys.Pseudo
import Mathlib.Data.List.Forall2

/-! The outline of a tree: its groups, their names and the order in which they come. It
follows from the keys of the table alone. Leaves are set and given up at the same places
whatever they hold, so the trees of the keys, of the texts and of pseudo-texts differ in
what stands in their leaves and in nothing else. -/
namespace LocaleKeys

namespace Json

/-- Two values of one outline: groups of the same names in the same order, with related
texts in the same places. -/
inductive Alike (related : String → String → Prop) : Json → Json → Prop
  | text {text other : String} (h : related text other) :
      Alike related (.string text) (.string other)
  | group {members others : Members} (hNames : members.map Prod.fst = others.map Prod.fst)
      (hInner : List.Forall₂ (fun member other => Alike related member.2 other.2) members others) :
      Alike related (.object members) (.object others)

namespace Alike

variable {related : String → String → Prop} {members others : Members} {name : String}
  {value other : Json}

theorem empty : Alike related (.object []) (.object []) := .group rfl .nil

theorem cons_iff {member partner : String × Json} :
    Alike related (.object (member :: members)) (.object (partner :: others)) ↔
      member.1 = partner.1 ∧ Alike related member.2 partner.2 ∧
        Alike related (.object members) (.object others) := by
  constructor
  · intro h
    obtain _ | ⟨hNames, hInner⟩ := h
    rw [List.map_cons, List.map_cons, List.cons.injEq] at hNames
    obtain ⟨hFirst, hRest⟩ := List.forall₂_cons.mp hInner
    exact ⟨hNames.1, hFirst, .group hNames.2 hRest⟩
  · rintro ⟨hName, hFirst, hRest⟩
    obtain _ | ⟨hNames, hInner⟩ := hRest
    exact .group (by simp [hName, hNames]) (.cons hFirst hInner)

/-- Members of one outline end together. -/
theorem cases_members (h : Alike related (.object members) (.object others)) :
    (members = [] ∧ others = []) ∨ ∃ name value other rest behind,
      members = (name, value) :: rest ∧ others = (name, other) :: behind ∧
        Alike related value other ∧ Alike related (.object rest) (.object behind) := by
  cases members with
  | nil =>
      obtain _ | ⟨_, hInner⟩ := h
      exact .inl ⟨rfl, List.forall₂_nil_left_iff.mp hInner⟩
  | cons member rest =>
      obtain ⟨partner, behind, rfl⟩ : ∃ partner behind, others = partner :: behind := by
        obtain _ | ⟨_, hInner⟩ := h
        exact List.exists_cons_of_length_eq_add_one hInner.length_eq.symm
      obtain ⟨hName, hFirst, hRest⟩ := cons_iff.mp h
      exact .inr ⟨member.1, member.2, partner.2, rest, behind, rfl, by rw [hName], hFirst, hRest⟩

/-- A name is there in both or in neither. -/
theorem lookup (h : Alike related (.object members) (.object others)) (name : String) :
    (members.lookup name = none ∧ others.lookup name = none) ∨
      ∃ value other, members.lookup name = some value ∧ others.lookup name = some other ∧
        Alike related value other := by
  induction members generalizing others with
  | nil =>
      obtain ⟨_, rfl⟩ | ⟨_, _, _, _, _, ⟨⟩, _⟩ := h.cases_members
      exact .inl ⟨rfl, rfl⟩
  | cons member rest ih =>
      obtain ⟨⟨⟩, _⟩ | ⟨first, value, other, _, behind, ⟨⟩, rfl, hFirst, hRest⟩ := h.cases_members
      by_cases hName : name = first
      · exact .inr ⟨value, other, by simp [hName], by simp [hName], hFirst⟩
      · rw [lookup_cons_eq_ite, lookup_cons_eq_ite, if_neg hName, if_neg hName]
        exact ih hRest

theorem put (h : Alike related (.object members) (.object others))
    (hValue : Alike related value other) (name : String) :
    Alike related (.object (members.put name value)) (.object (others.put name other)) := by
  induction members generalizing others with
  | nil =>
      obtain ⟨_, rfl⟩ | ⟨_, _, _, _, _, ⟨⟩, _⟩ := h.cases_members
      exact cons_iff.mpr ⟨rfl, hValue, .empty⟩
  | cons member rest ih =>
      obtain ⟨⟨⟩, _⟩ | ⟨first, _, _, _, behind, ⟨⟩, rfl, hFirst, hRest⟩ := h.cases_members
      rw [Members.put, Members.put]
      split
      · exact cons_iff.mpr ⟨rfl, hValue, hRest⟩
      · exact cons_iff.mpr ⟨rfl, hFirst, ih hRest⟩

end Alike
end Json

namespace Tree

open Json (Alike)

variable {related : String → String → Prop} {members others : Json.Members} {text other : String}
  {path : List String}

theorem alike_groupOf (h : Alike related (.object members) (.object others)) (name : String) :
    Alike related (.object (groupOf name members)) (.object (groupOf name others)) := by
  rw [groupOf, groupOf]
  rcases h.lookup name with ⟨hNone, hOther⟩ | ⟨value, other, hSome, hOther, hValue⟩
  · rw [hNone, hOther]
    exact .empty
  · rw [hSome, hOther]
    cases hValue with
    | text => exact .empty
    | group hNames hInner => exact .group hNames hInner

/-- Leaves that are set at one place leave values of one outline: either both are put,
or groups keep both out. -/
theorem alike_graft (h : Alike related (.object members) (.object others))
    (hLeaf : related text other) :
    Alike related (.object (graft (.string text) path members))
      (.object (graft (.string other) path others)) := by
  induction path generalizing members others with
  | nil => exact h
  | cons segment rest ih =>
      cases rest with
      | nil =>
          have hPut := h.put (.text hLeaf) segment
          rw [graft, graft]
          rcases h.lookup segment with ⟨hNone, hOther⟩ | ⟨value, other, hSome, hOther, hValue⟩
          · rw [hNone, hOther]
            exact hPut
          · rw [hSome, hOther]
            cases hValue with
            | text => exact hPut
            | group => exact h
      | cons next rest =>
          rw [graft_cons_cons, graft_cons_cons]
          exact h.put (ih (alike_groupOf h segment)) segment

/-- Entries make members of one outline whatever is written in their leaves. -/
theorem alike_membersOf {entries : List (String × String)}
    {content contrast : String → String → String}
    (h : ∀ entry ∈ entries, related (content entry.1 entry.2) (contrast entry.1 entry.2)) :
    Alike related (.object (membersOf content entries)) (.object (membersOf contrast entries)) := by
  induction entries using List.reverseRecOn with
  | nil => exact .empty
  | append_singleton entries entry ih =>
      rw [membersOf_concat, membersOf_concat]
      refine alike_graft (ih fun earlier hEarlier => h earlier ?_) (h entry ?_)
      · exact List.mem_append_left _ hEarlier
      · simp

/-- The pseudo-texts of a table are set where the texts are. -/
theorem ofTable_pseudo (draws : Draws) (t : Table) :
    ofTable .texts (t.pseudo draws) = .object (membersOf (pseudoText draws) t.entries) := by
  show Json.object (membersOf LeafContent.texts.of _) = _
  rw [membersOf, Table.pseudo, Table.mapTexts, List.foldl_map]
  rfl

theorem length_pseudoText (draws : Draws) (key text : String) :
    (pseudoText draws key text).length = text.length := by
  simp [pseudoText]

/-- The outline follows from the keys. Whatever keys a table has, the tree of its texts is
that of its keys with each key replaced by its text, and all outcomes of the draws give
trees of this outline in which every leaf keeps its length. -/
theorem outline_of_keys (t : Table) :
    Alike (fun key text => t.lookup key = some text) (ofTable .keys t) (ofTable .texts t) ∧
      ∀ draws : Draws, Alike (fun text pseudo => pseudo.length = text.length)
        (ofTable .texts t) (ofTable .texts (t.pseudo draws)) := by
  constructor
  · exact alike_membersOf fun entry hEntry => Table.mem_entries_iff.mp hEntry
  · intro draws
    rw [ofTable_pseudo]
    exact alike_membersOf fun entry _ => length_pseudoText draws entry.1 entry.2

/-- A text that gives way to a group, and one that gives way to a later text, do so in
both trees. -/
example :
    let t := Table.ofList [("a", "A"), ("a..b", "B"), ("a.b", "C")]
    ofTable .keys t = .object [("a", .object [("b", .string "a.b")])] ∧
      ofTable .texts t = .object [("a", .object [("b", .string "C")])] := ⟨rfl, rfl⟩

end Tree
end LocaleKeys
