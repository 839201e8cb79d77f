import LocaleKeys.Proofs.Flattening
import LocaleKeys.Proofs.TableFile

/-! What loading keeps of a file. Each text of the value that is read has its own entry in
the table, and nothing else has one. A value keeps the texts that are written, apart from
those in members whose name is given again: so many are lost without a word. -/
namespace LocaleKeys

namespace Json

namespace Members

/-- The members whose name is not given again behind them. -/
def settled : Members → Members
  | [] => []
  | member :: rest =>
      if member.1 ∈ rest.map Prod.fst then settled rest else member :: settled rest

/-- Settling repeated names leaves some of the members, in their order. -/
theorem settled_sublist (members : Members) : (settled members).Sublist members := by
  induction members with
  | nil => exact .slnil
  | cons member rest ih =>
      rw [settled]
      split
      · exact ih.cons member
      · exact ih.cons_cons member

theorem nodup_settled (members : Members) : ((settled members).map Prod.fst).Nodup := by
  induction members with
  | nil => exact .nil
  | cons member rest ih =>
      rw [settled]
      split
      · exact ih
      next hLast =>
        rw [List.map_cons, List.nodup_cons]
        exact ⟨fun hMem => hLast (((settled_sublist rest).map Prod.fst).subset hMem), ih⟩

/-- Of a name that is given twice the last value is left. -/
theorem lookup_settled (members : Members) (name : String) :
    (settled members).lookup name = members.reverse.lookup name := by
  induction members with
  | nil => rfl
  | cons member rest ih =>
      have hBehind : rest.reverse.lookup member.1 = none ↔ member.1 ∉ rest.map Prod.fst := by
        rw [lookup_eq_none_iff_not_mem, List.map_reverse, List.mem_reverse]
      rw [settled, List.reverse_cons, List.lookup_append, lookup_cons_eq_ite]
      by_cases hAgain : member.1 ∈ rest.map Prod.fst
      · rw [if_pos hAgain, ih]
        by_cases hName : name = member.1
        · obtain ⟨value, hValue⟩ :=
            Option.ne_none_iff_exists'.mp fun hNone => hBehind.mp hNone hAgain
          rw [hName, hValue, Option.some_or]
        · simp [hName]
      · rw [if_neg hAgain, lookup_cons_eq_ite, ih]
        by_cases hName : name = member.1
        · simp [hName, hBehind.mpr hAgain]
        · simp [hName]

/-- In another order, the members of an object are those whose name is not given again. -/
theorem ofList_perm_settled (members : Members) : (ofList members).Perm (settled members) := by
  have hOfList := nodup_ofList members
  have hSettled := nodup_settled members
  refine (List.perm_ext_iff_of_nodup hOfList.of_map hSettled.of_map).mpr fun ⟨name, value⟩ => ?_
  rw [← lookup_eq_some_iff_mem hOfList, ← lookup_eq_some_iff_mem hSettled, lookup_ofList,
    lookup_settled]

end Members

namespace Document

mutual

/-- How many texts are written in a document outside its arrays, those of every member
counted. -/
def texts : Document → Nat
  | .string _ => 1
  | .object members => textsOfMembers members
  | _ => 0

def textsOfMembers : List (Raw × Document) → Nat
  | [] => 0
  | (_, item) :: rest => texts item + textsOfMembers rest

end

mutual

/-- How many of the texts stand in a member whose name is given again behind it. -/
def replaced : Document → Nat
  | .object members => replacedOfMembers members
  | _ => 0

def replacedOfMembers : List (Raw × Document) → Nat
  | [] => 0
  | (name, item) :: rest =>
      (if name.text? ∈ rest.map (fun member => member.1.text?) then texts item else replaced item) +
        replacedOfMembers rest

end

theorem map_text?_of_membersWithin {depth : Nat} {members : List (Raw × Document)}
    {written : Members} (h : membersWithin depth members = some written) :
    members.map (fun member => member.1.text?) = written.map fun member => some member.1 := by
  induction members generalizing written with
  | nil =>
      cases h
      rfl
  | cons member rest ih =>
      simp only [membersWithin, Option.bind_eq_bind, Option.bind_eq_some_iff, Option.pure_def,
        Option.some.injEq] at h
      obtain ⟨name, hName, value, -, values, hValues, rfl⟩ := h
      rw [List.map_cons, List.map_cons, hName, ih hValues]

end Document
end Json

namespace Tree

/-- How many texts a value has outside its arrays. -/
def textCount (value : Json) : Nat :=
  (leaves value).countP fun leaf => leaf.2.text?.isSome

/-- The texts of a value are counted at its endings. -/
theorem textCount_eq (value : Json) :
    textCount value = (endings value).countP fun ending => ending.2.text?.isSome := by
  rw [textCount, leaves_eq, List.countP_map]
  rfl

theorem textCount_cons (name : String) (value : Json) (rest : Json.Members) :
    textCount (.object ((name, value) :: rest)) = textCount value + textCount (.object rest) := by
  simp only [textCount_eq, endings_object, List.flatMap_cons, List.countP_append, List.countP_map]
  rfl

theorem textCount_perm {members others : Json.Members} (h : members.Perm others) :
    textCount (.object members) = textCount (.object others) := by
  rw [textCount_eq, textCount_eq, endings_object, endings_object]
  exact (h.flatMap_right _).countP_eq _

end Tree

namespace Json.Document

open LocaleKeys.Tree (textCount)

mutual

/-- The texts that are written are those of the value and those that were replaced. -/
theorem textCount_add_replaced {depth : Nat} {value : Json} : (d : Document) →
    d.valueWithin depth = some value → textCount value + d.replaced = d.texts
  | .null, h | .bool _, h => by
      cases h
      rfl
  | .number _, h | .string _, h => by
      obtain ⟨_, -, rfl⟩ := Option.map_eq_some_iff.mp h
      rfl
  | .array items, h => by
      cases depth with
      | zero => cases h
      | succ depth =>
          obtain ⟨values, -, rfl⟩ := Option.map_eq_some_iff.mp h
          rfl
  | .object members, h => by
      cases depth with
      | zero => cases h
      | succ depth =>
          obtain ⟨written, hWritten, rfl⟩ := Option.map_eq_some_iff.mp h
          rw [Tree.textCount_perm (Members.ofList_perm_settled written)]
          exact textCount_settled_add_replaced members hWritten

/-- The texts of an object as it was written are those that are left and those that were
replaced, by induction on its members. -/
theorem textCount_settled_add_replaced {depth : Nat} {written : Members} :
    (members : List (Raw × Document)) → membersWithin depth members = some written →
      textCount (.object written.settled) + replacedOfMembers members = textsOfMembers members
  | [], h => by
      cases h
      rfl
  | (name, item) :: rest, h => by
      simp only [membersWithin, Option.bind_eq_bind, Option.bind_eq_some_iff, Option.pure_def,
        Option.some.injEq] at h
      obtain ⟨text, hText, value, hValue, values, hValues, rfl⟩ := h
      have hItem := textCount_add_replaced item hValue
      have hRest := textCount_settled_add_replaced rest hValues
      have hAgain : name.text? ∈ rest.map (fun member => member.1.text?) ↔
          text ∈ values.map Prod.fst := by
        rw [map_text?_of_membersWithin hValues, hText]
        simp
      rw [replacedOfMembers, textsOfMembers, Members.settled]
      by_cases hLater : text ∈ values.map Prod.fst
      · rw [if_pos hLater, if_pos (hAgain.mpr hLater)]
        omega
      · rw [if_neg hLater, if_neg (mt hAgain.mp hLater), Tree.textCount_cons]
        omega

end

end Json.Document

namespace TableFile

open Json (Document)

/-- A loaded table has an entry for each text that is written in the file, those apart that
stand in a member whose name is given again behind it. Those are lost without a word; of the
value that is left every leaf has an entry of its own, so no two have one dotted key. -/
theorem size_of_loaded (path text : String) (w : Program.World) (t : Table)
    (hRead : w.files.read path = .ok text) (hLoad : ((load path).run.run w).1 = .ok t) :
    ∃ d value, Document.ofText? text = some d ∧ d.value? = some value ∧
      t.size + d.replaced = d.texts ∧
      (Tree.leaves value).Perm (t.entries.map fun entry => (entry.1, .string entry.2)) := by
  obtain ⟨lines, hGives⟩ := Program.gives_of_run hLoad
  have hHolds := (gives_load.mp hGives).1
  have hPresent : w.files.isPresent path = true := by
    simp [FileSystem.isPresent, FileSystem.read_eq_ok_iff.mp hRead]
  rw [Holds, if_pos hPresent] at hHolds
  obtain ⟨found, hFound, hParse⟩ := hHolds
  obtain rfl := Except.ok.inj (hFound.symm.trans hRead)
  obtain ⟨value, hText, -, hFlat⟩ := parse_eq_ok_iff.mp hParse
  obtain ⟨d, hDocument, hValue⟩ := Option.bind_eq_some_iff.mp hText
  have hLeaves := Tree.flatten?_eq_ok_iff.mp hFlat
  have hSize : Tree.textCount value = t.size := by
    rw [Tree.textCount, hLeaves.countP_eq]
    simp [Table.size, List.countP_map, Function.comp_def, Json.text?]
  have hCount := d.textCount_add_replaced hValue
  rw [hSize] at hCount
  exact ⟨d, value, hDocument, hValue, hCount, hLeaves⟩

/-- A group that is given twice: the text in the first one is lost. -/
theorem size_of_menu_given_twice :
    let text := "\x7b\"title\":\"T\",\"menu\":\x7b\"open\":\"Open\"\x7d," ++
      "\"menu\":\x7b\"close\":\"Close\"\x7d\x7d"
    let t := Table.ofList [("menu.close", "Close"), ("title", "T")]
    ∃ d value, Document.ofText? text = some d ∧ d.value? = some value ∧
      t.size + d.replaced = d.texts ∧
      (Tree.leaves value).Perm (t.entries.map fun entry => (entry.1, .string entry.2)) := by
  intro text t
  exact size_of_loaded "t.json" text { files := { nodes := [(["t.json"], .file (.text text))] } } t
    (by decide +kernel) (by decide +kernel)

/-- A key that is given twice as a member of one object is loaded with its last text. -/
theorem not_entry_for_each_text :
    ¬ ∀ (path text : String) (w : Program.World) (t : Table),
      w.files.read path = .ok text → ((load path).run.run w).1 = .ok t →
      (Document.ofText? text).map Document.texts = some t.size := by
  intro h
  have hTwice := h "t.json" "\x7b\"a\":\"1\",\"a\":\"2\"\x7d"
    { files := { nodes :=
      [(["t.json"], .file (.text "\x7b\"a\":\"1\",\"a\":\"2\"\x7d"))] } }
    (.ofList [("a", "2")]) (by decide +kernel) (by decide +kernel)
  revert hTwice
  decide +kernel

end TableFile
end LocaleKeys
