import LocaleKeys.Json.Value
import LocaleKeys.Key
import LocaleKeys.Table

/-! Tables as nested trees and back. A tree groups the texts of a table by the
segments of their keys. Flattening joins the names on the way to each leaf with
dots. Where two keys claim one place, groups win over texts and later keys win
over earlier ones. -/
namespace LocaleKeys

namespace Tree

/-- The way to a key's leaf. A key without a segment stands at the root as it is. -/
def way (key : String) : List String :=
  match Key.segments key with
  | [] => [key]
  | segments => segments

/-- The members of the group of a name; none when there is no such group. -/
def groupOf (name : String) (members : Json.Members) : Json.Members :=
  match members.lookup name with
  | some (.object inner) => inner
  | _ => []

/-- A leaf set at the end of a way. A text on the way gives way to a group, and
a group at its end stays. -/
def graft (leaf : Json) : List String → Json.Members → Json.Members
  | [], members => members
  | [last], members =>
      match members.lookup last with
      | some (.object _) => members
      | _ => members.put last leaf
  | segment :: rest, members =>
      members.put segment (.object (graft leaf rest (groupOf segment members)))

/-- The members of the tree whose leaves are given by key and text. -/
def members (leaf : String → String → String) (t : Table) : Json.Members :=
  t.entries.foldl (fun found entry => graft (.string (leaf entry.1 entry.2)) (way entry.1) found) []

/-- What a leaf of a tree holds. -/
inductive LeafContent
  | keys
  | texts
  deriving DecidableEq, Repr

def LeafContent.of : LeafContent → String → String → String
  | .keys, key, _ => key
  | .texts, _, text => text

/-- The tree of a table. -/
def ofTable (content : LeafContent) (t : Table) : Json := .object (members content.of t)

/-- A clash met while a tree is built. -/
inductive Clash
  /-- A text gave way to a group of this name. -/
  | replaced (segment : String)
  /-- A group of this name kept a text out. -/
  | shadowed (segment : String)
  deriving DecidableEq, Repr

/-- The clashes of one way with the members that are there. -/
def clashesOn : List String → Json.Members → List Clash
  | [], _ => []
  | [last], members =>
      match members.lookup last with
      | some (.object _) => [.shadowed last]
      | _ => []
  | segment :: rest, members =>
      match members.lookup segment with
      | some (.object inner) => clashesOn rest inner
      | some _ => .replaced segment :: clashesOn rest []
      | none => clashesOn rest []

/-- All clashes of a table, in the order in which they are met. -/
def clashes (t : Table) : List Clash :=
  (t.entries.foldl
    (fun (found : Json.Members × List Clash) entry =>
      (graft (.string entry.2) (way entry.1) found.1, found.2 ++ clashesOn (way entry.1) found.1))
    ([], [])).2

/-- A name behind the names above it. Above the first name there is nothing to
put a dot behind. -/
def under (above name : String) : String := if above = "" then name else above ++ "." ++ name

mutual

/-- The values that are no objects, with their dotted keys, in order. -/
def leavesUnder (above : String) : Json → List (String × Json)
  | .object members => leavesOfMembers above members
  | leaf => [(above, leaf)]

def leavesOfMembers (above : String) : Json.Members → List (String × Json)
  | [] => []
  | (name, value) :: rest => leavesUnder (under above name) value ++ leavesOfMembers above rest

end

def leaves (value : Json) : List (String × Json) := leavesUnder "" value

/-- The texts of a tree as a table. Leaves that are no texts are left out, and
of two with one key the later one stays. -/
def flatten (value : Json) : Table :=
  Table.ofList ((leaves value).filterMap fun leaf => leaf.2.text?.map fun text => (leaf.1, text))

/-- Why a tree cannot be flattened without loss. -/
inductive FlattenError
  | notText (key : String)
  | repeated (key : String)
  deriving DecidableEq, Repr

def FlattenError.key : FlattenError → String
  | .notText key | .repeated key => key

def FlattenError.message : FlattenError → String
  | .notText key => "value at \"" ++ key ++ "\" is not a string"
  | .repeated key => "key \"" ++ key ++ "\" is defined more than once"

/-- Leaves taken into a table one after another, up to the first that is lost. -/
def collect : Table → List (String × Json) → Except FlattenError Table
  | t, [] => .ok t
  | t, (key, leaf) :: rest =>
      match leaf.text? with
      | none => .error (.notText key)
      | some text => if t.contains key then .error (.repeated key) else collect (t.insert key text) rest

/-- The texts of a tree as a table, if no leaf is lost. -/
def flatten? (value : Json) : Except FlattenError Table := collect .empty (leaves value)

end Tree

/-- The table as an object with one member for each key, ascending. -/
def Table.toJson (t : Table) : Json :=
  .object (t.entries.map fun entry => (entry.1, .string entry.2))

end LocaleKeys
