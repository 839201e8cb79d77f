import LocaleKeys.Key
import LocaleKeys.Table

/-! Overlapping keys. A table that stores a key and another key under it cannot
be written as a nested tree, because the first would be a text and a group at
once. -/
namespace LocaleKeys

/-- A stored key that is related to a probed key. -/
inductive Overlap
  /-- The probed key lies under this stored key. -/
  | ancestor (key : String)
  /-- This stored key lies under the probed key. -/
  | descendant (key : String)
  deriving DecidableEq, Repr

namespace Table

/-- The first stored key that ends before a dot of a text, where the text goes
on behind what was read of it. -/
def ancestorFrom (t : Table) (read : String) : List Char → Option String
  | [] => none
  | c :: rest =>
      if c = '.' && t.contains read then some read else t.ancestorFrom (read.push c) rest

/-- The shortest stored key that the probe lies under, found by looking up what
stands before each of its dots. -/
def ancestorOf (t : Table) (key : String) : Option String := t.ancestorFrom "" key.toList

/-- The stored keys that lie under a key, ascending. They stand together in the
table, from the first key that is not before the probe with its dot. -/
def descendants (t : Table) (key : String) : List String :=
  (t.keys.dropWhile (· < key ++ ".")).takeWhile fun stored => Key.Under stored key

/-- The first stored key that lies under the probe. -/
def descendantOf (t : Table) (key : String) : Option String := (t.descendants key).head?

/-- A stored key related to the probe: the shortest ancestor, else the first
descendant. The probe itself never counts. -/
def overlapping (t : Table) (key : String) : Option Overlap :=
  match t.ancestorOf key with
  | some ancestor => some (.ancestor ancestor)
  | none => (t.descendantOf key).map .descendant

/-- All pairs of stored keys of which the second lies under the first, in
ascending order of the pairs. -/
def overlaps (t : Table) : List (String × String) :=
  t.keys.flatMap fun ancestor => (t.descendants ancestor).map fun stored => (ancestor, stored)

end Table
end LocaleKeys
