import LocaleKeys.Key
import LocaleKeys.Label
import LocaleKeys.Table

/-! Naming schemes. A scheme turns the labels around a text into a candidate
key: labels up to the root marker are dropped, the others are replaced by their
roles and reduced to segments. The candidate depends on the labels only, except
that a scheme may fall back on the text when no label leaves a segment. -/
namespace LocaleKeys

/-- What names a text whose labels leave no segment. -/
inductive LeafPolicy
  /-- The placeholder. -/
  | path
  /-- A segment of the text itself. -/
  | text
  deriving DecidableEq, Repr, Inhabited

/-- The limit of a segment's length where none is given. -/
def Scheme.defaultMaxSegmentLength : Nat := 64

/-- The root marker where none is given. -/
def Scheme.defaultRootMarker : String := "application"

/-- How candidate keys are made. -/
structure Scheme where
  /-- Roles of labels, which win over the roles of known tags. -/
  roles : Table := .empty
  /-- Number of characters to which a label is cut. -/
  maxSegmentLength : Nat := Scheme.defaultMaxSegmentLength
  /-- Labels up to the first one equal to this are dropped; empty for none. -/
  rootMarker : String := Scheme.defaultRootMarker
  leafPolicy : LeafPolicy := .path

namespace Scheme

/-- Segment of a candidate that has no other. -/
def placeholder : String := "_"

/-- The role of a well-known markup tag. -/
def tagRole : String → Option String
  | "p" => some "paragraph"
  | "a" => some "link"
  | "ul" | "ol" => some "list"
  | "li" => some "item"
  | "h1" | "h2" | "h3" | "h4" | "h5" | "h6" => some "heading"
  | _ => none

/-- The role of a label: the scheme's own, else that of a known tag, else the
label itself. -/
def role (s : Scheme) (label : String) : String :=
  (s.roles.lookup label).getD ((tagRole label).getD label)

/-- The labels behind the first occurrence of a marker; all of them when the
marker is empty or does not occur. -/
def afterMarker (marker : String) (labels : List String) : List String :=
  if marker ≠ "" ∧ marker ∈ labels then (labels.dropWhile (· ≠ marker)).tail else labels

/-- The segments of a list of labels. Labels without a letter leave none. -/
def segments (s : Scheme) (labels : List String) : List String :=
  let kept := (afterMarker s.rootMarker labels).filter (· ≠ "")
  (kept.map fun label => Label.segment s.maxSegmentLength (s.role label)).filter (· ≠ "")

/-- The candidate for a place alone. -/
def place (s : Scheme) (labels : List String) : String :=
  match s.segments labels with
  | [] => placeholder
  | found => Key.ofSegments found

/-- The name of a text without labels. -/
def leaf (s : Scheme) (text : String) : String :=
  match s.leafPolicy with
  | .path => placeholder
  | .text =>
      let segment := Label.textSegment s.maxSegmentLength text
      if segment = "" then placeholder else segment

/-- The candidate for a text at a place. -/
def candidate (s : Scheme) (text : String) (labels : List String) : String :=
  match s.segments labels with
  | [] => s.leaf text
  | found => Key.ofSegments found

end Scheme
end LocaleKeys
