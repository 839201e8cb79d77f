import LocaleKeys.Json.Record
import LocaleKeys.Json.Writer
import LocaleKeys.Namer
import LocaleKeys.SourceFile
import LocaleKeys.Tree

/-! Settings of a project: where its table is kept and how its keys are made. -/
namespace LocaleKeys

structure Settings where
  tableFile : String := "./i18n/lut.json"
  maxSegmentLength : Nat := Scheme.defaultMaxSegmentLength
  maxIterations : Nat := Namer.defaultLimit
  rootMarker : String := Scheme.defaultRootMarker
  sharedMarker : String := SourceFile.defaultSharedMarker
  leafPolicy : LeafPolicy := .path
  /-- Roles of labels. -/
  labels : Table := .empty

namespace LeafPolicy

def name : LeafPolicy → String
  | .path => "path"
  | .text => "text"

def ofName? : String → Option LeafPolicy
  | "path" => some .path
  | "text" => some .text
  | _ => none

/-- A policy is given by its name, or by an object whose one member has this
name and no content. -/
def ofDocument? : Json.Document → Option LeafPolicy
  | .string raw => raw.text?.bind ofName?
  | .object [(raw, .null)] => raw.text?.bind ofName?
  | _ => none

end LeafPolicy

namespace Settings

/-- The names of the fields, in order. -/
def fieldNames : List String :=
  ["tableFile", "maxSegmentLength", "maxIterations", "rootMarker", "sharedMarker", "leafPolicy",
    "labels"]

open Json.Document (optional text? natural? table?)

/-- Settings read from a document. What is left out has its default. -/
def ofDocument? (d : Json.Document) : Option Settings := do
  match ← d.fields? fieldNames with
  | [tableFile, maxSegmentLength, maxIterations, rootMarker, sharedMarker, leafPolicy, labels] =>
      let default : Settings := {}
      return {
        tableFile := ← optional text? default.tableFile tableFile
        maxSegmentLength :=
          ← optional natural? default.maxSegmentLength maxSegmentLength
        maxIterations := ← optional natural? default.maxIterations maxIterations
        rootMarker := ← optional text? default.rootMarker rootMarker
        sharedMarker := ← optional text? default.sharedMarker sharedMarker
        leafPolicy :=
          ← optional LeafPolicy.ofDocument? default.leafPolicy leafPolicy
        labels := ← optional table? default.labels labels }
  | _ => none

def ofText? (text : String) : Option Settings := (Json.Document.ofText? text).bind ofDocument?

/-- What is wrong with settings that can be read. -/
inductive Fault
  | zeroSegmentLength
  | zeroIterations
  /-- The role of a label leaves no segment, so the label would vanish from keys. -/
  | emptyRole (label role : String)
  deriving DecidableEq, Repr

def Fault.message : Fault → String
  | .zeroSegmentLength => "'maxSegmentLength' must be greater than 0"
  | .zeroIterations => "'maxIterations' must be greater than 0"
  | .emptyRole label role =>
      "Invalid label mapping in 'labels': \"" ++ label ++ "\" -> \"" ++ role ++
        "\" has no letters"

/-- The first fault of the settings: limits are positive, and every role leaves
a segment. -/
def fault? (s : Settings) : Option Fault :=
  if s.maxSegmentLength = 0 then some .zeroSegmentLength
  else if s.maxIterations = 0 then some .zeroIterations
  else
    (s.labels.entries.find? fun entry => Label.segment s.maxSegmentLength entry.2 = "").map
      fun entry => .emptyRole entry.1 entry.2

/-- The scheme that the settings ask for. -/
def scheme (s : Settings) : Scheme where
  roles := s.labels
  maxSegmentLength := s.maxSegmentLength
  rootMarker := s.rootMarker
  leafPolicy := s.leafPolicy

/-- A namer with an empty ledger. -/
def namer (s : Settings) : Namer := { scheme := s.scheme, limit := s.maxIterations }

/-- The labels around a text: those of its file, then its own. -/
def context (s : Settings) (file : Option String) (labels : List String) : List String :=
  match file with
  | some path => SourceFile.labels s.rootMarker s.sharedMarker path ++ labels
  | none => labels

def toJson (s : Settings) : Json :=
  .object [
    ("tableFile", .string s.tableFile),
    ("maxSegmentLength", .number (.integer s.maxSegmentLength)),
    ("maxIterations", .number (.integer s.maxIterations)),
    ("rootMarker", .string s.rootMarker),
    ("sharedMarker", .string s.sharedMarker),
    ("leafPolicy", .string s.leafPolicy.name),
    ("labels", s.labels.toJson)]

/-- The text of the settings that hold where none are given. -/
def defaultText : String := Json.prettyText (toJson {})

end Settings
end LocaleKeys
