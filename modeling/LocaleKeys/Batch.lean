import LocaleKeys.Json.Record

/-! Batches: arrays of texts to be keyed, with the places where they were found. -/
namespace LocaleKeys.Batch

open Json.Document (optional text? texts? textOrNull?)

/-- One text to be keyed. -/
structure Entry where
  text : String
  path : List String := []
  suffix : String := ""
  file : Option String := none
  deriving DecidableEq, Repr

/-- The names of the fields, in order. -/
def Entry.fieldNames : List String := ["text", "path", "suffix", "file"]

/-- An entry must have a text. -/
def Entry.ofDocument? (d : Json.Document) : Option Entry := do
  match ← d.fields? fieldNames with
  | [some text, path, suffix, file] =>
      return {
        text := ← text.text?
        path := ← optional texts? [] path
        suffix := ← optional text? "" suffix
        file := ← optional textOrNull? none file }
  | _ => none

/-- The entries of a batch, in order. -/
def ofText? (text : String) : Option (List Entry) := do
  match ← Json.Document.ofText? text with
  | .array items => items.mapM Entry.ofDocument?
  | _ => none

end LocaleKeys.Batch
