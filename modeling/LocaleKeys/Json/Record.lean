import LocaleKeys.Json.Reader
import LocaleKeys.Table

/-! Records read from JSON documents. A record is an object whose members are
named after its fields, or an array of the fields in their order. Members of
other names are passed over whatever they hold; a field must not be given
twice. Fields are read from the document itself, so what is passed over need not
have a value. -/
namespace LocaleKeys.Json.Document

/-- Whether one of the names occurs twice. -/
def isRepeated (fields names : List String) : Bool :=
  fields.any fun field => 1 < names.count field

/-- What a document gives for each of the fields; none for a field left out. -/
def fields? (fields : List String) : Document → Option (List (Option Document))
  | .object members => do
      let named ← members.mapM fun entry => do return ((← entry.1.text?), entry.2)
      if isRepeated fields (named.map Prod.fst) then none
      else return fields.map fun field => named.lookup field
  | .array items =>
      if items.length ≤ fields.length then
        some (items.map some ++ List.replicate (fields.length - items.length) none)
      else none
  | _ => none

/-- A field that takes a default when it is left out. -/
def optional {α : Type} (read : Document → Option α) (default : α) :
    Option Document → Option α
  | some d => read d
  | none => some default

def text? : Document → Option String
  | .string raw => raw.text?
  | _ => none

/-- A plain literal without a sign that fits in 64 bits. -/
def natural? : Document → Option Nat
  | .number literal => literal.natural?
  | _ => none

def texts? : Document → Option (List String)
  | .array items => items.mapM text?
  | _ => none

/-- A text or nothing. -/
def textOrNull? : Document → Option (Option String)
  | .null => some none
  | .string raw => raw.text?.map some
  | _ => none

/-- An object of texts; of two members with one name the later one stays. -/
def table? : Document → Option Table
  | .object members => do
      let named ← members.mapM fun entry => do return ((← entry.1.text?), (← entry.2.text?))
      return Table.ofList named
  | _ => none

end LocaleKeys.Json.Document
