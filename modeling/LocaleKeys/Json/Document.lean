import LocaleKeys.Json.Number

/-! JSON documents as they are written: every member counts, also one with a
repeated name, and text and numbers are kept before they are given a meaning. A
value is what is left when strings are decoded, numbers fit their types, nesting
stays within its limit and repeated names are settled. -/
namespace LocaleKeys.Json

/-- A piece of a written string: a character, or a code unit given by four
hexadecimal digits. -/
inductive Piece
  | char (c : Char)
  | unit (value : Nat)
  deriving DecidableEq, Repr

/-- A string as it is written. -/
abbrev Raw := List Piece

inductive Document
  | null
  | bool (value : Bool)
  | number (literal : Literal)
  | string (text : Raw)
  | array (items : List Document)
  | object (members : List (Raw × Document))

namespace Raw

def isLeading (unit : Nat) : Bool := 0xD800 ≤ unit && unit < 0xDC00

def isTrailing (unit : Nat) : Bool := 0xDC00 ≤ unit && unit < 0xE000

/-- The characters of a written string. A leading surrogate must be followed by
a trailing one, and no trailing one may stand alone. -/
def characters? : Raw → Option (List Char)
  | [] => some []
  | .char c :: rest => (characters? rest).map (c :: ·)
  | .unit high :: .unit low :: rest =>
      if isLeading high then
        if isTrailing low then
          (characters? rest).map
            (Char.ofNat (0x10000 + (high - 0xD800) * 0x400 + (low - 0xDC00)) :: ·)
        else none
      else if isTrailing high then none
      else (characters? (.unit low :: rest)).map (Char.ofNat high :: ·)
  | .unit unit :: rest =>
      if isLeading unit || isTrailing unit then none
      else (characters? rest).map (Char.ofNat unit :: ·)

def text? (raw : Raw) : Option String := (characters? raw).map String.ofList

end Raw

namespace Document

/-- Containers that a value may have open at once. -/
def depthLimit : Nat := 127

mutual

/-- The value of a document that may open so many more containers. -/
def valueWithin (depth : Nat) : Document → Option Json
  | .null => some .null
  | .bool b => some (.bool b)
  | .number literal => literal.number?.map .number
  | .string raw => raw.text?.map .string
  | .array items =>
      match depth with
      | 0 => none
      | depth + 1 => (itemsWithin depth items).map .array
  | .object members =>
      match depth with
      | 0 => none
      | depth + 1 => (membersWithin depth members).map fun written => .object (Members.ofList written)

def itemsWithin (depth : Nat) : List Document → Option (List Json)
  | [] => some []
  | item :: rest => do
      let value ← valueWithin depth item
      let values ← itemsWithin depth rest
      return value :: values

def membersWithin (depth : Nat) : List (Raw × Document) → Option Members
  | [] => some []
  | (name, item) :: rest => do
      let name ← name.text?
      let value ← valueWithin depth item
      let values ← membersWithin depth rest
      return (name, value) :: values

end

/-- The value of a document. -/
def value? (d : Document) : Option Json := d.valueWithin depthLimit

end Document
end LocaleKeys.Json
