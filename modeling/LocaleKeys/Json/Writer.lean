import LocaleKeys.Json.Number

/-! Writing JSON texts, either without blanks or with one line for each item and
two spaces of indentation for each level. A string escapes its quotes, its
backslashes and control characters, and nothing else. -/
namespace LocaleKeys.Json

/-- The digit of a number below sixteen. -/
def hexDigit (n : Nat) : Char := Char.ofNat (if n < 10 then '0'.toNat + n else 'a'.toNat + n - 10)

/-- A character inside a written string. -/
def escape (c : Char) : List Char :=
  if c = '"' then ['\\', '"']
  else if c = '\\' then ['\\', '\\']
  else if c = '\x08' then ['\\', 'b']
  else if c = '\t' then ['\\', 't']
  else if c = '\n' then ['\\', 'n']
  else if c = '\x0c' then ['\\', 'f']
  else if c = '\r' then ['\\', 'r']
  else if c.toNat < 0x20 then
    ['\\', 'u', '0', '0', hexDigit (c.toNat / 16), hexDigit (c.toNat % 16)]
  else [c]

def quoted (text : String) : List Char := '"' :: (text.toList.flatMap escape ++ ['"'])

/-- A container whose items are written without blanks. -/
def enclose (opening closing : Char) (items : List (List Char)) : List Char :=
  opening :: ([','].intercalate items ++ [closing])

/-- The start of a line at a level. -/
def line (level : Nat) : List Char := '\n' :: List.replicate (2 * level) ' '

/-- A container at a level, with its items on lines of their own one level deeper. -/
def encloseLines (opening closing : Char) (level : Nat) : List (List Char) → List Char
  | [] => [opening, closing]
  | items =>
      opening :: (line (level + 1) ++ (',' :: line (level + 1)).intercalate items ++
        line level ++ [closing])

mutual

/-- A value without blanks. -/
def compact : Json → List Char
  | .null => ['n', 'u', 'l', 'l']
  | .bool true => ['t', 'r', 'u', 'e']
  | .bool false => ['f', 'a', 'l', 's', 'e']
  | .number n => n.write
  | .string text => quoted text
  | .array items => enclose '[' ']' (compactItems items)
  | .object members => enclose '\x7b' '\x7d' (compactMembers members)

def compactItems : List Json → List (List Char)
  | [] => []
  | item :: rest => compact item :: compactItems rest

def compactMembers : Members → List (List Char)
  | [] => []
  | (name, value) :: rest => (quoted name ++ ':' :: compact value) :: compactMembers rest

end

mutual

/-- A value at a level of indentation. -/
def pretty (level : Nat) : Json → List Char
  | .null => ['n', 'u', 'l', 'l']
  | .bool true => ['t', 'r', 'u', 'e']
  | .bool false => ['f', 'a', 'l', 's', 'e']
  | .number n => n.write
  | .string text => quoted text
  | .array items => encloseLines '[' ']' level (prettyItems (level + 1) items)
  | .object members => encloseLines '\x7b' '\x7d' level (prettyMembers (level + 1) members)

def prettyItems (level : Nat) : List Json → List (List Char)
  | [] => []
  | item :: rest => pretty level item :: prettyItems level rest

def prettyMembers (level : Nat) : Members → List (List Char)
  | [] => []
  | (name, value) :: rest =>
      (quoted name ++ ':' :: ' ' :: pretty level value) :: prettyMembers level rest

end

/-- The text of a value without blanks. -/
def compactText (value : Json) : String := String.ofList (compact value)

/-- The text of a value over several lines. -/
def prettyText (value : Json) : String := String.ofList (pretty 0 value)

end LocaleKeys.Json
