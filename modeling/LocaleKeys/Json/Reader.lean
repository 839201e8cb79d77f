import LocaleKeys.Json.Document

/-! Reading JSON texts. A text is one document between blanks and nothing else.
The grammar is strict: no comment, no trailing comma, no raw control character
in a string, no leading zero. Every step takes at least one character, so the
length of the text bounds the steps. -/
namespace LocaleKeys.Json.Reader

def isBlank (c : Char) : Bool := c = ' ' || c = '\n' || c = '\t' || c = '\r'

def skipBlanks (input : List Char) : List Char := input.dropWhile isBlank

def digit? (c : Char) : Option Nat :=
  if c.isDigit then some (c.toNat - '0'.toNat) else none

/-- The leading digits and what follows them. -/
def digits : List Char → List Nat × List Char
  | [] => ([], [])
  | c :: rest =>
      match digit? c with
      | some d =>
          let (ds, left) := digits rest
          (d :: ds, left)
      | none => ([], c :: rest)

/-- At least one digit. -/
def someDigits (input : List Char) : Option (List Nat × List Char) :=
  match digits input with
  | ([], _) => none
  | found => some found

def hexDigit? (c : Char) : Option Nat :=
  if c.isDigit then some (c.toNat - '0'.toNat)
  else if 'a' ≤ c ∧ c ≤ 'f' then some (c.toNat - 'a'.toNat + 10)
  else if 'A' ≤ c ∧ c ≤ 'F' then some (c.toNat - 'A'.toNat + 10)
  else none

def unit? (a b c d : Char) : Option Nat := do
  return (((← hexDigit? a) * 16 + (← hexDigit? b)) * 16 + (← hexDigit? c)) * 16 + (← hexDigit? d)

/-- The character behind a backslash, other than a code unit. -/
def escaped? : Char → Option Char
  | '"' => some '"'
  | '\\' => some '\\'
  | '/' => some '/'
  | 'b' => some '\x08'
  | 'f' => some '\x0c'
  | 'n' => some '\n'
  | 'r' => some '\r'
  | 't' => some '\t'
  | _ => none

/-- A string behind its opening quote. -/
def string : List Char → Option (Raw × List Char)
  | [] => none
  | '"' :: rest => some ([], rest)
  | '\\' :: 'u' :: a :: b :: c :: d :: rest => do
      let unit ← unit? a b c d
      let (raw, left) ← string rest
      return (.unit unit :: raw, left)
  | '\\' :: c :: rest => do
      let c ← escaped? c
      let (raw, left) ← string rest
      return (.char c :: raw, left)
  | c :: rest =>
      if c.toNat < 0x20 then none
      else do
        let (raw, left) ← string rest
        return (.char c :: raw, left)

/-- The part of a number behind its whole digits, if it has one. -/
def fraction : List Char → Option (Option (List Nat) × List Char)
  | '.' :: rest => do
      let (ds, left) ← someDigits rest
      return (some ds, left)
  | input => some (none, input)

/-- The exponent of a number, if it has one. -/
def exponent : List Char → Option (Option (Bool × List Nat) × List Char)
  | c :: rest =>
      if c = 'e' ∨ c = 'E' then
        match rest with
        | '-' :: rest => do
            let (ds, left) ← someDigits rest
            return (some (true, ds), left)
        | '+' :: rest => do
            let (ds, left) ← someDigits rest
            return (some (false, ds), left)
        | rest => do
            let (ds, left) ← someDigits rest
            return (some (false, ds), left)
      else some (none, c :: rest)
  | [] => some (none, [])

/-- A number behind its sign. -/
def unsigned (negative : Bool) (input : List Char) : Option (Literal × List Char) := do
  let (whole, input) ← someDigits input
  if whole.head? = some 0 ∧ 1 < whole.length then none
  else
    let (fraction, input) ← fraction input
    let (exponent, input) ← exponent input
    return (⟨negative, whole, fraction, exponent⟩, input)

def number : List Char → Option (Literal × List Char)
  | '-' :: rest => unsigned true rest
  | input => unsigned false input

mutual

/-- A document, with any blanks before it. -/
def document : Nat → List Char → Option (Document × List Char)
  | 0, _ => none
  | fuel + 1, input =>
      match skipBlanks input with
      | '\x7b' :: rest =>
          match skipBlanks rest with
          | '\x7d' :: left => some (.object [], left)
          | rest => do
              let (ms, left) ← members fuel rest
              return (.object ms, left)
      | '[' :: rest =>
          match skipBlanks rest with
          | ']' :: left => some (.array [], left)
          | rest => do
              let (ds, left) ← items fuel rest
              return (.array ds, left)
      | '"' :: rest => do
          let (raw, left) ← string rest
          return (.string raw, left)
      | 'n' :: 'u' :: 'l' :: 'l' :: left => some (.null, left)
      | 't' :: 'r' :: 'u' :: 'e' :: left => some (.bool true, left)
      | 'f' :: 'a' :: 'l' :: 's' :: 'e' :: left => some (.bool false, left)
      | rest => do
          let (literal, left) ← number rest
          return (.number literal, left)

/-- The items of an array up to its closing bracket; at least one. -/
def items : Nat → List Char → Option (List Document × List Char)
  | 0, _ => none
  | fuel + 1, input => do
      let (item, rest) ← document fuel input
      match skipBlanks rest with
      | ',' :: rest =>
          let (more, left) ← items fuel rest
          return (item :: more, left)
      | ']' :: left => return ([item], left)
      | _ => none

/-- The members of an object up to its closing brace; at least one. -/
def members : Nat → List Char → Option (List (Raw × Document) × List Char)
  | 0, _ => none
  | fuel + 1, input =>
      match skipBlanks input with
      | '"' :: rest => do
          let (name, rest) ← string rest
          match skipBlanks rest with
          | ':' :: rest =>
              let (item, rest) ← document fuel rest
              match skipBlanks rest with
              | ',' :: rest =>
                  let (more, left) ← members fuel rest
                  return ((name, item) :: more, left)
              | '\x7d' :: left => return ([(name, item)], left)
              | _ => none
          | _ => none
      | _ => none

end

end Reader

/-- The document that a text holds. -/
def Document.ofText? (text : String) : Option Document :=
  match Reader.document (text.length + 1) text.toList with
  | some (d, left) => if Reader.skipBlanks left = [] then some d else none
  | none => none

/-- The value that a text holds. -/
def ofText? (text : String) : Option Json := (Document.ofText? text).bind Document.value?

end LocaleKeys.Json
