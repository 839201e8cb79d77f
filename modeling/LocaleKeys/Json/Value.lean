/-! JSON values. Members of an object keep the order in which their names came
first. Numbers are integers of 64 bits, signed or unsigned, or doubles. -/
namespace LocaleKeys

/-- A number. A double is kept by its bits, so two zeros of different sign are
different values. -/
inductive Json.Number
  | integer (value : Int)
  | double (bits : UInt64)
  deriving DecidableEq, Repr

inductive Json
  | null
  | bool (value : Bool)
  | number (value : Json.Number)
  | string (text : String)
  | array (items : List Json)
  | object (members : List (String × Json))

namespace Json

/-- The members of an object, in order. -/
abbrev Members := List (String × Json)

/-- A member is given a value: in its place when the name is there, else behind
all others. -/
def Members.put (name : String) (value : Json) : Members → Members
  | [] => [(name, value)]
  | (other, old) :: rest =>
      if other = name then (other, value) :: rest else (other, old) :: put name value rest

/-- The members written in a row: a repeated name keeps its first place and its
last value. -/
def Members.ofList (written : Members) : Members :=
  written.foldl (fun members entry => Members.put entry.1 entry.2 members) []

/-- The text of a string value. -/
def text? : Json → Option String
  | .string text => some text
  | _ => none

def isObject : Json → Bool
  | .object _ => true
  | _ => false

end Json
end LocaleKeys
