import LocaleKeys.Json.Value
import LocaleKeys.Decimal.Shortest

/-! Numbers of JSON texts. A literal is read into an integer when it is plain
and fits in 64 bits, else into a double: its leading digits, as many as fit in
64 bits, are scaled by one power of ten in floating-point arithmetic. A double
is written with the fewest digits that read back. -/
namespace LocaleKeys.Json

/-- A number as it is written. -/
structure Literal where
  negative : Bool
  /-- Digits before the point; at least one. -/
  whole : List Nat
  /-- Digits behind the point, if there is one. -/
  fraction : Option (List Nat)
  /-- Whether the exponent is negative, and its digits. -/
  exponent : Option (Bool × List Nat)
  deriving DecidableEq, Repr

namespace Literal

def ofDigits (digits : List Nat) : Nat := digits.foldl (fun value digit => value * 10 + digit) 0

/-- Digits appended to a number while it stays below `2 ^ 64`, with the digits
that are left. -/
def fitting : Nat → List Nat → Nat × List Nat
  | value, [] => (value, [])
  | value, digit :: rest =>
      if value * 10 + digit < UInt64.size then fitting (value * 10 + digit) rest
      else (value, digit :: rest)

def isPlain (l : Literal) : Bool := l.fraction.isNone && l.exponent.isNone

/-- The value of a plain literal without a sign. -/
def natural? (l : Literal) : Option Nat :=
  if !l.negative && l.isPlain && ofDigits l.whole < UInt64.size then some (ofDigits l.whole) else none

/-- Division by a power of ten that may be too large for a double. -/
def scaleDown (f : Float) (exponent : Nat) : Float :=
  if exponent ≤ 308 then f / Float.ofScientific 1 false exponent
  else if f == 0 then f
  else scaleDown (f / Float.ofScientific 1 false 308) (exponent - 308)
termination_by exponent
decreasing_by omega

/-- A significand scaled by a power of ten; none when the result is too large. -/
def scale (significand : Nat) (exponent : Int) : Option Float :=
  let f := significand.toUInt64.toFloat
  if exponent < 0 then some (scaleDown f exponent.natAbs)
  else if exponent ≤ 308 then
    let scaled := f * Float.ofScientific 1 false exponent.natAbs
    if scaled.isInf then none else some scaled
  else if f == 0 then some f else none

def signed (negative : Bool) (f : Float) : Number := .double (if negative then -f else f).toBits

/-- The number that a literal stands for; none when it is out of range. -/
def number? (l : Literal) : Option Number :=
  let (whole, left) := fitting 0 l.whole
  if l.isPlain && left.isEmpty then
    if !l.negative then some (.integer whole)
    else if whole = 0 ∨ 1 <<< 63 < whole then some (signed true whole.toUInt64.toFloat)
    else some (.integer (-whole))
  else
    let digits := l.fraction.getD []
    let (significand, unread) := fitting whole digits
    let point : Int := (left.length : Int) - ((digits.length - unread.length : Nat) : Int)
    let shift : Int := match l.exponent with
      | none => 0
      | some (true, ds) => -(ofDigits ds : Int)
      | some (false, ds) => ofDigits ds
    (scale significand (point + shift)).map (signed l.negative)

end Literal

namespace Number

/-- The binary value of a double's bits without its sign. -/
def binary (bits : UInt64) : Decimal.Binary :=
  let fraction : Nat := bits.toNat % (1 <<< 52)
  let field : Nat := (bits.toNat >>> 52) % (1 <<< 11)
  if field = 0 then ⟨fraction, -1074, false⟩
  else ⟨(1 <<< 52) + fraction, (field : Int) - 1075, fraction = 0 && field > 1⟩

/-- Decimal notation: positional when the point falls within 16 digits or at
most four zeros follow it, scientific otherwise. -/
def layout (d : Decimal.Scientific) : List Char :=
  let digits := Nat.toDigits 10 d.digits
  let point : Int := digits.length + d.exponent
  if 0 ≤ d.exponent ∧ point ≤ 16 then
    digits ++ List.replicate d.exponent.toNat '0' ++ ['.', '0']
  else if 0 < point ∧ point ≤ 16 then
    digits.take point.toNat ++ '.' :: digits.drop point.toNat
  else if -5 < point ∧ point ≤ 0 then
    '0' :: '.' :: List.replicate (-point).toNat '0' ++ digits
  else
    let power := Nat.toDigits 10 (point - 1).natAbs
    let sign := if point ≤ 0 then '-' else '+'
    digits.take 1 ++ (if digits.length = 1 then [] else '.' :: digits.drop 1) ++ 'e' :: sign :: power

/-- The text of a number. -/
def write : Number → List Char
  | .integer value =>
      (if value < 0 then ['-'] else []) ++ Nat.toDigits 10 value.natAbs
  | .double bits =>
      let sign := if bits ≥ 0x8000000000000000 then ['-'] else []
      let b := binary bits
      sign ++ if b.significand = 0 then ['0', '.', '0'] else layout b.shortest

end Number
end LocaleKeys.Json
