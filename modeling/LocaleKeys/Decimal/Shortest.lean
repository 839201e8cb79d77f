/-! The shortest decimal of a binary floating-point value. A decimal reads back
as the value when it lies in the interval of reals that round to it. Decimals of
1, 2, ... 17 digits are tried in this order. Of the grid of each length only the
two neighbours of the value need a test, and the nearer one is taken. -/
namespace LocaleKeys.Decimal

/-- A positive binary value `significand * 2 ^ exponent`. -/
structure Binary where
  significand : Nat
  exponent : Int
  /-- The next smaller value is only half a step away. -/
  tightBelow : Bool

/-- A decimal `digits * 10 ^ exponent`. -/
structure Scientific where
  digits : Nat
  exponent : Int
  deriving DecidableEq, Repr

/-- A value with the ends of its interval, all over one denominator. The ends
belong to the interval when they are `closed`. -/
structure Interval where
  low : Nat
  value : Nat
  high : Nat
  denominator : Nat
  closed : Bool

namespace Interval

/-- The reals that round to a binary value, with quarters of its last place as
the unit. A tie goes to the even significand. -/
def ofBinary (b : Binary) : Interval :=
  let shift := b.exponent - 2
  let scale := 1 <<< shift.toNat
  { low := (4 * b.significand - if b.tightBelow then 1 else 2) * scale
    value := 4 * b.significand * scale
    high := (4 * b.significand + 2) * scale
    denominator := 1 <<< (-shift).toNat
    closed := b.significand % 2 = 0 }

/-- Whether the decimal `digits * 10 ^ exponent` lies in the interval. -/
def contains (i : Interval) (d : Scientific) : Bool :=
  let point := d.digits * Nat.pow 10 d.exponent.toNat * i.denominator
  let scale := Nat.pow 10 (-d.exponent).toNat
  if i.closed then i.low * scale ≤ point && point ≤ i.high * scale
  else i.low * scale < point && point < i.high * scale

/-- The grid point at or below the value, in steps of `10 ^ exponent`. -/
def floorOn (i : Interval) (exponent : Int) : Nat :=
  i.value * Nat.pow 10 (-exponent).toNat / (i.denominator * Nat.pow 10 exponent.toNat)

/-- The nearer of the two grid points around the value; a tie goes to the even one. -/
def nearerOn (i : Interval) (exponent : Int) (below : Nat) : Nat :=
  let twice := 2 * i.value * Nat.pow 10 (-exponent).toNat
  let middle := (2 * below + 1) * (i.denominator * Nat.pow 10 exponent.toNat)
  if twice < middle then below
  else if middle < twice then below + 1
  else if below % 2 = 0 then below else below + 1

/-- Number of zeros between the point and the first digit of a value below one. -/
def leadingZeros (denominator : Nat) : Nat → Nat → Nat
  | 0, _ => 0
  | fuel + 1, value =>
      if denominator ≤ value * 10 then 0 else leadingZeros denominator fuel (value * 10) + 1

/-- Number of places before the point when the value is at least one; else minus
the number of zeros behind it. -/
def magnitude (i : Interval) : Int :=
  if i.denominator ≤ i.value then (Nat.toDigits 10 (i.value / i.denominator)).length
  else -(leadingZeros i.denominator 400 i.value : Int)

/-- The first grid with a point in the interval, from coarse to fine. -/
def shortest (i : Interval) : Nat → Int → Scientific
  | 0, exponent => ⟨i.floorOn exponent, exponent⟩
  | more + 1, exponent =>
      let below := i.floorOn exponent
      match i.contains ⟨below, exponent⟩, i.contains ⟨below + 1, exponent⟩ with
      | true, true => ⟨i.nearerOn exponent below, exponent⟩
      | true, false => ⟨below, exponent⟩
      | false, true => ⟨below + 1, exponent⟩
      | false, false => i.shortest more (exponent - 1)

end Interval

namespace Scientific

/-- The same decimal without zeros at its end. -/
def stripped : Nat → Scientific → Scientific
  | 0, d => d
  | fuel + 1, d =>
      if d.digits ≠ 0 ∧ d.digits % 10 = 0 then stripped fuel ⟨d.digits / 10, d.exponent + 1⟩ else d

end Scientific

/-- The decimal with the fewest digits that reads back as the value. -/
def Binary.shortest (b : Binary) : Scientific :=
  let i := Interval.ofBinary b
  (i.shortest 17 (i.magnitude - 1)).stripped 20

end LocaleKeys.Decimal
