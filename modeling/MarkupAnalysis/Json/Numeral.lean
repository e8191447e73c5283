import MarkupAnalysis.Json.Basic

/-! # The binary64 value of a numeral

The value is computed from as many leading digits as fit into 64 bits, scaled by one power of ten. It is
therefore not always the nearest binary64 number, but it is the same on every machine.

* **`Numeral.significand`** — the leading digits and the power of ten that they are counted in.
* **`Numeral.toFloat?`** — the value; none when it is too large. -/

namespace MarkupAnalysis.Numeral

/-- The number after `lead` that the digits spell as far as it stays below `2 ^ 64`, and the digits left
over. -/
def spell (lead : Nat) : List Nat → Nat × List Nat
  | [] => (lead, [])
  | digit :: digits =>
    if lead * 10 + digit < Nat.pow 2 64 then spell (lead * 10 + digit) digits else (lead, digit :: digits)

/-- The number that all the digits spell. -/
def spellAll (digits : List Nat) : Nat := digits.foldl (fun number digit => number * 10 + digit) 0

/-- The leading digits as a number below `2 ^ 64`, and the power of ten that it is counted in. Digits
before the point that do not fit raise the power, those after the point are dropped. -/
def significand (n : Numeral) : Nat × Int :=
  let (whole, excess) := spell 0 n.integer
  let (number, dropped) := spell whole n.fraction
  (number, (excess.length : Int) - ((n.fraction.length - dropped.length : Nat) : Int))

/-- The power of ten, nearest in binary64. -/
def powerOfTen (places : Nat) : Float := Float.ofScientific 1 false places

/-- Divides by a power of ten, in steps of at most `10 ^ 308`. -/
def divideByPower (value : Float) (places : Nat) : Float :=
  if places ≤ 308 then value / powerOfTen places
  else if value == 0 then value
  else divideByPower (value / powerOfTen 308) (places - 308)
termination_by places

/-- Multiplies by a power of ten; none when the result is too large. -/
def scale? (value : Float) : Int → Option Float
  | .ofNat places =>
    if places ≤ 308 then
      let product := value * powerOfTen places
      if product.isInf then none else some product
    else if value == 0 then some value
    else none
  | .negSucc less => some (divideByPower value (less + 1))

/-- The largest exponent that is taken at its word. -/
def largestExponent : Nat := Nat.pow 2 31 - 1

/-- The value without its sign. -/
def magnitude? (n : Numeral) : Option Float :=
  let (number, power) := n.significand
  let exponent := spellAll n.exponent
  let value := number.toUInt64.toFloat
  if exponent ≤ largestExponent then
    scale? value (if n.exponentIsNegative then power - exponent else power + exponent)
  else if number != 0 && !n.exponentIsNegative then none
  else some 0

/-- The value in binary64; none when it is too large. -/
def toFloat? (n : Numeral) : Option Float :=
  n.magnitude?.map fun value => if n.isNegative then -value else value

end MarkupAnalysis.Numeral
