import MarkupAnalysis.Text.Basic

/-! # JSON values

The values of JSON as they are written: numbers keep their digits, and a string keeps the code units that
its escapes name, so that half of a surrogate pair can be told from text.

* **`Numeral`** — a number in decimal digits; `Numeral.toFloat?` is its value in binary64.
* **`Json`** — a value.
* **`Json.textOfUnits?`** — the text of a string; there is none when half a surrogate pair is left over. -/

namespace MarkupAnalysis

/-- A number as it is written. -/
structure Numeral where
  /-- Whether a minus sign leads. -/
  isNegative : Bool
  /-- The digits before the point. -/
  integer : List Nat
  /-- The digits after the point. -/
  fraction : List Nat := []
  /-- Whether the exponent is negative. -/
  exponentIsNegative : Bool := false
  /-- The digits of the exponent. -/
  exponent : List Nat := []
deriving DecidableEq, Repr

/-- A JSON value. -/
inductive Json where
  /-- The value `null`. -/
  | null
  /-- A truth value. -/
  | bool (value : Bool)
  /-- A number. -/
  | number (numeral : Numeral)
  /-- A string by its characters, of which an escape may name half of a surrogate pair. -/
  | string (units : List Nat)
  /-- A list of values. -/
  | array (items : List Json)
  /-- A list of keys and values in the order in which they are written. -/
  | object (fields : List (List Nat × Json))

namespace Json

/-- The first half of a surrogate pair. -/
def isLeading (unit : Nat) : Bool := 0xD800 ≤ unit && unit ≤ 0xDBFF

/-- The second half of a surrogate pair. -/
def isTrailing (unit : Nat) : Bool := 0xDC00 ≤ unit && unit ≤ 0xDFFF

/-- The character of a surrogate pair. -/
def charOfPair (leading trailing : Nat) : Char :=
  Char.ofNat (0x10000 + (leading - 0xD800) * 0x400 + (trailing - 0xDC00))

/-- The text of a string; none when half of a surrogate pair stands alone. -/
def textOfUnits? : List Nat → Option Text
  | [] => some []
  | unit :: units =>
    if isLeading unit then
      match units with
      | trailing :: units =>
        if isTrailing trailing then (textOfUnits? units).map (charOfPair unit trailing :: ·) else none
      | [] => none
    else if isTrailing unit then none
    else (textOfUnits? units).map (Char.ofNat unit :: ·)

/-- The text of a value that is a string. -/
def text? : Json → Option Text
  | string units => textOfUnits? units
  | _ => none

/-- The truth value of a value that is one. -/
def bool? : Json → Option Bool
  | bool value => some value
  | _ => none

/-- The items of a value that is a list, each read by `item?`. -/
def list? {α : Type} (item? : Json → Option α) : Json → Option (List α)
  | array items => items.mapM item?
  | _ => none

/-- A value, or `null` for none. -/
def nullable? {α : Type} (value? : Json → Option α) : Json → Option (Option α)
  | null => some none
  | value => (value? value).map some

/-- The values of the named fields of a record. A record is an object, whose other keys do not matter
and of whose named keys none may be repeated, or a list of its first fields in order. -/
def record? (names : List Text) : Json → Option (List (Option Json))
  | object fields => do
    let keys ← fields.mapM fun (key, _) => textOfUnits? key
    let fields := keys.zip (fields.map Prod.snd)
    if names.all fun name => keys.count name ≤ 1 then some (names.map (fields.lookup ·)) else none
  | array items =>
    if items.length ≤ names.length then
      some (items.map some ++ List.replicate (names.length - items.length) none)
    else none
  | _ => none

end Json

end MarkupAnalysis
