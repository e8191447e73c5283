import MarkupAnalysis.Json.Basic

/-! # Writing JSON

A value is written over several lines: each item of a list and each field of an object has its own line,
two columns further in than its brackets. Only empty lists and objects stay together.

* **`Json.ofNat`**, **`Json.ofText`**, **`Json.record`**, … — values of other types.
* **`Json.writeString`**, **`Json.writeNumeral`** — strings and numbers.
* **`Json.write`** — any value. -/

namespace MarkupAnalysis.Json

/-! ## Values of other types -/

/-- The decimal digits of a number. -/
def digitsOf (n : Nat) : List Nat := (Nat.toDigits 10 n).map fun c => c.toNat - '0'.toNat

/-- A number. -/
def ofNat (n : Nat) : Json := number { isNegative := false, integer := digitsOf n }

/-- The string of a text. -/
def ofText (t : Text) : Json := string (t.map Char.toNat)

/-- The string of a name. -/
def ofName (name : String) : Json := ofText name.toList

/-- The list of the values of some things. -/
def ofList {α : Type} (value : α → Json) (items : List α) : Json := array (items.map value)

/-- The value of a thing; `null` for none. -/
def ofOption {α : Type} (value : α → Json) (item : Option α) : Json := (item.map value).getD null

/-- The object of named fields. -/
def record (fields : List (String × Json)) : Json :=
  object (fields.map fun (name, value) => (name.toList.map Char.toNat, value))

/-- A field that is left out when there is nothing to write. -/
def optionalField {α : Type} (name : String) (value : α → Json) (item : Option α) :
    List (String × Json) :=
  item.toList.map fun item => (name, value item)

/-! ## Scalars -/

/-- A hexadecimal digit. -/
def hexDigit (n : Nat) : Char := Nat.digitChar (n % 16)

/-- The escape that names a code unit. -/
def writeUnit (unit : Nat) : Text :=
  ['\\', 'u', hexDigit (unit / 4096), hexDigit (unit / 256), hexDigit (unit / 16), hexDigit unit]

/-- A character of a string, escaped where it has to be. -/
def writeChar (unit : Nat) : Text :=
  let c := Char.ofNat unit
  if c = '\x22' || c = '\\' then ['\\', c]
  else if c = '\x08' then ['\\', 'b']
  else if c = '\t' then ['\\', 't']
  else if c = '\n' then ['\\', 'n']
  else if c = '\x0c' then ['\\', 'f']
  else if c = '\r' then ['\\', 'r']
  else if unit < 0x20 || isLeading unit || isTrailing unit then writeUnit unit
  else [c]

/-- A string with its quotes. -/
def writeString (units : List Nat) : Text := '\x22' :: units.flatMap writeChar ++ ['\x22']

/-- Decimal digits. -/
def writeDigits (digits : List Nat) : Text := digits.map Nat.digitChar

/-- A number. -/
def writeNumeral (n : Numeral) : Text :=
  (if n.isNegative then ['-'] else []) ++ writeDigits n.integer
    ++ (if n.fraction.isEmpty then [] else '.' :: writeDigits n.fraction)
    ++ (if n.exponent.isEmpty then []
        else 'e' :: (if n.exponentIsNegative then ['-'] else []) ++ writeDigits n.exponent)

/-! ## Values -/

/-- A line end with the blanks in front of what stands `depth` brackets deep. -/
def newLine (depth : Nat) : Text := '\n' :: List.replicate (2 * depth) ' '

mutual

/-- Writes a value that stands `depth` brackets deep, in front of what follows it. -/
def writeAt (depth : Nat) : Json → (rest : Text) → Text
  | null, rest => "null".toList ++ rest
  | bool value, rest => (if value then "true" else "false").toList ++ rest
  | number numeral, rest => writeNumeral numeral ++ rest
  | string units, rest => writeString units ++ rest
  | array [], rest => '[' :: ']' :: rest
  | array (item :: items), rest =>
    '[' :: (newLine (depth + 1) ++ writeAt (depth + 1) item (writeItems depth items rest))
  | object [], rest => '\x7b' :: '\x7d' :: rest
  | object ((key, value) :: fields), rest =>
    '\x7b' :: (newLine (depth + 1) ++ writeString key ++ ':' :: ' ' ::
      writeAt (depth + 1) value (writeFields depth fields rest))

/-- Writes the further items of a list and its closing bracket. -/
def writeItems (depth : Nat) : List Json → (rest : Text) → Text
  | [], rest => newLine depth ++ ']' :: rest
  | item :: items, rest =>
    ',' :: (newLine (depth + 1) ++ writeAt (depth + 1) item (writeItems depth items rest))

/-- Writes the further fields of an object and its closing brace. -/
def writeFields (depth : Nat) : List (List Nat × Json) → (rest : Text) → Text
  | [], rest => newLine depth ++ '\x7d' :: rest
  | (key, value) :: fields, rest =>
    ',' :: (newLine (depth + 1) ++ writeString key ++ ':' :: ' ' ::
      writeAt (depth + 1) value (writeFields depth fields rest))

end

/-- Writes a value. -/
def write (value : Json) : Text := writeAt 0 value []

end MarkupAnalysis.Json
