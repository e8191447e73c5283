import MarkupAnalysis.Json.Basic

/-! # Reading JSON

The grammar of JSON without extensions: one value with blanks around it, and nothing else. Each reader
takes what it reads off the front of a text and answers the rest.

* **`Json.readString`**, **`Json.readNumber`** — strings and numbers.
* **`Json.readValue`** — any value.
* **`Json.read?`** — a whole text. -/

namespace MarkupAnalysis.Json

open Text

/-- Space, tab, line feed and carriage return. -/
def isJsonBlank (c : Char) : Bool := c = ' ' || c = '\t' || c = '\n' || c = '\r'

/-- The text from its first character that is not blank. -/
def skipBlanks (t : Text) : Text := t.dropWhile isJsonBlank

/-! ## Strings -/

/-- The value of a hexadecimal digit. -/
def hexDigit? (c : Char) : Option Nat :=
  if '0' ≤ c && c ≤ '9' then some (c.toNat - '0'.toNat)
  else if 'a' ≤ c && c ≤ 'f' then some (c.toNat - 'a'.toNat + 10)
  else if 'A' ≤ c && c ≤ 'F' then some (c.toNat - 'A'.toNat + 10)
  else none

/-- The number of four hexadecimal digits. -/
def hexUnit? (a b c d : Char) : Option Nat := do
  let a ← hexDigit? a
  let b ← hexDigit? b
  let c ← hexDigit? c
  let d ← hexDigit? d
  pure (((a * 16 + b) * 16 + c) * 16 + d)

/-- The character that a one-letter escape stands for. -/
def escaped? : Char → Option Char
  | '\x22' => some '\x22'
  | '\\' => some '\\'
  | '/' => some '/'
  | 'b' => some '\x08'
  | 'f' => some '\x0c'
  | 'n' => some '\n'
  | 'r' => some '\r'
  | 't' => some '\t'
  | _ => none

/-- Reads a string from behind its opening quote. Control characters must be escaped. -/
def readString : Text → Option (List Nat × Text)
  | [] => none
  | '\x22' :: rest => some ([], rest)
  | '\\' :: 'u' :: a :: b :: c :: d :: rest => do
    let unit ← hexUnit? a b c d
    let (units, rest) ← readString rest
    pure (unit :: units, rest)
  | '\\' :: letter :: rest => do
    let char ← escaped? letter
    let (units, rest) ← readString rest
    pure (char.toNat :: units, rest)
  | char :: rest =>
    if char < ' ' || char = '\\' then none
    else do
      let (units, rest) ← readString rest
      pure (char.toNat :: units, rest)

/-! ## Numbers -/

/-- The leading decimal digits of a text and the rest. -/
def readDigits (t : Text) : List Nat × Text :=
  ((t.takeWhile Char.isDigit).map fun c => c.toNat - '0'.toNat, t.dropWhile Char.isDigit)

/-- Reads the digits before the point; a leading zero stands alone. -/
def readInteger (t : Text) : Option (List Nat × Text) :=
  match readDigits t with
  | ([], _) => none
  | (0 :: _ :: _, _) => none
  | read => some read

/-- Reads a point with the digits after it, if there is one. -/
def readFraction : Text → Option (List Nat × Text)
  | '.' :: t =>
    match readDigits t with
    | ([], _) => none
    | read => some read
  | t => some ([], t)

/-- Reads the digits of an exponent from behind its sign. -/
def readExponentDigits (isNegative : Bool) (t : Text) : Option ((Bool × List Nat) × Text) :=
  match readDigits t with
  | ([], _) => none
  | (digits, rest) => some ((isNegative, digits), rest)

/-- Reads an exponent, if there is one. -/
def readExponent : Text → Option ((Bool × List Nat) × Text)
  | [] => some ((false, []), [])
  | c :: t =>
    if c = 'e' || c = 'E' then
      match t with
      | '-' :: t => readExponentDigits true t
      | '+' :: t => readExponentDigits false t
      | t => readExponentDigits false t
    else some ((false, []), c :: t)

/-- Reads the digits of a number from behind its sign. -/
def readMagnitude (isNegative : Bool) (t : Text) : Option (Numeral × Text) := do
  let (integer, rest) ← readInteger t
  let (fraction, rest) ← readFraction rest
  let ((exponentIsNegative, exponent), rest) ← readExponent rest
  pure ({ isNegative, integer, fraction, exponentIsNegative, exponent }, rest)

/-- Reads a number. -/
def readNumber : Text → Option (Numeral × Text)
  | '-' :: t => readMagnitude true t
  | t => readMagnitude false t

/-! ## Values -/

/-- Reads a literal word that stands for a value. -/
def readWord (word : String) (value : Json) (t : Text) : Option (Json × Text) :=
  (after? word.toList t).map fun rest => (value, rest)

mutual

/-- Reads a value, blanks before it included. A step of the bound is spent on each value and each comma,
of which a text has no more than characters. -/
def readValue : (bound : Nat) → Text → Option (Json × Text)
  | 0, _ => none
  | bound + 1, t =>
    match skipBlanks t with
    | '{' :: t =>
      match skipBlanks t with
      | '}' :: rest => some (object [], rest)
      | t => (readFields bound t).map fun (fields, rest) => (object fields, rest)
    | '[' :: t =>
      match skipBlanks t with
      | ']' :: rest => some (array [], rest)
      | t => (readItems bound t).map fun (items, rest) => (array items, rest)
    | '\x22' :: t => (readString t).map fun (units, rest) => (string units, rest)
    | 'n' :: t => readWord "null" null ('n' :: t)
    | 't' :: t => readWord "true" (bool true) ('t' :: t)
    | 'f' :: t => readWord "false" (bool false) ('f' :: t)
    | t => (readNumber t).map fun (numeral, rest) => (number numeral, rest)

/-- Reads the items of a list up to its closing bracket. -/
def readItems : (bound : Nat) → Text → Option (List Json × Text)
  | 0, _ => none
  | bound + 1, t => do
    let (item, rest) ← readValue bound t
    match skipBlanks rest with
    | ',' :: rest => (readItems bound rest).map fun (items, rest) => (item :: items, rest)
    | ']' :: rest => some ([item], rest)
    | _ => none

/-- Reads the keys and values of an object up to its closing brace. -/
def readFields : (bound : Nat) → Text → Option (List (List Nat × Json) × Text)
  | 0, _ => none
  | bound + 1, t =>
    match skipBlanks t with
    | '\x22' :: t => do
      let (key, rest) ← readString t
      match skipBlanks rest with
      | ':' :: rest =>
        let (value, rest) ← readValue bound rest
        match skipBlanks rest with
        | ',' :: rest =>
          (readFields bound rest).map fun (fields, rest) => ((key, value) :: fields, rest)
        | '}' :: rest => some ([(key, value)], rest)
        | _ => none
      | _ => none
    | _ => none

end

/-- Reads a text that is one value with blanks around it. -/
def read? (t : Text) : Option Json := do
  let (value, rest) ← readValue (t.length + 1) t
  if (skipBlanks rest).isEmpty then some value else none

end MarkupAnalysis.Json
