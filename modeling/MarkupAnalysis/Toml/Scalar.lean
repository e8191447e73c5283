import MarkupAnalysis.Text.Basic

/-! # TOML scalars

Readers for what TOML writes without brackets: strings of four kinds, whole numbers in four bases, numbers
with a point or an exponent, dates and times. Each takes what it reads off the front of a text and
answers the rest.

* **`Toml.readString`** — a string of any kind; `Toml.readQuoted` — one that stays on its line.
* **`Toml.readInteger`**, **`Toml.readFloat`**, **`Toml.readDateTime`** — numbers, dates and times. -/

namespace MarkupAnalysis.Toml

open Text

/-! ## Characters -/

/-- Space and tab. -/
def isTomlBlank (c : Char) : Bool := c = ' ' || c = '\t'

/-- Whether the character may stand unescaped in comments, and in strings unless it ends them. -/
def isPlain (c : Char) : Bool := c = '\t' || (' ' ≤ c && c ≠ '\x7f')

/-- The text behind a line end. -/
def lineEnd? : Text → Option Text
  | '\n' :: rest => some rest
  | '\r' :: '\n' :: rest => some rest
  | _ => none

/-- The text from its first character that is neither blank nor a line end. -/
def skipBlankLines : Text → Text
  | '\r' :: '\n' :: rest => skipBlankLines rest
  | c :: rest => if isTomlBlank c || c = '\n' then skipBlankLines rest else c :: rest
  | [] => []

/-- The value of a hexadecimal digit. -/
def hexValue? (c : Char) : Option Nat :=
  if '0' ≤ c && c ≤ '9' then some (c.toNat - '0'.toNat)
  else if 'a' ≤ c && c ≤ 'f' then some (c.toNat - 'a'.toNat + 10)
  else if 'A' ≤ c && c ≤ 'F' then some (c.toNat - 'A'.toNat + 10)
  else none

/-! ## Escapes -/

/-- The number that hexadecimal digits spell. -/
def hexNumber? (digits : Text) : Option Nat :=
  digits.foldlM (fun number digit => (hexValue? digit).map (number * 16 + ·)) 0

/-- The character of a code point that is one. -/
def scalar? (n : Nat) : Option Char :=
  if h : n.isValidChar then some (Char.ofNatAux n h) else none

/-- The character of an escape with a number of hexadecimal digits, and the text behind it. -/
def readCodePoint (digits : Nat) (t : Text) : Option (Char × Text) :=
  let number := t.take digits
  if number.length < digits then none
  else ((hexNumber? number).bind scalar?).map (·, t.drop digits)

/-- The character of an escape, from behind the backslash, and the text behind it. -/
def readEscape : Text → Option (Char × Text)
  | 'b' :: rest => some ('\x08', rest)
  | 't' :: rest => some ('\t', rest)
  | 'n' :: rest => some ('\n', rest)
  | 'f' :: rest => some ('\x0c', rest)
  | 'r' :: rest => some ('\r', rest)
  | '\x22' :: rest => some ('\x22', rest)
  | '\\' :: rest => some ('\\', rest)
  | 'u' :: rest => readCodePoint 4 rest
  | 'U' :: rest => readCodePoint 8 rest
  | _ => none

/-! ## Strings on one line -/

/-- Reads a string up to the double quote. The bound is the length of the text. -/
def readBasic : (bound : Nat) → Text → Option (Text × Text)
  | 0, _ => none
  | _ + 1, [] => none
  | _ + 1, '\x22' :: rest => some ([], rest)
  | bound + 1, '\\' :: rest => do
    let (c, rest) ← readEscape rest
    let (t, rest) ← readBasic bound rest
    pure (c :: t, rest)
  | bound + 1, c :: rest =>
    if isPlain c then (readBasic bound rest).map fun (t, rest) => (c :: t, rest) else none

/-- Reads a string without escapes up to the single quote. -/
def readLiteral (t : Text) : Option (Text × Text) :=
  match t.dropWhile fun c => isPlain c && c ≠ '\'' with
  | '\'' :: rest => some (t.takeWhile fun c => isPlain c && c ≠ '\'', rest)
  | _ => none

/-- Reads a string that stays on its line. -/
def readQuoted : Text → Option (Text × Text)
  | '\x22' :: rest => readBasic (rest.length + 1) rest
  | '\'' :: rest => readLiteral rest
  | _ => none

/-! ## Strings over several lines -/

/-- The quotes that a run of at least three ends a string with: the last three delimit it, and up to two
before them belong to it. -/
def endOfRun? (quote : Char) (t : Text) : Option (Text × Text) :=
  let run := lengthWhile (· = quote) t
  -- what is left of a run of more than five stands behind the string
  if run < 3 then none else some (t.take (min (run - 3) 2), t.drop (min run 5))

/-- Reads a string up to three double quotes. A backslash at the end of a line takes the blanks and line
ends behind it with it. The bound is the length of the text. -/
def readBasicLines : (bound : Nat) → Text → Option (Text × Text)
  | 0, _ => none
  | _ + 1, [] => none
  | bound + 1, '\x22' :: rest =>
    match endOfRun? '\x22' ('\x22' :: rest) with
    | some read => some read
    | none => (readBasicLines bound rest).map fun (t, rest) => ('\x22' :: t, rest)
  | bound + 1, '\\' :: rest =>
    match lineEnd? (rest.dropWhile isTomlBlank) with
    | some rest => readBasicLines bound (skipBlankLines rest)
    | none => do
      let (c, rest) ← readEscape rest
      let (t, rest) ← readBasicLines bound rest
      pure (c :: t, rest)
  | bound + 1, c :: rest =>
    match lineEnd? (c :: rest) with
    | some rest => (readBasicLines bound rest).map fun (t, rest) => ('\n' :: t, rest)
    | none =>
      if isPlain c then (readBasicLines bound rest).map fun (t, rest) => (c :: t, rest) else none

/-- Reads a string without escapes up to three single quotes. The bound is the length of the text. -/
def readLiteralLines : (bound : Nat) → Text → Option (Text × Text)
  | 0, _ => none
  | _ + 1, [] => none
  | bound + 1, '\'' :: rest =>
    match endOfRun? '\'' ('\'' :: rest) with
    | some read => some read
    | none => (readLiteralLines bound rest).map fun (t, rest) => ('\'' :: t, rest)
  | bound + 1, c :: rest =>
    match lineEnd? (c :: rest) with
    | some rest => (readLiteralLines bound rest).map fun (t, rest) => ('\n' :: t, rest)
    | none =>
      if isPlain c then (readLiteralLines bound rest).map fun (t, rest) => (c :: t, rest) else none

/-- The text without the line end that it may start with. -/
def skipLineEnd (t : Text) : Text := (lineEnd? t).getD t

/-- Reads a string of any kind. -/
def readString : Text → Option (Text × Text)
  | '\x22' :: '\x22' :: '\x22' :: rest => readBasicLines (rest.length + 1) (skipLineEnd rest)
  | '\'' :: '\'' :: '\'' :: rest => readLiteralLines (rest.length + 1) (skipLineEnd rest)
  | t => readQuoted t

/-! ## Digits -/

/-- Reads the rest of a run of digits, in which single underscores may separate digits. -/
def readMoreDigits (isDigit : Char → Bool) : Text → Text × Text
  | '_' :: c :: rest =>
    if isDigit c then
      let (digits, rest) := readMoreDigits isDigit rest
      (c :: digits, rest)
    else ([], '_' :: c :: rest)
  | c :: rest =>
    if isDigit c then
      let (digits, rest) := readMoreDigits isDigit rest
      (c :: digits, rest)
    else ([], c :: rest)
  | [] => ([], [])

/-- Reads a run of digits; the first character must be one. -/
def readDigitRun (isDigit : Char → Bool) : Text → Option (Text × Text)
  | c :: rest =>
    if isDigit c then
      let (digits, rest) := readMoreDigits isDigit rest
      some (c :: digits, rest)
    else none
  | [] => none

/-- Reads a sign, if there is one: whether it is a minus. -/
def readSign : Text → Bool × Text
  | '-' :: rest => (true, rest)
  | '+' :: rest => (false, rest)
  | t => (false, t)

/-- Reads a decimal number without leading zeros. -/
def readDecimal : Text → Option (Text × Text)
  | '0' :: rest => some (['0'], rest)
  | t => readDigitRun Char.isDigit t

/-! ## Whole numbers -/

/-- The number that digits spell in a base. -/
def spelled (base : Nat) (digits : Text) : Nat :=
  digits.foldl (fun number digit => number * base + (hexValue? digit).getD 0) 0

/-- A number that fits into 64 bits with its sign. -/
def fitting? (isNegative : Bool) (n : Nat) : Option Int :=
  if isNegative then if n ≤ Nat.pow 2 63 then some (-(n : Int)) else none
  else if n < Nat.pow 2 63 then some n else none

/-- Reads digits of a base. -/
def readInBase (base : Nat) (isDigit : Char → Bool) (t : Text) : Option (Int × Text) := do
  let (digits, rest) ← readDigitRun isDigit t
  pure (← fitting? false (spelled base digits), rest)

/-- Reads a whole number. -/
def readInteger : Text → Option (Int × Text)
  | '0' :: 'x' :: t => readInBase 16 (fun c => (hexValue? c).isSome) t
  | '0' :: 'o' :: t => readInBase 8 (fun c => '0' ≤ c && c ≤ '7') t
  | '0' :: 'b' :: t => readInBase 2 (fun c => c = '0' || c = '1') t
  | t => do
    let (isNegative, t) := readSign t
    let (digits, rest) ← readDecimal t
    pure (← fitting? isNegative (spelled 10 digits), rest)

/-! ## Numbers with a point or an exponent -/

/-- Reads a point with the digits behind it, if there is one. -/
def readPoint : Text → Option (Text × Text)
  | '.' :: t => readDigitRun Char.isDigit t
  | t => some ([], t)

/-- The power of ten that digits spell. Once it has reached `2 ^ 16`, further digits are ignored. -/
def spelledPower (digits : Text) : Nat :=
  digits.foldl
    (fun power digit => if power < Nat.pow 2 16 then power * 10 + (hexValue? digit).getD 0 else power) 0

/-- Reads an exponent, if there is one. -/
def readPower : Text → Option (Option Int × Text)
  | [] => some (none, [])
  | c :: t =>
    if c = 'e' || c = 'E' then do
      let (isNegative, t) := readSign t
      let (digits, rest) ← readDigitRun Char.isDigit t
      let power : Int := spelledPower digits
      pure (some (if isNegative then -power else power), rest)
    else some (none, c :: t)

/-- The least number that is nearer to infinity than to any binary64 number. -/
def overflow : Nat := Nat.pow 2 1024 - Nat.pow 2 970

/-- Whether the number that digits spell, times a power of ten, is too large for binary64. Without leading
zeros the digits tell its size up to a factor of ten; the number itself is computed only where that does
not decide. -/
def overflows (digits : Text) (power : Int) : Bool :=
  let digits := digits.dropWhile (· = '0')
  let places := digits.length + power
  -- the number is below `10 ^ places` and not below a tenth of it; the border is a number of 309 places
  if digits.isEmpty || places < 309 then false
  else if 309 < places then true
  else if 0 ≤ power then overflow ≤ spelled 10 digits * Nat.pow 10 power.toNat
  else overflow * Nat.pow 10 (-power).toNat ≤ spelled 10 digits

/-- A leading zero does not make a number larger. -/
theorem overflows_cons_zero (digits : Text) (power : Int) :
    overflows ('0' :: digits) power = overflows digits power := by
  simp [overflows]

/-- Reads a number with a point, an exponent or both. A positive one must not be too large. -/
def readPlainFloat (t : Text) : Option Text := do
  let (isNegative, t) := readSign t
  let (whole, t) ← readDecimal t
  let (fraction, rest) ← readPoint t
  let (power, rest) ← readPower rest
  let tooLarge := overflows (whole ++ fraction) (power.getD 0 - fraction.length)
  if (fraction.isEmpty && power.isNone) || (!isNegative && tooLarge) then none else some rest

/-- Reads `inf` or `nan` with a sign. -/
def readSpecialFloat (t : Text) : Option Text :=
  let (_, t) := readSign t
  (after? "inf".toList t).or (after? "nan".toList t)

/-- Reads a number with a point or an exponent, or a special one. -/
def readFloat (t : Text) : Option (Text × Text) :=
  ((readPlainFloat t).or (readSpecialFloat t)).map fun rest =>
    (t.take (t.length - rest.length), rest)

/-! ## Dates and times -/

/-- Reads a number of exactly so many digits that lies between two bounds. -/
def readField (digits low high : Nat) (t : Text) : Option (Nat × Text) :=
  let field := t.take digits
  let number := spelled 10 field
  if field.length = digits && field.all Char.isDigit && low ≤ number && number ≤ high then
    some (number, t.drop digits)
  else none

/-- The number of days of a month. -/
def daysOf (year month : Nat) : Nat :=
  let isLeap := year % 4 = 0 && (year % 100 ≠ 0 || year % 400 = 0)
  if month = 2 then if isLeap then 29 else 28
  else if month = 4 || month = 6 || month = 9 || month = 11 then 30
  else 31

/-- Reads a date. -/
def readDate (t : Text) : Option Text := do
  let (year, t) ← readField 4 0 9999 t
  let t ← after? ['-'] t
  let (month, t) ← readField 2 1 12 t
  let t ← after? ['-'] t
  let (_, t) ← readField 2 1 (daysOf year month) t
  pure t

/-- Reads a part of a second, if there is one. -/
def readSecondPart : Text → Option Text
  | '.' :: t =>
    let rest := t.dropWhile Char.isDigit
    if rest.length < t.length then some rest else none
  | t => some t

/-- Reads a time. -/
def readTime (t : Text) : Option Text := do
  let (_, t) ← readField 2 0 23 t
  let t ← after? [':'] t
  let (_, t) ← readField 2 0 59 t
  let t ← after? [':'] t
  let (_, t) ← readField 2 0 60 t
  readSecondPart t

/-- Reads the offset from universal time, if there is one. -/
def readOffset : Text → Option Text
  | [] => some []
  | c :: t =>
    if c = 'Z' || c = 'z' then some t
    else if c = '+' || c = '-' then do
      let (_, t) ← readField 2 0 23 t
      let t ← after? [':'] t
      let (_, t) ← readField 2 0 59 t
      pure t
    else some (c :: t)

/-- Reads the time that may follow a date. -/
def readTimeOfDay (t : Text) : Option Text :=
  match t with
  | [] => none
  | c :: rest =>
    if c = 'T' || c = 't' || c = ' ' then (readTime rest).bind readOffset else none

/-- Reads a date, a time or both. -/
def readDateTime (t : Text) : Option (Text × Text) :=
  let rest? := match readDate t with
    | some rest => some ((readTimeOfDay rest).getD rest)
    | none => readTime t
  rest?.map fun rest => (t.take (t.length - rest.length), rest)

end MarkupAnalysis.Toml
