import MarkupAnalysis.Toml.Basic
import MarkupAnalysis.Toml.Scalar

/-! # Reading TOML keys and values

Readers for dotted keys, arrays and inline tables. Each takes what it reads off the front of a text and
answers the rest. Two limits keep documents shallow: on the parts of a dotted key and on the brackets
around a value. They also bound the recursion.

* **`Toml.readKey`** — a dotted key.
* **`Toml.readValue`** — any value. -/

namespace MarkupAnalysis.Toml

open Text

/-- The text from its first character that is no blank. -/
def skipTomlBlanks (t : Text) : Text := t.dropWhile isTomlBlank

/-- The text behind the blanks, line ends and comments that it starts with. -/
def skipFiller (inComment : Bool) : Text → Text
  | [] => []
  | '\r' :: '\n' :: rest => skipFiller false rest
  | c :: rest =>
    if inComment && isPlain c then skipFiller true rest
    else if isTomlBlank c || c = '\n' then skipFiller false rest
    else if c = '#' then skipFiller true rest
    else c :: rest

/-! ## Keys -/

/-- The greatest number of parts of a dotted key. -/
def keyLimit : Nat := 79

/-- Whether the character may stand in a key without quotes. -/
def isKeyChar (c : Char) : Bool := c.isAlphanum || c = '-' || c = '_'

/-- Reads a key without dots. -/
def readSimpleKey (t : Text) : Option (Text × Text) :=
  match t.span isKeyChar with
  | ([], _) => readQuoted t
  | read => some read

/-- Reads a dotted key of at most `parts` parts with the blanks around them: the keys on the way, the
last key, and the rest. -/
def readKey : (parts : Nat) → Text → Option (List Text × Text × Text)
  | 0, _ => none
  | parts + 1, t => do
    let (key, rest) ← readSimpleKey (skipTomlBlanks t)
    match skipTomlBlanks rest with
    | '.' :: rest =>
      let (path, last, rest) ← readKey parts rest
      pure (key :: path, last, rest)
    | rest => pure ([], key, rest)

/-- Reads a dotted key, an equals sign, and the value that `value` reads. -/
def readPair (value : Text → Option (Toml × Text)) (t : Text) :
    Option ((List Text × Text × Toml) × Text) := do
  let (path, key, rest) ← readKey keyLimit t
  let rest ← after? ['='] rest
  let (value, rest) ← value (skipTomlBlanks rest)
  pure ((path, key, value), skipTomlBlanks rest)

/-! ## Values -/

/-- The greatest number of brackets around a value. -/
def depthLimit : Nat := 79

/-- Reads the items of an array up to its closing bracket. A comma may follow the last one. -/
def readItems (value : Text → Option (Toml × Text)) :
    (bound : Nat) → Text → Option (List Toml × Text)
  | 0, _ => none
  | bound + 1, t =>
    match skipFiller false t with
    | ']' :: rest => some ([], rest)
    | t => do
      let (item, rest) ← value t
      match skipFiller false rest with
      | ',' :: rest => (readItems value bound rest).map fun (items, rest) => (item :: items, rest)
      | ']' :: rest => some ([item], rest)
      | _ => none

/-- Reads the keys and values of an inline table up to its closing brace, and adds them to a table. -/
def readPairs (value : Text → Option (Toml × Text)) :
    (bound : Nat) → (known : Toml) → Text → Option (Toml × Text)
  | 0, _, _ => none
  | bound + 1, known, t => do
    let ((path, key, added), rest) ← readPair value t
    let known ← insertAt path key added known
    match rest with
    | ',' :: rest => readPairs value bound known rest
    | '\x7d' :: rest => some (known, rest)
    | _ => none

/-- Reads an inline table from behind its opening brace. -/
def readInlineTable (value : Text → Option (Toml × Text)) (t : Text) : Option (Toml × Text) :=
  match skipTomlBlanks t with
  | '\x7d' :: rest => some (emptyTable .inline, rest)
  | t => readPairs value (t.length + 1) (emptyTable .inline) t

/-- Reads a truth value. -/
def readBoolean (t : Text) : Option (Toml × Text) :=
  ((after? "true".toList t).map (boolean true, ·)).or
    ((after? "false".toList t).map (boolean false, ·))

/-- Reads a value without brackets. What starts like a date or a number with a point is one. -/
def readScalar (t : Text) : Option (Toml × Text) :=
  ((readString t).map fun (text, rest) => (string text, rest)).or <|
  ((readDateTime t).map fun (text, rest) => (dateTime text, rest)).or <|
  ((readFloat t).map fun (text, rest) => (float text, rest)).or <|
  ((readInteger t).map fun (value, rest) => (integer value, rest)).or <|
  readBoolean t

/-- Reads a value with at most `depth` brackets around what it holds. -/
def readValue : (depth : Nat) → Text → Option (Toml × Text)
  | depth + 1, '[' :: t =>
    (readItems (readValue depth) (t.length + 1) t).map fun (items, rest) => (array items, rest)
  | depth + 1, '\x7b' :: t => readInlineTable (readValue depth) t
  | _, t => readScalar t

end MarkupAnalysis.Toml
