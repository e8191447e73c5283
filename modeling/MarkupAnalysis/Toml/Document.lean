import MarkupAnalysis.Toml.Reader

/-! # TOML documents

A document is a list of lines: keys with their values, and headers, each of which opens a table for the
keys behind it. Headers take effect in order, after all keys of the section before them.

* **`Toml.Section`** — a header with its entries; `Toml.Section.addTo` adds them to a table.
* **`Toml.read?`** — the table of a text. -/

namespace MarkupAnalysis.Toml

open Text

/-- A dotted key with its value. -/
structure Entry where
  /-- The keys on the way. -/
  path : List Text
  /-- The last key. -/
  key : Text
  /-- The value. -/
  value : Toml

/-- A line that opens a table. -/
structure Header where
  /-- Whether the table is one more element of an array of tables. -/
  isElement : Bool
  /-- The keys on the way. -/
  path : List Text
  /-- The last key. -/
  key : Text

/-- A header with the entries behind it. -/
structure Section where
  /-- The header. -/
  header : Header
  /-- The entries up to the next header. -/
  entries : List Entry

/-! ## Meaning -/

/-- Adds entries to a table. -/
def addEntries (entries : List Entry) (t : Toml) : Option Toml :=
  entries.foldlM (fun t entry => insertAt entry.path entry.key entry.value t) t

/-- Adds a section to the table of the document. -/
def Section.addTo (s : Section) (t : Toml) : Option Toml :=
  if s.header.isElement then appendTable s.header.path s.header.key (addEntries s.entries) t
  else openTable s.header.path s.header.key (addEntries s.entries) t

/-- The table of a document: its entries before the first header, and its sections. -/
def ofSections? (entries : List Entry) (sections : List Section) : Option Toml := do
  sections.foldlM (fun t s => s.addTo t) (← addEntries entries (emptyTable .header))

/-! ## Lines -/

/-- The text behind the rest of a line that holds nothing but blanks and a comment. -/
def endLine? (t : Text) : Option Text :=
  let rest := match skipTomlBlanks t with
    | '#' :: comment => comment.dropWhile isPlain
    | t => t
  if rest.isEmpty then some [] else lineEnd? rest

/-- Reads a header. -/
def readHeader : Text → Option (Header × Text)
  | '[' :: '[' :: t => do
    let (path, key, rest) ← readKey keyLimit t
    pure (⟨true, path, key⟩, ← after? "]]".toList rest)
  | '[' :: t => do
    let (path, key, rest) ← readKey keyLimit t
    pure (⟨false, path, key⟩, ← after? [']'] rest)
  | _ => none

/-- Reads a key with its value. -/
def readEntry (t : Text) : Option (Entry × Text) :=
  (readPair (readValue depthLimit) t).map fun ((path, key, value), rest) => (⟨path, key, value⟩, rest)

/-- Reads all lines: the entries before the first header, and the sections. The bound is the length of
the text. -/
def readLines : (bound : Nat) → Text → Option (List Entry × List Section)
  | 0, _ => none
  | bound + 1, t =>
    let t := skipTomlBlanks t
    match t with
    | [] => some ([], [])
    | '[' :: _ => do
      let (header, rest) ← readHeader t
      let (entries, sections) ← readLines bound (← endLine? rest)
      pure ([], ⟨header, entries⟩ :: sections)
    | _ =>
      match endLine? t with
      | some rest => readLines bound rest
      | none => do
        let (entry, rest) ← readEntry t
        let (entries, sections) ← readLines bound (← endLine? rest)
        pure (entry :: entries, sections)

/-- The table of a text, which a byte order mark may precede. -/
def read? (t : Text) : Option Toml := do
  let t := (after? ['\ufeff'] t).getD t
  let (entries, sections) ← readLines (t.length + 1) t
  ofSections? entries sections

end MarkupAnalysis.Toml
