import MarkupAnalysis.Document.Position
import MarkupAnalysis.Token.Tokenizer

/-! # The cursor

What can be proposed depends on the token that the cursor is in or next to. It is found by cutting the
text into tokens from the start of the node before the cursor.

* **`Place`** — the kinds of places that proposals are made for.
* **`Cursor`** — a place with the tag and the attribute before it.
* **`Cursor.find`**, **`Cursor.locate`** — the cursor among the tokens from the node's start on. -/

namespace MarkupAnalysis

open Text

/-- A place that proposals are made for. Every place carries the span of the name or value there. -/
inductive Place where
  /-- Behind `<`, before a name is typed: start tags and an end tag may follow. -/
  | newTag (name : Span) (bracket : Nat)
  /-- In the name of a start tag. -/
  | tagName (name : Span) (bracket : Nat)
  /-- In an end tag; the name is taken from its slash on. -/
  | endTag (name : Span)
  /-- In an attribute's name or where one may follow. -/
  | attributeName (name : Span)
  /-- In an attribute's value or where one may follow. -/
  | attributeValue (value : Span)
  /-- Behind the `>` of a start tag, which ends at an offset. -/
  | afterStartTag (tag : Text) (stop : Nat)
  /-- Anywhere else. -/
  | elsewhere
deriving DecidableEq, Repr

/-- A place with what was read before it. -/
structure Cursor where
  /-- The place. -/
  place : Place
  /-- The latest tag name before the place. -/
  tag : Option Text := none
  /-- The latest attribute name before the place. -/
  attributeName : Option Text := none
deriving DecidableEq, Repr

namespace Cursor

/-- The end of the next token if it starts at the cursor and is of the given kind; else the cursor. -/
def nextStop (offset : Nat) (kind : TokenKind) : List (Token × Tokenizer) → Nat
  | [] => offset
  | (next, _) :: _ =>
    if next.kind = kind && next.span.start = offset then next.span.stop else offset

/-- The offset of the slash before the name of an end tag, past blanks. -/
def slashBefore? (t : Text) (nameStart : Nat) : Option Nat :=
  match ((t.takeBytes? nameStart).getD []).reverse.dropWhile isAsciiBlank with
  | '/' :: before => some (byteLength before)
  | _ => none

/-- The place of a cursor in blanks, by the mode behind them. None means to go on. -/
def blankPlace? (offset : Nat) (blanks : Span) (after : Tokenizer)
    (rest : List (Token × Tokenizer)) : Option Place :=
  match after.mode with
  | .startTagOpened =>
    let stop := if offset = blanks.stop then nextStop offset .startTag rest else offset
    some (.newTag ⟨blanks.start, stop⟩ (blanks.start - 1))
  | .startTag | .attributeName => some (.attributeName ⟨blanks.stop, offset⟩)
  | .attributeValue => some (.attributeValue ⟨blanks.stop, offset⟩)
  | .endTagOpened => some (.endTag ⟨blanks.start - 1, offset⟩)
  | .content => some .elsewhere
  | _ => none

/-- The place of a cursor in or next to a token, given the latest tag name, the tokenizer behind the token
and the tokens that follow. None means to go on. -/
def place? (t : Text) (offset : Nat) (tag : Option Text) (token : Token) (after : Tokenizer)
    (rest : List (Token × Tokenizer)) : Option Place :=
  let s := token.span
  match token.kind with
  | .startTagOpen =>
    if s.stop = offset then some (.newTag ⟨offset, nextStop offset .startTag rest⟩ s.start) else none
  | .startTag => if s.touches offset then some (.tagName s (s.start - 1)) else none
  | .attributeName => if s.touches offset then some (.attributeName s) else none
  | .delimiterAssign =>
    if s.stop = offset then
      some (.attributeValue ⟨offset, nextStop offset .attributeValue rest⟩)
    else none
  | .attributeValue => if s.touches offset then some (.attributeValue s) else none
  | .whitespace => if offset ≤ s.stop then blankPlace? offset s after rest else none
  | .endTagOpen =>
    if offset ≤ s.stop then
      let stop := if offset = s.stop then nextStop offset .endTag rest else offset
      some (.endTag ⟨s.start + 1, stop⟩)
    else none
  | .endTag =>
    if offset ≤ s.stop then (slashBefore? t s.start).map fun slash => .endTag ⟨slash, s.stop⟩ else none
  | .startTagClose =>
    if offset ≤ s.stop then some ((tag.map (.afterStartTag · s.stop)).getD .elsewhere) else none
  | _ => if offset ≤ s.stop then some .elsewhere else none

/-- The cursor among tokens, each with the tokenizer behind it. -/
def find (t : Text) (offset : Nat) (tag attributeName : Option Text) :
    List (Token × Tokenizer) → Cursor
  | [] => { place := .elsewhere }
  | (token, after) :: rest =>
    if token.kind = .eof || offset < token.span.start then { place := .elsewhere }
    else
      match place? t offset tag token after rest with
      | some place => { place, tag, attributeName }
      | none =>
        let tag := if token.kind = .startTag then some token.text else tag
        let attributeName :=
          if token.kind = .attributeName then some token.text else attributeName
        find t offset tag attributeName rest

/-- The cursor at an offset, found from the start of a node. -/
def locate (v : Vocabulary) (t : Text) (start offset : Nat) : Cursor :=
  find t offset none none (Tokenizer.start v t start).trace

end Cursor

end MarkupAnalysis
