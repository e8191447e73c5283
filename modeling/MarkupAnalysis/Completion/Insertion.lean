import MarkupAnalysis.Completion.TagProposals

/-! # Insertion while typing

What is inserted without being asked for: the end tag behind the `>` of a start tag, the rest of an end
tag behind `</`, and quotes behind the `=` of an attribute.

* **`Document.tagInsertion`** — behind `>` and `/`.
* **`Document.quoteInsertion`** — behind `=`. -/

namespace MarkupAnalysis

open Text

/-- The character before an offset. -/
def charBefore? (t : Text) (offset : Nat) : Option Char := (t.takeBytes? offset).bind List.getLast?

/-- Whether a token of a kind ends at an offset, in the text cut from `start` on. -/
def tokenEndsAt (v : Vocabulary) (t : Text) (start : Nat) (kind : TokenKind) (offset : Nat) : Bool :=
  let before := (tokenize v t start).takeWhile fun token =>
    token.kind ≠ .eof && token.span.stop ≤ offset
  before.any fun token => token.kind = kind && token.span.stop = offset

/-- Whether an element has started and not ended before an offset. -/
def Node.isAround (n : Node) (offset : Nat) : Bool :=
  n.start < offset && !n.endTagStart.any (· ≤ offset)

namespace Document

/-- The end tag of the start tag that a `>` has just closed. -/
def endTagInsertion (d : Document) (t : Text) (v : Vocabulary) (offset : Nat) : Option Text := do
  let n := d.node (← d.nodeBefore offset)
  let tag ← n.tag
  if !v.isVoid tag && n.isAround offset && tokenEndsAt v t n.start .startTagClose offset then
    some ("$0</".toList ++ tag ++ ['>'])
  else none

/-- The name of the element that a `</` is about to close, with its bracket unless that is there. -/
def endNameInsertion (d : Document) (t : Text) (v : Vocabulary) (offset : Nat) : Option Text := do
  let node ← d.nodeBefore offset
  let n := d.node (← (node :: d.ancestors node).find? fun id =>
    CompletionRequest.isOpenAt offset (d.node id))
  let tag ← n.tag
  if tokenEndsAt v t n.start .endTagOpen offset then
    let hasBracket := ((t.dropBytes? offset).bind List.head?) = some '>'
    some (if hasBracket then tag else tag ++ ['>'])
  else none

/-- What is inserted behind the `>` or `/` before an offset. -/
def tagInsertion (d : Document) (t : Text) (v : Vocabulary) (offset : Nat) : Option Text :=
  match charBefore? t offset with
  | some '>' => d.endTagInsertion t v offset
  | some '/' => d.endNameInsertion t v offset
  | _ => none

/-- The quotes that are inserted for a value. -/
def quoteSnippet : DefaultValue → Option Text
  | .doubleQuotes => some "\"$1\"".toList
  | .singleQuotes => some "'$1'".toList
  | .empty => none

/-- Whether the tokens show an attribute name right before the `=` at `assign`, and behind it neither a
value nor anything that fits nowhere. -/
def isMissingValue (assign : Nat) : List Token → Bool
  | name :: next :: rest =>
    if name.kind = .eof || assign + 1 < name.span.stop then false
    else if name.kind = .attributeName && name.span.stop = assign then
      next.kind = .delimiterAssign && rest.head?.any fun value =>
        value.kind ≠ .unknown && value.kind ≠ .attributeValue
    else isMissingValue assign (next :: rest)
  | _ => false

/-- The quotes to insert behind the `=` before an offset. -/
def quoteInsertion (d : Document) (t : Text) (v : Vocabulary) (options : CompletionOptions)
    (offset : Nat) : Option Text := do
  let quotes ← quoteSnippet options.defaultValue
  if charBefore? t offset = some '=' then
    let n := d.node (← d.nodeBefore offset)
    if !n.attributes.isEmpty && n.isAround offset
        && isMissingValue (offset - 1) (tokenize v t n.start) then
      some quotes
    else none
  else none

end Document

end MarkupAnalysis
