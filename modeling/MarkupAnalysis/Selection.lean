import MarkupAnalysis.Document.Position

/-! # Selection

The chain of ever larger constructs around a cursor: from a value, an attribute or a tag, over the
content of each element and the element itself, to the whole text. Each span strictly covers the one
before.

* **`Node.startTagSpans`** — the constructs inside a start tag.
* **`Document.selectionCandidates`** — everything around a cursor, innermost first.
* **`Document.selectionChain`** — the candidates without those that do not grow. -/

namespace MarkupAnalysis

namespace Attribute

/-- The parts of the attribute around the offset, and the attribute. -/
def spansAt (a : Attribute) (offset : Nat) : List Span :=
  match a.value.filter (·.span.touches offset) with
  | some value =>
    (if value.contentSpan.touches offset then [value.contentSpan] else []) ++ [value.span, a.span]
  | none => [a.nameSpan, a.span]

end Attribute

namespace Node

/-- The end of what stands between the brackets of the start tag. -/
def interiorStop (n : Node) : Nat :=
  match n.startTagEnd with
  | some stop => if n.selfClosing then stop - 2 else stop - 1
  | none => n.stop

/-- What stands between the brackets of the start tag, if the offset touches it. -/
def interiorSpans (n : Node) (offset : Nat) : List Span :=
  let interior : Span := ⟨n.start + 1, n.interiorStop⟩
  if n.start < n.interiorStop && interior.touches offset then [interior] else []

/-- The constructs around an offset in the start tag, and the start tag. -/
def startTagSpans (n : Node) (offset : Nat) : List Span :=
  (match n.attributes.find? (·.span.touches offset) with
    | some a => a.spansAt offset
    | none => [])
  ++ n.interiorSpans offset
  ++ (n.startTagEnd.map fun stop => (⟨n.start, stop⟩ : Span)).toList

/-- The constructs around an offset in the end tag, and the end tag. -/
def endTagSpans (n : Node) (endTag : EndTag) (offset : Nat) : List Span :=
  (if endTag.nameSpan.touches offset then [endTag.nameSpan] else []) ++ [⟨endTag.start, n.stop⟩]

/-- The content, if the start tag is finished. -/
def contentSpans (n : Node) : List Span := if n.startTagEnd.isSome then [n.contentSpan] else []

/-- The constructs inside an element around an offset in it. -/
def innerSpans (n : Node) (offset : Nat) : List Span :=
  if offset < n.contentStart then n.startTagSpans offset
  else
    match n.endTag.filter (·.start < offset) with
    | some endTag => n.endTagSpans endTag offset
    | none => n.contentSpans

end Node

/-- The spans, from the first on, that strictly cover the one kept before. -/
def growing (spans : List Span) : List Span :=
  (spans.foldl
    (fun chain span =>
      match chain with
      | [] => [span]
      | inner :: _ => if span != inner && span.covers inner then span :: chain else chain)
    []).reverse

namespace Document

/-- The constructs around an offset in a node, innermost first. -/
def selectionCandidates (d : Document) (id : NodeId) (offset : Nat) : List Span :=
  let n := d.node id
  (if n.isRoot then [] else n.innerSpans offset) ++ [n.span]
    ++ (d.ancestors id).flatMap fun id => (d.node id).contentSpans ++ [(d.node id).span]

/-- The chain of ever larger constructs around an offset; empty past the end of the text. -/
def selectionChain (d : Document) (offset : Nat) : List Span :=
  match d.nodeAt offset with
  | some id => growing (d.selectionCandidates id offset)
  | none => []

/-- One chain for each offset. -/
def selectionRanges (d : Document) (offsets : List Nat) : List (List Span) :=
  offsets.map d.selectionChain

end Document

end MarkupAnalysis
