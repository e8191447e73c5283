import MarkupAnalysis.Document.Position
import MarkupAnalysis.Text.WhiteSpace

/-! # Pairs of tag names

What an editor shows and changes together: the names in the start tag and the end tag of one element.

* **`Document.linkedRanges`** — the two names of the element whose name is at an offset.
* **`Document.highlights`** — the same, also for an element without an end tag.
* **`Document.rename`** — the edits that give the element another name. -/

namespace MarkupAnalysis

/-- The replacement of a span by another text. -/
structure TextEdit where
  /-- What is replaced. -/
  span : Span
  /-- What replaces it. -/
  newText : Text
deriving DecidableEq, Repr

namespace Document

/-- The names in the start tag and in the end tag of the element, one of which touches the offset. -/
def linkedRanges (d : Document) (offset : Nat) : Option (Span × Span) := do
  let n := d.node (← d.matchingTag offset).node
  pure (← n.nameSpan, ← n.endNameSpan)

/-- The element one of whose names touches the offset. -/
def nameOwner (d : Document) (offset : Nat) : Option NodeId :=
  (d.nodeAt offset).filter fun id => (d.node id).nameSpans.any (·.touches offset)

/-- Where the name that touches the offset stands in the start tag and in the end tag. -/
def highlights (d : Document) (offset : Nat) : List Span :=
  match d.nameOwner offset with
  | some id => (d.node id).nameSpans
  | none => []

/-- Whether no character of the text would end a tag name, and there is one. -/
def isTagName (name : Text) : Bool :=
  !name.isEmpty && !name.any fun c =>
    Text.isBlank c || c = '<' || c = '>' || c = '/' || c = '\x22' || c = '\'' || c = '='

/-- The edits that rename the element whose name touches the offset; none when the new name is not a
tag name. -/
def rename (d : Document) (offset : Nat) (newName : Text) : List TextEdit :=
  if isTagName newName then (d.highlights offset).map (⟨·, newName⟩) else []

end Document

end MarkupAnalysis
