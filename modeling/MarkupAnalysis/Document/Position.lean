import MarkupAnalysis.Bisection
import MarkupAnalysis.Document.Walk

/-! # Positions in a document

What stands at an offset: the innermost node there, and the tag name there with the name it is paired
with. Children are in order, so each level of the tree is bisected.

* **`Document.nodeAt`** — the innermost element around an offset. An offset at an element's start is
  outside of it, one at its end inside.
* **`Document.nodeBefore`** — the same, but an element that has just ended still counts.
* **`Document.names`** — every tag name in the order in which they are written.
* **`Document.matchingTag`**, **`Document.counterpartOffset`** — the name on the other side of an element. -/

namespace MarkupAnalysis

namespace Document

/-! ## Nodes -/

/-- The last child of a node that starts before an offset. -/
def lastChildBefore (d : Document) (id : NodeId) (offset : Nat) : Option NodeId :=
  let children := (d.node id).children
  match bisect (fun child => (d.node child).start < offset) children with
  | 0 => none
  | count + 1 => children[count]?

/-- Goes down from `id`, at most `steps` levels, as long as a child lies around the offset. -/
def nodeAtWithin (d : Document) (offset : Nat) : (steps : Nat) → NodeId → NodeId
  | 0, id => id
  | steps + 1, id =>
    match d.lastChildBefore id offset with
    | none => id
    | some child =>
      if (d.node child).start < offset && offset ≤ (d.node child).stop then
        nodeAtWithin d offset steps child
      else id

/-- The innermost node around an offset; none past the end of the text. -/
def nodeAt (d : Document) (offset : Nat) : Option NodeId :=
  if d.textLength < offset then none else some (d.nodeAtWithin offset d.nodes.size root)

/-- Whether the node and its last child end together. -/
def endsWithLastChild (d : Document) (id : NodeId) : Bool :=
  (d.node id).children.back?.any fun last => (d.node last).stop == (d.node id).stop

/-- Goes down from `id`, at most `steps` levels, to the element that the offset is in or has just left. -/
def nodeBeforeWithin (d : Document) (offset : Nat) : (steps : Nat) → NodeId → NodeId
  | 0, id => id
  | steps + 1, id =>
    match d.lastChildBefore id offset with
    | none => id
    | some child =>
      if offset ≤ (d.node child).start then id
      else if offset < (d.node child).stop || d.endsWithLastChild child then
        nodeBeforeWithin d offset steps child
      else child

/-- The innermost node around an offset or, where an element has just ended, that element with its last
descendant of the same end; none past the end of the text. -/
def nodeBefore (d : Document) (offset : Nat) : Option NodeId :=
  if d.textLength < offset then none else some (d.nodeBeforeWithin offset d.nodes.size root)

/-! ## Names -/

/-- A tag name in the text. -/
structure NameEntry where
  /-- Where the name stands. -/
  span : Span
  /-- The element it belongs to. -/
  node : NodeId
  /-- Whether it is the name in the end tag. -/
  isEnd : Bool
deriving DecidableEq, Repr

/-- The names of a node. -/
def namesOf (id : NodeId) (n : Node) : List NameEntry :=
  (n.nameSpan.map (⟨·, id, false⟩)).toList ++ (n.endNameSpan.map (⟨·, id, true⟩)).toList

/-- All tag names in the order in which they are written. -/
def names (d : Document) : Array NameEntry :=
  ((d.nodes.toList.zipIdx.flatMap fun (n, id) => namesOf id n).mergeSort
    fun a b => a.span.start ≤ b.span.start).toArray

/-- A tag name and the one it is paired with. -/
structure MatchingTag where
  /-- The element. -/
  node : NodeId
  /-- The name at the offset. -/
  current : Span
  /-- The name on the other side. -/
  counterpart : Span
deriving DecidableEq, Repr

/-- The first name that touches an offset. -/
def nameAt (d : Document) (offset : Nat) : Option NameEntry :=
  d.names[bisect (fun entry => entry.span.stop < offset) d.names]?.filter (·.span.touches offset)

/-- The name that touches an offset with the one it is paired with; none where there is no name or
nothing to pair it with. -/
def matchingTag (d : Document) (offset : Nat) : Option MatchingTag := do
  let entry ← d.nameAt offset
  let n := d.node entry.node
  let counterpart ← if entry.isEnd then n.nameSpan else n.endNameSpan
  pure ⟨entry.node, entry.span, counterpart⟩

/-- The offset at the same place of the name on the other side. -/
def counterpartOffset (d : Document) (offset : Nat) : Option Nat :=
  (d.matchingTag offset).map fun m => m.counterpart.start + (offset - m.current.start)

end Document

end MarkupAnalysis
