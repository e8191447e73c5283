import MarkupAnalysis.Document.Basic

/-! # Walks through a document

* **`Document.ancestors`** — the elements around a node, nearest first, up to the root.
* **`Document.descendants`**, **`Document.elements`** — the elements inside a node, and all of them, in
  the order of their start tags.
* **`Document.unclosed`** — the elements that were not properly terminated.
* **`Document.findById`** — the element that an `id` attribute names. -/

namespace MarkupAnalysis.Document

/-- Up to `steps` elements of the chain of parents of a node. -/
def ancestorsWithin (d : Document) : (steps : Nat) → NodeId → List NodeId
  | 0, _ => []
  | steps + 1, id =>
    match (d.node id).parent with
    | none => []
    | some parent => parent :: ancestorsWithin d steps parent

/-- The chain of parents of a node, nearest first. It is no longer than the array of nodes. -/
def ancestors (d : Document) (id : NodeId) : List NodeId := d.ancestorsWithin d.nodes.size id

/-- Up to `steps` nodes of the walk through the pending nodes and all that is inside them, each node
before its children. -/
def preorderWithin (d : Document) : (steps : Nat) → (pending : List NodeId) → List NodeId
  | 0, _ => []
  | _ + 1, [] => []
  | steps + 1, id :: pending => id :: preorderWithin d steps (d.children id ++ pending)

/-- The elements inside a node, each before its children. They are fewer than the nodes of the array. -/
def descendants (d : Document) (id : NodeId) : List NodeId :=
  d.preorderWithin d.nodes.size (d.children id)

/-- All elements in the order of their start tags. -/
def elements (d : Document) : List NodeId := d.descendants root

/-- The elements that were not properly terminated. -/
def unclosed (d : Document) : List NodeId := d.elements.filter fun id => !(d.node id).closed

/-- The first element whose `id` attribute has the value. -/
def findById (d : Document) (value : Text) : Option NodeId :=
  d.elements.find? fun id => (d.node id).attributeValue? "id".toList == some value

end MarkupAnalysis.Document
