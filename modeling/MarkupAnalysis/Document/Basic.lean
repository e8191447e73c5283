import MarkupAnalysis.Text.Quotes
import MarkupAnalysis.Text.Span

/-! # Documents

A document is the tree of a markup text. Its nodes stand in one array, in the order in which their start
tags open; node `0` is the root, which stands for the whole text. A node names its children and its
parent by their places in the array.

* **`Attribute`**, **`Node`**, **`Comment`** — the parts.
* **`Node.contentStart`**, **`Node.contentStop`** — the area between the tags of an element.
* **`Document`** — the nodes, the comments and the length of the text. -/

namespace MarkupAnalysis

/-! ## Attributes -/

/-- The value of an attribute as it is written. -/
structure AttributeValue where
  /-- The characters, quotes included. -/
  text : Text
  /-- Where they stand. -/
  span : Span
deriving DecidableEq, Repr

/-- An attribute as it is written in a start tag. -/
structure Attribute where
  /-- The name. -/
  name : Text
  /-- Where the name stands. -/
  nameSpan : Span
  /-- The value, if there is one. -/
  value : Option AttributeValue := none
deriving DecidableEq, Repr

/-- The span of a value without its quotes. -/
def AttributeValue.contentSpan (value : AttributeValue) : Span :=
  if value.text.isQuoted then
    let start := value.span.start + 1
    ⟨start, start + value.text.stripQuotes.byteLength⟩
  else value.span

namespace Attribute

/-- From the start of the name to the end of the value. -/
def span (a : Attribute) : Span :=
  ⟨a.nameSpan.start, (a.value.map (·.span.stop)).getD a.nameSpan.stop⟩

/-- The value without its quotes. -/
def unquotedValue (a : Attribute) : Option Text := a.value.map (·.text.stripQuotes)

/-- The span of the value without its quotes. -/
def valueContentSpan (a : Attribute) : Option Span := a.value.map (·.contentSpan)

/-- Whether the value opens with a quote. -/
def isQuoted (a : Attribute) : Bool := a.value.any (·.text.isQuoted)

end Attribute

/-! ## Nodes -/

/-- The place of a node in the array of nodes. -/
abbrev NodeId := Nat

/-- The name in a start tag. -/
structure TagName where
  /-- The characters of the name. -/
  text : Text
  /-- Where they stand. -/
  span : Span
deriving DecidableEq, Repr

/-- The end tag that closes an element. -/
structure EndTag where
  /-- The offset of its `</`. -/
  start : Nat
  /-- Where its name stands. -/
  nameSpan : Span
deriving DecidableEq, Repr

/-- An element, or the root. -/
structure Node where
  /-- The offset of the element's `<`. -/
  start : Nat
  /-- The offset just past the element. -/
  stop : Nat
  /-- The name in the start tag; the root and a `<` without a name have none. -/
  name : Option TagName := none
  /-- The offset just past the `>` of the start tag. -/
  startTagEnd : Option Nat := none
  /-- The end tag that closes the element. -/
  endTag : Option EndTag := none
  /-- The attributes in the order in which they are written. -/
  attributes : Array Attribute := #[]
  /-- The elements directly inside, in the order in which they are written. -/
  children : Array NodeId := #[]
  /-- The element around this one; the root has none. -/
  parent : Option NodeId := none
  /-- Whether the element was properly terminated. -/
  closed : Bool := false
  /-- Whether the start tag ends in `/>`. -/
  selfClosing : Bool := false
deriving DecidableEq, Repr

instance : Inhabited Node := ⟨{ start := 0, stop := 0 }⟩

namespace Node

/-- The tag of the element. -/
def tag (n : Node) : Option Text := n.name.map (·.text)

/-- Where the name in the start tag stands. -/
def nameSpan (n : Node) : Option Span := n.name.map (·.span)

/-- The offset of the `</` of the end tag. -/
def endTagStart (n : Node) : Option Nat := n.endTag.map (·.start)

/-- Where the name in the end tag stands. -/
def endNameSpan (n : Node) : Option Span := n.endTag.map (·.nameSpan)

/-- The names in the start tag and in the end tag, as far as they are there. -/
def nameSpans (n : Node) : List Span := n.nameSpan.toList ++ n.endNameSpan.toList

/-- The whole element. -/
def span (n : Node) : Span := ⟨n.start, n.stop⟩

/-- Whether the node stands for the whole text. -/
def isRoot (n : Node) : Bool := n.parent.isNone

/-- Whether an end tag closes the element. -/
def hasEndTag (n : Node) : Bool := n.endTag.isSome

/-- The start of the content; the end of the element when its start tag is not finished. -/
def contentStart (n : Node) : Nat := n.startTagEnd.getD n.stop

/-- The end of the content; the end of the element when it has no end tag. -/
def contentStop (n : Node) : Nat := n.endTagStart.getD n.stop

/-- The content. -/
def contentSpan (n : Node) : Span := ⟨n.contentStart, n.contentStop⟩

/-- The first attribute of a name, up to ASCII case. -/
def attribute? (n : Node) (name : Text) : Option Attribute :=
  n.attributes.find? (·.name.equalsIgnoringCase name)

/-- The value, without quotes, of the first attribute of a name. -/
def attributeValue? (n : Node) (name : Text) : Option Text :=
  (n.attribute? name).bind (·.unquotedValue)

end Node

/-! ## Documents -/

/-- A comment. -/
structure Comment where
  /-- From `<!--` to past `-->`, or to the end of the text. -/
  span : Span
  /-- The text between the delimiters. -/
  content : Span
deriving DecidableEq, Repr

/-- The tree of a text. -/
structure Document where
  /-- The root and the elements in the order in which they open. -/
  nodes : Array Node
  /-- The comments in the order in which they are written. -/
  comments : Array Comment
  /-- The number of bytes of the text. -/
  textLength : Nat
deriving DecidableEq, Repr

namespace Document

/-- The node that stands for the whole text. -/
def root : NodeId := 0

/-- The node at a place of the array. -/
def node? (d : Document) (id : NodeId) : Option Node := d.nodes[id]?

/-- The node at a place of the array; an empty node where there is none. -/
def node (d : Document) (id : NodeId) : Node := d.nodes[id]?.getD default

/-- The elements directly inside a node. -/
def children (d : Document) (id : NodeId) : List NodeId := (d.node id).children.toList

end Document

end MarkupAnalysis
