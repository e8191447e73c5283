import MarkupAnalysis.Document.Walk
import MarkupAnalysis.Text.WhiteSpace

/-! # Outline

Every element is a symbol. A symbol is named after the tag, the `id` and the classes of its element:
`div#main.a.b`. The outline comes nested like the elements, or flat with the name of the symbol around
each one.

* **`Node.symbolName`** — the name.
* **`Symbol`**, **`Document.symbols`** — the nested outline.
* **`FlatSymbol`**, **`Document.flatSymbols`** — the flat outline. -/

namespace MarkupAnalysis

/-! ## Names of symbols -/

namespace Node

/-- The value of the first attribute of a name, as it is written but without any quote. -/
def valueWithoutQuotes (n : Node) (name : Text) : Text :=
  match (n.attribute? name).bind (·.value) with
  | some value => value.text.filter (!Text.isQuote ·)
  | none => []

/-- The tag with `#` and the `id`, and `.` and each class. An element without any of them is `?`. -/
def symbolName (n : Node) : Text :=
  let id := n.valueWithoutQuotes "id".toList
  let classes := Text.words (n.valueWithoutQuotes "class".toList)
  let name := n.tag.getD [] ++ (if id.isEmpty then [] else '#' :: id) ++ classes.flatMap ('.' :: ·)
  if name.isEmpty then ['?'] else name

/-- The name in the start tag; the start tag itself where there is no name. -/
def selectionSpan (n : Node) : Span := n.nameSpan.getD ⟨n.start, n.contentStart⟩

end Node

/-! ## The nested outline -/

/-- What a symbol stands for. -/
inductive SymbolKind where
  /-- An element. -/
  | element
deriving DecidableEq, Repr

/-- The kind's name as it is written in answers. -/
def SymbolKind.name : SymbolKind → String
  | element => "Element"

/-- A symbol with the symbols inside it. -/
inductive Symbol where
  /-- A symbol of a name and a kind, the whole element, the name in its start tag, and what is inside. -/
  | mk (name : Text) (kind : SymbolKind) (range selectionRange : Span) (children : List Symbol)

namespace Symbol

/-- The name. -/
def name : Symbol → Text
  | mk name _ _ _ _ => name

/-- The kind. -/
def kind : Symbol → SymbolKind
  | mk _ kind _ _ _ => kind

/-- The whole element. -/
def range : Symbol → Span
  | mk _ _ range _ _ => range

/-- The name in the start tag. -/
def selectionRange : Symbol → Span
  | mk _ _ _ selectionRange _ => selectionRange

/-- The symbols inside. -/
def children : Symbol → List Symbol
  | mk _ _ _ _ children => children

end Symbol

/-- A symbol with the name of the one around it. -/
structure FlatSymbol where
  /-- The name. -/
  name : Text
  /-- The kind. -/
  kind : SymbolKind
  /-- The whole element. -/
  range : Span
  /-- The name of the symbol around this one; none at the top. -/
  containerName : Option Text
deriving DecidableEq, Repr

namespace Document

/-- The symbols of some elements, `depth` levels deep. -/
def symbolsWithin (d : Document) : (depth : Nat) → List NodeId → List Symbol
  | 0, _ => []
  | depth + 1, ids => ids.map fun id =>
    let n := d.node id
    .mk n.symbolName .element n.span n.selectionSpan (symbolsWithin d depth n.children.toList)

/-- The outline. No tree is deeper than it has nodes. -/
def symbols (d : Document) : List Symbol := d.symbolsWithin d.nodes.size (d.children root)

/-! ## The flat outline -/

/-- The name of the element around a node; none for the root. -/
def containerName (d : Document) (n : Node) : Option Text :=
  ((n.parent.map d.node).filter (!·.isRoot)).map (·.symbolName)

/-- The symbol of one element. -/
def flatSymbol (d : Document) (id : NodeId) : FlatSymbol :=
  let n := d.node id
  ⟨n.symbolName, .element, n.span, d.containerName n⟩

/-- The symbols of all elements in the order of their start tags. -/
def flatSymbols (d : Document) : List FlatSymbol := d.elements.map d.flatSymbol

end Document

end MarkupAnalysis
