import MarkupAnalysis.Document.Basic
import MarkupAnalysis.Proofs.Token.Names

/-! # Rendering forests

A forest is what a well-written text says, without the places where it says so. Rendering writes it down,
and the places follow from the lengths of what is written before them.

* **`PlainAttribute`**, **`Forest`** — attributes and forests without places.
* **`Forest.render`** — the text of a forest.
* **`Forest.WellFormed`** — the forests that a vocabulary can read back.
* **`Forest.document`** — the tree of a forest, with the places in its text. -/

namespace MarkupAnalysis

open Text

/-! ## Forests -/

/-- An attribute, with or without a value. -/
structure PlainAttribute where
  /-- The name. -/
  name : Text
  /-- The value without quotes. -/
  value : Option Text
deriving DecidableEq, Repr

/-- **A forest** of elements, texts and comments: what comes first, and what comes next. -/
inductive Forest where
  /-- There is nothing more. -/
  | nil
  /-- An element with a start tag, children and an end tag. -/
  | element (tag : Text) (attributes : List PlainAttribute) (children next : Forest)
  /-- An element that is its start tag. -/
  | void (tag : Text) (attributes : List PlainAttribute) (next : Forest)
  /-- Text between tags. -/
  | text (run : Text) (next : Forest)
  /-- A comment. -/
  | comment (body : Text) (next : Forest)
deriving DecidableEq, Repr

/-! ## Rendering -/

/-- A value in double quotes. -/
def quote (value : Text) : Text := '\x22' :: value ++ ['\x22']

/-- A blank, the name, and the value if there is one. -/
def PlainAttribute.render (a : PlainAttribute) : Text :=
  ' ' :: a.name ++ (a.value.map fun value => '=' :: quote value).getD []

/-- A start tag. -/
def renderStartTag (tag : Text) (attributes : List PlainAttribute) : Text :=
  '<' :: tag ++ attributes.flatMap (·.render) ++ ['>']

/-- An end tag. -/
def renderEndTag (tag : Text) : Text := "</".toList ++ tag ++ ['>']

/-- A comment. -/
def renderComment (body : Text) : Text := "<!--".toList ++ body ++ "-->".toList

namespace Forest

/-- **The text of a forest.** -/
def render : Forest → Text
  | nil => []
  | element tag attributes children next =>
    renderStartTag tag attributes ++ children.render ++ renderEndTag tag ++ next.render
  | void tag attributes next => renderStartTag tag attributes ++ next.render
  | text run next => run ++ next.render
  | comment body next => renderComment body ++ next.render

end Forest

/-! ## Forests that can be read back -/

/-- An attribute that can be read back: the name is made of the characters of names, and the value does
not end early. -/
structure PlainAttribute.WellFormed (a : PlainAttribute) : Prop where
  name_ne_nil : a.name ≠ []
  name_chars : ∀ c ∈ a.name, isAttributeNameChar c = true
  value_chars : ∀ value, a.value = some value → '\x22' ∉ value

/-- A start tag that can be read back, and whose body is not opaque. -/
structure StartTagWellFormed (v : Vocabulary) (tag : Text) (attributes : List PlainAttribute) :
    Prop where
  name : IsTagName tag
  not_embedded : v.isEmbeddedContent tag = false
  attributes : ∀ a ∈ attributes, a.WellFormed

namespace Forest

/-- **A forest that can be read back**: void elements are void in the vocabulary and the others are not,
texts hold no `<` and comments no `-->`. -/
def WellFormed (v : Vocabulary) : Forest → Prop
  | nil => True
  | element tag attributes children next =>
    StartTagWellFormed v tag attributes ∧ v.isVoid tag = false ∧ children.WellFormed v ∧
      next.WellFormed v
  | void tag attributes next =>
    StartTagWellFormed v tag attributes ∧ v.isVoid tag = true ∧ next.WellFormed v
  | text run next => '<' ∉ run ∧ next.WellFormed v
  | comment body next => ¬ "-->".toList <:+: body ∧ next.WellFormed v

end Forest

/-! ## The tree of a forest -/

/-- The attribute as it stands in a start tag, its blank at `position`. -/
def PlainAttribute.placed (position : Nat) (a : PlainAttribute) : Attribute :=
  let nameStop := position + 1 + a.name.byteLength
  { name := a.name
    nameSpan := ⟨position + 1, nameStop⟩
    value := a.value.map fun value =>
      ⟨quote value, ⟨nameStop + 1, nameStop + 1 + (quote value).byteLength⟩⟩ }

/-- The attributes as they stand in a start tag, one after the other. -/
def placedAttributes : (position : Nat) → List PlainAttribute → List Attribute
  | _, [] => []
  | position, a :: attributes =>
    a.placed position :: placedAttributes (position + a.render.byteLength) attributes

/-- The element of a start tag at `position`. -/
def startedNode (parent : NodeId) (position : Nat) (tag : Text) (attributes : List PlainAttribute) :
    Node :=
  let nameStop := position + 1 + tag.byteLength
  let stop := position + (renderStartTag tag attributes).byteLength
  { start := position
    stop
    name := some ⟨tag, ⟨position + 1, nameStop⟩⟩
    startTagEnd := some stop
    attributes := (placedAttributes nameStop attributes).toArray
    parent := some parent }

/-- The element with the children and the end tag that stands at `position`. -/
def endedNode (n : Node) (children : List NodeId) (position : Nat) (tag : Text) : Node :=
  { n with
    stop := position + (renderEndTag tag).byteLength
    endTag := some ⟨position, ⟨position + 2, position + 2 + tag.byteLength⟩⟩
    children := children.toArray
    closed := true }

namespace Forest

/-- The number of elements. -/
def size : Forest → Nat
  | nil => 0
  | element _ _ children next => 1 + children.size + next.size
  | void _ _ next => 1 + next.size
  | text _ next | comment _ next => next.size

/-- The outermost elements, when the first one is the node `first`. -/
def roots : (first : NodeId) → Forest → List NodeId
  | _, nil => []
  | first, element _ _ children next => first :: next.roots (first + 1 + children.size)
  | first, void _ _ next => first :: next.roots (first + 1)
  | first, text _ next | first, comment _ next => next.roots first

/-- The nodes of the elements, the text of the forest standing at `position`. -/
def nodes (parent : NodeId) : (first : NodeId) → (position : Nat) → Forest → List Node
  | _, _, nil => []
  | first, position, element tag attributes children next =>
    let content := position + (renderStartTag tag attributes).byteLength
    let endTag := content + children.render.byteLength
    endedNode (startedNode parent position tag attributes) (children.roots (first + 1)) endTag tag ::
      (children.nodes first (first + 1) content ++
        next.nodes parent (first + 1 + children.size) (endTag + (renderEndTag tag).byteLength))
  | first, position, void tag attributes next =>
    { startedNode parent position tag attributes with closed := true } ::
      next.nodes parent (first + 1) (position + (renderStartTag tag attributes).byteLength)
  | first, position, text run next => next.nodes parent first (position + run.byteLength)
  | first, position, comment body next =>
    next.nodes parent first (position + (renderComment body).byteLength)

/-- The comments, the text of the forest standing at `position`. -/
def comments : (position : Nat) → Forest → List Comment
  | _, nil => []
  | position, element tag attributes children next =>
    let content := position + (renderStartTag tag attributes).byteLength
    let endTag := content + children.render.byteLength
    children.comments content ++ next.comments (endTag + (renderEndTag tag).byteLength)
  | position, void tag attributes next =>
    next.comments (position + (renderStartTag tag attributes).byteLength)
  | position, text run next => next.comments (position + run.byteLength)
  | position, comment body next =>
    let content : Span := ⟨position + 4, position + 4 + body.byteLength⟩
    let stop := position + (renderComment body).byteLength
    ⟨⟨position, stop⟩, content⟩ :: next.comments stop

/-- **The tree of a forest**, all elements being closed. -/
def document (f : Forest) : Document :=
  let rootNode : Node :=
    { start := 0, stop := f.render.byteLength, children := (f.roots 1).toArray, closed := true }
  { nodes := (rootNode :: f.nodes Document.root 1 0).toArray
    comments := (f.comments 0).toArray
    textLength := f.render.byteLength }

end Forest

end MarkupAnalysis
