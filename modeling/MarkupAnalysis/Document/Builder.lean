import MarkupAnalysis.Document.Basic
import MarkupAnalysis.Token.Tokenizer

/-! # From tokens to documents

The builder takes one token after the other. It keeps the stack of open elements and recovers from every
malformed tag, so that each text has a document:

* void tags are complete with their name and take no children;
* a `<` that interrupts a start tag ends the element there;
* an end tag closes the innermost open element of its name, and the elements inside it end where the end
  tag starts, without being closed;
* an end tag without an open element of its name changes nothing;
* what is open at the end of the text ends there, without being closed.

Main definitions: **`Builder`** — the state between two tokens; **`Builder.take`** — one token;
**`Document.ofTokens`** and **`Document.parse`** — the document of a list of tokens and of a text. -/

namespace MarkupAnalysis

/-- The state between two tokens. -/
structure Builder where
  /-- The nodes so far. -/
  nodes : Array Node
  /-- The open elements, innermost first. -/
  openElements : List NodeId := []
  /-- The element whose start tag is being read. -/
  startTag : Option NodeId := none
  /-- The offset of the latest `</`. -/
  endTagStart : Option Nat := none
  /-- The element that the end tag being read has closed. -/
  ended : Option NodeId := none
  /-- The comments so far. -/
  comments : Array Comment := #[]
  /-- The offset of the `<!--` of the comment that is being read. -/
  commentStart : Option Nat := none
  /-- The text of the comment that is being read. -/
  commentContent : Option Span := none

namespace Builder

/-- Before the first token there is the root alone. -/
def start (textLength : Nat) : Builder :=
  { nodes := #[{ start := 0, stop := textLength, closed := true }] }

/-! ## Changing nodes -/

/-- The innermost open element, or the root. -/
def current (b : Builder) : NodeId := b.openElements.headD Document.root

/-- Changes one node. -/
def modify (b : Builder) (id : NodeId) (change : Node → Node) : Builder :=
  { b with nodes := b.nodes.modify id change }

/-- Takes an element off the stack of open elements if it is the innermost one. -/
def leave (b : Builder) (id : NodeId) : Builder :=
  if b.openElements.head? = some id then { b with openElements := b.openElements.tail } else b

/-! ## Start tags -/

/-- A start tag opens: a new element inside the innermost open one. -/
def openElement (textLength : Nat) (b : Builder) (start : Nat) : Builder :=
  let id := b.nodes.size
  let parent := b.current
  let child : Node := { start, stop := textLength, parent := some parent }
  { b with
    nodes := (b.nodes.push child).modify parent fun n => { n with children := n.children.push id }
    openElements := id :: b.openElements
    startTag := some id }

/-- The name of the start tag; a void element is complete with it. -/
def nameElement (v : Vocabulary) (b : Builder) (token : Token) : Builder :=
  match b.startTag with
  | none => b
  | some id =>
    let isVoid := v.isVoid token.text
    let b := b.modify id fun n =>
      { n with name := some ⟨token.text, token.span⟩, closed := n.closed || isVoid }
    if isVoid then b.leave id else b

/-- The `>` of the start tag; an empty token stands for the `<` that interrupts it. An element that was
interrupted or has no name takes no children. -/
def closeStartTag (b : Builder) (token : Token) : Builder :=
  match b.startTag with
  | none => b
  | some id =>
    let b := { b with startTag := none }
    let stop := token.span.stop
    if token.span.isEmpty then (b.modify id fun n => { n with stop }).leave id
    else
      -- The content of a tag without a name belongs to the element around it.
      let nameless := b.nodes[id]?.any (·.name.isNone)
      let b := b.modify id fun n => { n with stop, startTagEnd := some stop }
      if nameless then b.leave id else b

/-- The `/>` of the start tag: the element is complete. -/
def selfCloseElement (b : Builder) (stop : Nat) : Builder :=
  match b.startTag with
  | none => b
  | some id =>
    let b := { b with startTag := none }
    (b.modify id fun n =>
      { n with stop, startTagEnd := some stop, closed := true, selfClosing := true }).leave id

/-- The name of an attribute of the start tag. -/
def addAttribute (b : Builder) (token : Token) : Builder :=
  match b.startTag with
  | none => b
  | some id =>
    b.modify id fun n =>
      { n with attributes := n.attributes.push { name := token.text, nameSpan := token.span } }

/-- The attribute with a value, unless it has one already. -/
def giveValue (token : Token) (a : Attribute) : Attribute :=
  { a with value := a.value.or (some ⟨token.text, token.span⟩) }

/-- The value of the latest attribute of the start tag. -/
def addValue (b : Builder) (token : Token) : Builder :=
  match b.startTag with
  | none => b
  | some id =>
    b.modify id fun n =>
      { n with attributes := n.attributes.modify (n.attributes.size - 1) (giveValue token) }

/-! ## End tags -/

/-- An end tag opens. -/
def openEndTag (b : Builder) (start : Nat) : Builder :=
  { b with startTag := none, ended := none, endTagStart := some start }

/-- Whether an end tag of that name closes the element. -/
def closedBy (v : Vocabulary) (b : Builder) (name : Text) (id : NodeId) : Bool :=
  (b.nodes[id]?.bind (·.tag)).any (v.tagNamesMatch · name)

/-- Elements end at an offset without being closed. -/
def cutOff (b : Builder) (ids : List NodeId) (stop : Nat) : Builder :=
  ids.foldl (fun b id => b.modify id fun n => { n with stop, closed := false }) b

/-- The name of an end tag: it closes the innermost open element of that name. -/
def endElement (v : Vocabulary) (b : Builder) (token : Token) : Builder :=
  match b.endTagStart with
  | none => b
  | some start =>
    let inner := b.openElements.takeWhile (!b.closedBy v token.text ·)
    match b.openElements.dropWhile (!b.closedBy v token.text ·) with
    | [] => b
    | id :: outer =>
      -- Until the bracket comes, the element ends with the name of its end tag.
      let b := (b.cutOff inner start).modify id fun n =>
        { n with closed := true, endTag := some ⟨start, token.span⟩, stop := token.span.stop }
      { b with openElements := outer, ended := some id }

/-- The `>` of an end tag belongs to the element that the end tag has closed. -/
def closeEndTag (b : Builder) (stop : Nat) : Builder :=
  match b.ended with
  | none => b
  | some id => { b with ended := none }.modify id fun n => { n with stop }

/-! ## Comments -/

/-- A comment is complete. -/
def endComment (b : Builder) (contentStop stop : Nat) : Builder :=
  match b.commentStart with
  | none => b
  | some start =>
    let content := b.commentContent.getD ⟨contentStop, contentStop⟩
    { b with
      comments := b.comments.push ⟨⟨start, stop⟩, content⟩
      commentStart := none
      commentContent := none }

/-! ## Tokens -/

/-- One token. -/
def take (v : Vocabulary) (textLength : Nat) (b : Builder) (token : Token) : Builder :=
  match token.kind with
  | .startTagOpen => b.openElement textLength token.span.start
  | .startTag => b.nameElement v token
  | .startTagClose => b.closeStartTag token
  | .startTagSelfClose => b.selfCloseElement token.span.stop
  | .endTagOpen => b.openEndTag token.span.start
  | .endTag => b.endElement v token
  | .endTagClose => b.closeEndTag token.span.stop
  | .attributeName => b.addAttribute token
  | .attributeValue => b.addValue token
  | .startComment => { b with commentStart := some token.span.start, commentContent := none }
  | .comment => { b with commentContent := some token.span }
  | .endComment | .eof => b.endComment token.span.start token.span.stop
  | _ => b

/-- After the last token the elements that are still open end with the text. -/
def finish (textLength : Nat) (b : Builder) : Document :=
  let b := b.cutOff b.openElements textLength
  { nodes := b.nodes, comments := b.comments, textLength }

end Builder

namespace Document

/-- The document of the tokens of a text. -/
def ofTokens (v : Vocabulary) (textLength : Nat) (tokens : List Token) : Document :=
  (tokens.foldl (Builder.take v textLength) (Builder.start textLength)).finish textLength

/-- The tokens that documents are built from: those of the whole text, with closing tokens for
interrupted tags. -/
def tokensOf (v : Vocabulary) (t : Text) : List Token :=
  ((Tokenizer.start v t 0).withPseudoClose true).tokens

/-- The document of a text. -/
def parse (v : Vocabulary) (t : Text) : Document := ofTokens v t.byteLength (tokensOf v t)

end Document

end MarkupAnalysis
