import MarkupAnalysis.Document.Position
import MarkupAnalysis.Vocabulary.Basic

/-! # Hover

What the vocabulary knows about the tag or attribute whose name is under the cursor. The text is plain,
one fact on each line; the first line is the name itself. -/

namespace MarkupAnalysis

/-- What is shown for a name. -/
structure Hover where
  /-- The name it is about. -/
  span : Span
  /-- The facts. -/
  contents : Text
deriving DecidableEq, Repr

namespace Hover

/-- The text with one fact on each line. -/
def ofLines (lines : List Text) : Text := List.intercalate ['\n'] lines

/-- The facts about a tag, under a heading. -/
def tagContents (v : Vocabulary) (tag heading : Text) : Text :=
  ofLines <| [heading]
    ++ (if v.isVoid tag then ["Void element: never has an end tag.".toList] else [])
    ++ (if v.isEmbeddedContent tag then ["Content is embedded text, not markup.".toList] else [])

/-- What is known about the values of an attribute. -/
def valueFacts (v : Vocabulary) (tag : Text) (info : AttributeInfo) : List Text :=
  if info.isValueless then ["Boolean attribute: written without a value.".toList]
  else if info.isHandler then ["Event handler.".toList]
  else
    match v.valuesFor tag info.name with
    | [] => []
    | values => ["Values: ".toList ++ List.intercalate ", ".toList values]

/-- The facts about an attribute of a tag. -/
def attributeContents (v : Vocabulary) (tag : Text) (info : AttributeInfo) : Text :=
  ofLines <| [info.name] ++ valueFacts v tag info
    ++ (if v.isReferenceAttribute tag info.name then ["Value is a link reference.".toList] else [])

/-- The hover of the attribute whose name touches the offset, if the vocabulary has it for the tag. -/
def ofAttribute (v : Vocabulary) (n : Node) (tag : Text) (offset : Nat) : Option Hover := do
  let a ← n.attributes.find? (·.nameSpan.touches offset)
  let info ← (v.attributesFor tag).find? (·.name.equalsIgnoringCase a.name)
  pure ⟨a.nameSpan, attributeContents v tag info⟩

/-- The hover at an offset in the node of a known tag. -/
def ofNode (v : Vocabulary) (n : Node) (tag : Text) (offset : Nat) : Option Hover :=
  match n.nameSpan.filter (·.touches offset), n.endNameSpan.filter (·.touches offset) with
  | some span, _ => some ⟨span, tagContents v tag (['<'] ++ tag ++ ['>'])⟩
  | none, some span => some ⟨span, tagContents v tag (['<', '/'] ++ tag ++ ['>'])⟩
  | none, none => ofAttribute v n tag offset

end Hover

/-- The hover at an offset; none where there is no name or the vocabulary does not know the tag. -/
def Document.hover (d : Document) (v : Vocabulary) (offset : Nat) : Option Hover := do
  let n := d.node (← d.nodeAt offset)
  let tag ← n.tag
  if v.isKnownTag tag then Hover.ofNode v n tag offset else none

end MarkupAnalysis
