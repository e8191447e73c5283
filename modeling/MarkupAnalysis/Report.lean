import MarkupAnalysis.Completion.Suggestion
import MarkupAnalysis.Document.Position
import MarkupAnalysis.Folding.Basic
import MarkupAnalysis.Hover
import MarkupAnalysis.Json.Writer
import MarkupAnalysis.Link.Basic
import MarkupAnalysis.Outline
import MarkupAnalysis.Token.Basic

/-! # Reports

The answers of the library in JSON, as the command line prints them: records with a field for each part.
Parts that are often missing have no field then; others are `null`. -/

namespace MarkupAnalysis

open Json

/-- A span. -/
def Span.toJson (s : Span) : Json := record [("start", ofNat s.start), ("end", ofNat s.stop)]

/-- A token. -/
def Token.toJson (t : Token) : Json :=
  record <|
    [("kind", ofName t.kind.name), ("span", t.span.toJson), ("text", ofText t.text)]
      ++ optionalField "error" (ofName ·.name) t.error

/-! ## Documents -/

/-- An attribute. -/
def Attribute.toJson (a : Attribute) : Json :=
  record
    [("name", ofText a.name), ("value", ofOption (ofText ·.text) a.value),
      ("name_span", a.nameSpan.toJson), ("value_span", ofOption (·.span.toJson) a.value)]

/-- A node. -/
def Node.toJson (n : Node) : Json :=
  record
    [("tag", ofOption ofText n.tag), ("start", ofNat n.start), ("end", ofNat n.stop),
      ("start_tag_end", ofOption ofNat n.startTagEnd),
      ("end_tag_start", ofOption ofNat n.endTagStart),
      ("name_span", ofOption Span.toJson n.nameSpan),
      ("end_name_span", ofOption Span.toJson n.endNameSpan),
      ("attributes", ofList Attribute.toJson n.attributes.toList),
      ("children", ofList ofNat n.children.toList), ("parent", ofOption ofNat n.parent),
      ("closed", bool n.closed), ("self_closing", bool n.selfClosing)]

/-- A comment. -/
def Comment.toJson (c : Comment) : Json :=
  record [("span", c.span.toJson), ("content", c.content.toJson)]

/-- A document. -/
def Document.toJson (d : Document) : Json :=
  record
    [("nodes", ofList Node.toJson d.nodes.toList),
      ("comments", ofList Comment.toJson d.comments.toList), ("text_len", ofNat d.textLength)]

/-! ## Answers -/

/-- A score with six decimals. -/
def Similarity.toJson (s : Similarity) : Json :=
  let amount := s.millionths.natAbs
  let places := digitsOf (amount % 1000000)
  number
    { isNegative := s.millionths < 0
      integer := digitsOf (amount / 1000000)
      fraction := List.replicate (6 - places.length) 0 ++ places }

/-- A suggestion. -/
def Suggestion.toJson (s : Suggestion) : Json :=
  record <|
    [("label", ofText s.label), ("insert_text", ofText s.insertText), ("kind", ofName s.kind.name),
      ("sort_score", s.score.toJson), ("replace", s.replace.toJson)]
      ++ optionalField "filter_text" ofText s.filterText ++ [("snippet", bool s.isSnippet)]

/-- A folding range. -/
def FoldingRange.toJson (r : FoldingRange) : Json :=
  record <|
    [("start", ofNat r.start), ("end", ofNat r.stop), ("start_line", ofNat r.startLine),
      ("end_line", ofNat r.stopLine)]
      ++ optionalField "kind" (ofName ·.name) r.kind

mutual

/-- A symbol with the symbols inside it. -/
def Symbol.toJson : Symbol → Json
  | .mk name kind range selectionRange children =>
    record <|
      [("name", ofText name), ("kind", ofName kind.name), ("range", range.toJson),
        ("selection_range", selectionRange.toJson)]
        ++ (if children.isEmpty then [] else [("children", array (Symbol.listToJson children))])

/-- Some symbols. -/
def Symbol.listToJson : List Symbol → List Json
  | [] => []
  | symbol :: symbols => symbol.toJson :: Symbol.listToJson symbols

end

/-- A symbol of the flat outline. -/
def FlatSymbol.toJson (s : FlatSymbol) : Json :=
  record <|
    [("name", ofText s.name), ("kind", ofName s.kind.name), ("range", s.range.toJson)]
      ++ optionalField "container_name" ofText s.containerName

/-- What a link leads to. -/
def LinkTarget.toJson : LinkTarget → Json
  | uri value => record [("type", ofName "uri"), ("value", ofText value)]
  | offset value => record [("type", ofName "offset"), ("value", ofNat value)]

/-- A link. -/
def Link.toJson (l : Link) : Json := record [("span", l.span.toJson), ("target", l.target.toJson)]

/-- A hover. -/
def Hover.toJson (h : Hover) : Json :=
  record [("span", h.span.toJson), ("contents", ofText h.contents)]

/-- A name with the name on the other side. -/
def Document.MatchingTag.toJson (m : Document.MatchingTag) : Json :=
  record
    [("node", ofNat m.node), ("current", m.current.toJson), ("counterpart", m.counterpart.toJson)]

end MarkupAnalysis
