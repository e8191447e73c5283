import MarkupAnalysis.Completion.AttributeProposals
import MarkupAnalysis.Completion.Cursor

/-! # Completion

* **`CompletionRequest.candidates`** — the proposals for the place that the cursor is at.
* **`Document.complete`** — the proposals at an offset, best first. The document may be that of an earlier
  text; where an offset of it does not fit the text, there is no answer. -/

namespace MarkupAnalysis

/-- The proposals for the place that the cursor is at. -/
def CompletionRequest.candidates (r : CompletionRequest) (cursor : Cursor) :
    Except StaleDocument (List Candidate) :=
  match cursor.place with
  | .newTag name bracket =>
    (r.closeTagCandidates name true).map (r.openTagCandidates name bracket ++ ·)
  | .tagName name bracket => .ok (r.openTagCandidates name bracket)
  | .endTag name => r.closeTagCandidates name false
  | .attributeName name => .ok (r.attributeCandidates cursor.tag name)
  | .attributeValue value => .ok (r.valueCandidates cursor.tag cursor.attributeName value)
  | .afterStartTag tag stop => .ok (r.autoCloseCandidates tag stop)
  | .elsewhere => .ok []

/-- The proposals at an offset of a text, best first; none at an offset that is no character boundary or
past the end of the document. -/
def Document.complete (d : Document) (t : Text) (v : Vocabulary) (options : CompletionOptions)
    (offset : Nat) : Except StaleDocument (List Suggestion) :=
  if t.isBoundary offset then
    match d.nodeBefore offset with
    | none => .ok []
    | some node =>
      let r : CompletionRequest := ⟨t, d, offset, v, options, node⟩
      let cursor := Cursor.locate v t (d.node node).start offset
      (r.candidates cursor).map (rank t offset)
  else .ok []

end MarkupAnalysis
