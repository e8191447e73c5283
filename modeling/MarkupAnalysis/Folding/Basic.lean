import MarkupAnalysis.Document.Walk
import MarkupAnalysis.Text.Lines
import MarkupAnalysis.Text.WhiteSpace
import MarkupAnalysis.Text.Word

/-! # Folding ranges

What an editor can fold: the content of an element with its end tag, a comment, and a region between two
marker comments. A range must reach a later line, and of the ranges that start on one line only the
innermost is kept.

* **`FoldingRange`** — a range with its lines.
* **`RegionMarker.of?`** — the marker that a comment is.
* **`Document.foldingCandidates`** — all ranges of a document.
* **`Document.unlimitedFolding`** — one range for each line, in order. -/

namespace MarkupAnalysis

/-- What a range folds, other than an element. -/
inductive FoldingKind where
  /-- A comment. -/
  | comment
  /-- A region between two markers. -/
  | region
deriving DecidableEq, Repr

/-- The kind's name as it is written in answers. -/
def FoldingKind.name : FoldingKind → String
  | comment => "Comment"
  | region => "Region"

/-- A range that can be folded. -/
structure FoldingRange where
  /-- The offset of its first byte. -/
  start : Nat
  /-- The offset just past it. -/
  stop : Nat
  /-- The line it starts on. -/
  startLine : Nat
  /-- The line it ends on. -/
  stopLine : Nat
  /-- What it folds; none for an element. -/
  kind : Option FoldingKind
deriving DecidableEq, Repr

/-! ## Regions -/

/-- A comment that opens or ends a region. -/
inductive RegionMarker where
  /-- The marker `#region`. -/
  | opening
  /-- The marker `#endregion`. -/
  | ending
deriving DecidableEq, Repr

/-- The marker that the text of a comment is: after blanks, `#` and one of the two words. -/
def RegionMarker.of? [Text.WordClass] (content : Text) : Option RegionMarker :=
  match Text.trimStart content with
  | '#' :: word =>
    if (Text.after? "region".toList word).any Text.endsWord then some opening
    else if (Text.after? "endregion".toList word).any Text.endsWord then some ending
    else none
  | _ => none

/-! ## Candidates -/

/-- A range that reaches a later line. -/
def foldingRange? (lines : Lines) (kind : Option FoldingKind) (s : Span) : Option FoldingRange :=
  let startLine := lines.lineOf s.start
  let stopLine := lines.lineOf s.stop
  if startLine < stopLine then some ⟨s.start, s.stop, startLine, stopLine, kind⟩ else none

/-- The spans that comments fold, given the starts of the regions that are open, innermost first. A
marker that nothing matches folds nothing. -/
def commentSpans [Text.WordClass] (t : Text) :
    (openRegions : List Nat) → List Comment → List (FoldingKind × Span)
  | _, [] => []
  | openRegions, c :: comments =>
    match t.slice? c.content with
    | none => commentSpans t openRegions comments
    | some content =>
      match RegionMarker.of? content, openRegions with
      | some .opening, openRegions => commentSpans t (c.span.start :: openRegions) comments
      | some .ending, start :: openRegions =>
        (.region, ⟨start, c.span.stop⟩) :: commentSpans t openRegions comments
      | some .ending, [] => commentSpans t [] comments
      | none, openRegions => (.comment, c.span) :: commentSpans t openRegions comments

namespace Document

/-- What the elements fold: from the end of the start tag to the end of the element. -/
def elementSpans (d : Document) : List Span :=
  d.elements.filterMap fun id =>
    (d.node id).startTagEnd.map fun start => ⟨start, (d.node id).stop⟩

/-- All ranges that reach a later line: those of elements, then those of comments and regions. -/
def foldingCandidates [Text.WordClass] (d : Document) (t : Text) : List FoldingRange :=
  let lines := Lines.of t
  d.elementSpans.filterMap (foldingRange? lines none)
    ++ (commentSpans t [] d.comments.toList).filterMap fun (kind, s) =>
      foldingRange? lines (some kind) s

end Document

/-! ## One range for each line -/

namespace FoldingRange

/-- Innermost first within a line: lines in order, then later starts first, then earlier ends first. -/
def innerFirst (a b : FoldingRange) : Bool :=
  a.startLine < b.startLine || (a.startLine = b.startLine
    && (b.start < a.start || (a.start = b.start && a.stop ≤ b.stop)))

/-- Earlier starts first, then later ends first. -/
def outerFirst (a b : FoldingRange) : Bool :=
  a.start < b.start || (a.start = b.start && b.stop ≤ a.stop)

/-- The first range of each run of ranges that start on one line. -/
def firstOfLines : List FoldingRange → List FoldingRange
  | [] => []
  | range :: ranges =>
    range :: (firstOfLines ranges).dropWhile fun next => next.startLine == range.startLine

end FoldingRange

namespace Document

/-- The innermost range of each line, in order; none when the text is not the document's. -/
def unlimitedFolding [Text.WordClass] (d : Document) (t : Text) : List FoldingRange :=
  if t.byteLength = d.textLength then
    (FoldingRange.firstOfLines
      ((d.foldingCandidates t).mergeSort FoldingRange.innerFirst)).mergeSort FoldingRange.outerFirst
  else []

end Document

end MarkupAnalysis
