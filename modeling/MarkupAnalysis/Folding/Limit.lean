import MarkupAnalysis.Folding.Basic

/-! # Limiting folding ranges

Where there are more ranges than wanted, the deepest levels are dropped first. Of the first level that
does not fit whole, the earlier ranges are kept.

* **`levels`** — how deep each range is nested.
* **`wholeLevels`** — how many levels fit whole.
* **`limitRanges`** — the ranges that are kept.
* **`Document.foldingRanges`** — the ranges of a document. -/

namespace MarkupAnalysis

namespace FoldingRange

/-- The level of each range in order, given the last lines of the ranges around, innermost first. A range
ends before every range that starts on a later line than its last one. -/
def levelsWithin : (around : List Nat) → List FoldingRange → List Nat
  | _, [] => []
  | around, range :: ranges =>
    let around := around.dropWhile (· < range.startLine)
    around.length :: levelsWithin (range.stopLine :: around) ranges

/-- The level of each range. -/
def levels (ranges : List FoldingRange) : List Nat := levelsWithin [] ranges

/-- How many of the levels from `level` on fit whole into the room, and the room that they leave. -/
def wholeLevels (levels : List Nat) : (more level room : Nat) → Nat × Nat
  | 0, level, room => (level, room)
  | more + 1, level, room =>
    let count := levels.count level
    if room < count then (level, room) else wholeLevels levels more (level + 1) (room - count)

/-- The ranges above the level `cutoff`, and as many of that level as there is room for. -/
def keep (cutoff : Nat) : (room : Nat) → List (FoldingRange × Nat) → List FoldingRange
  | _, [] => []
  | room, (range, level) :: ranges =>
    if level < cutoff then range :: keep cutoff room ranges
    else if level = cutoff && 0 < room then range :: keep cutoff (room - 1) ranges
    else keep cutoff room ranges

/-- At most `limit` ranges, the deepest levels dropped first. -/
def limitRanges (ranges : List FoldingRange) (limit : Nat) : List FoldingRange :=
  let levels := levels ranges
  let (cutoff, room) := wholeLevels levels (levels.foldl max 0 + 1) 0 limit
  keep cutoff room (ranges.zip levels)

end FoldingRange

/-- The folding ranges of a document, in order, and no more than the limit says. -/
def Document.foldingRanges [Text.WordClass] (d : Document) (t : Text) (limit : Option Nat) :
    List FoldingRange :=
  let ranges := d.unlimitedFolding t
  match limit with
  | some limit => if limit < ranges.length then FoldingRange.limitRanges ranges limit else ranges
  | none => ranges

end MarkupAnalysis
