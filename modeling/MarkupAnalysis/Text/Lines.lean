import MarkupAnalysis.Bisection
import MarkupAnalysis.Text.Basic

/-! # Lines

A line feed, a carriage return and both together end a line. Lines are counted from zero.

* **`Lines.of`** — the offsets at which the lines of a text start.
* **`Lines.lineOf`** — the line that an offset is in; an offset past the end is in the last one. -/

namespace MarkupAnalysis

/-- The offsets at which the lines of a text start. -/
structure Lines where
  /-- The offsets in order; the first line starts at `0`. -/
  starts : Array Nat
deriving DecidableEq, Repr

namespace Lines

/-- The starts of the lines behind `offset`, which is the offset of the given text. -/
def startsBehind (offset : Nat) : Text → List Nat
  | [] => []
  | '\r' :: '\n' :: cs => (offset + 2) :: startsBehind (offset + 2) cs
  | c :: cs =>
    let next := offset + c.utf8Size
    if c = '\r' || c = '\n' then next :: startsBehind next cs else startsBehind next cs

/-- The lines of a text. -/
def of (t : Text) : Lines := ⟨(0 :: startsBehind 0 t).toArray⟩

/-- The line that an offset is in. -/
def lineOf (lines : Lines) (offset : Nat) : Nat := bisect (fun start => start ≤ offset) lines.starts - 1

/-- The offset at which a line starts. -/
def lineStart? (lines : Lines) (line : Nat) : Option Nat := lines.starts[line]?

/-- The number of lines. -/
def count (lines : Lines) : Nat := lines.starts.size

end Lines

end MarkupAnalysis
