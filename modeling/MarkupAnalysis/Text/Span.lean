import MarkupAnalysis.Text.Basic

/-! # Spans

A span is a half-open range of byte offsets. Nothing keeps its start from lying past its end: a span may
also come from outside.

* **`Span.touches`** — a cursor at either edge still touches the span.
* **`Span.covers`** — one span lies inside another.
* **`Text.slice?`** — the text of a span, where both ends are character boundaries. -/

namespace MarkupAnalysis

/-- A half-open range of byte offsets. -/
structure Span where
  /-- The offset of the first byte. -/
  start : Nat
  /-- The offset just past the last byte. -/
  stop : Nat
deriving DecidableEq, Repr, Inhabited

namespace Span

/-- The number of bytes of the span. -/
def length (s : Span) : Nat := s.stop - s.start

/-- Whether the span holds no byte. -/
def isEmpty (s : Span) : Bool := s.start == s.stop

/-- A cursor at either edge touches the span. -/
def touches (s : Span) (offset : Nat) : Bool := s.start ≤ offset && offset ≤ s.stop

/-- Whether the span covers every byte of `inner`. -/
def covers (s inner : Span) : Bool := s.start ≤ inner.start && inner.stop ≤ s.stop

/-- Spans are ordered by their start, then by their end. -/
instance : Ord Span where
  compare a b := (compare a.start b.start).then (compare a.stop b.stop)

/-- Every span covers itself. -/
@[simp] theorem covers_self (s : Span) : s.covers s = true := by simp [covers]

/-- A span inside a span inside a third lies inside the third. -/
theorem covers_trans {a b c : Span} (hab : a.covers b = true) (hbc : b.covers c = true) :
    a.covers c = true := by
  simp only [covers, Bool.and_eq_true, decide_eq_true_eq] at *
  omega

end Span

namespace Text

/-- The text of a span; none when it runs backwards, past the end or through a character. -/
def slice? (t : Text) (s : Span) : Option Text :=
  if s.start ≤ s.stop then (t.dropBytes? s.start).bind (takeBytes? · (s.stop - s.start)) else none

/-- The middle one of three adjacent texts is the slice between their byte lengths. -/
theorem slice?_append (before middle behind : Text) :
    slice? (before ++ (middle ++ behind))
      ⟨byteLength before, byteLength before + byteLength middle⟩ = some middle := by
  simp [slice?]

end Text

end MarkupAnalysis
