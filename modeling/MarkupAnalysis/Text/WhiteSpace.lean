import MarkupAnalysis.Text.Basic

/-! # White space

Two classes of blank characters: the five ASCII ones that separate the parts of a tag, and the
twenty-five of the Unicode property `White_Space`, which end names and unquoted values and in front
of which texts are not read.

* **`Text.isAsciiBlank`** and **`Text.isBlank`** — the two classes.
* **`Text.trimStart`** — a text without its leading blanks.
* **`Text.runs`**, **`Text.words`** — the maximal runs without a separator, without a blank. -/

namespace MarkupAnalysis.Text

/-- Space, tab, line feed, form feed and carriage return. -/
def isAsciiBlank (c : Char) : Bool :=
  c = ' ' || c = '\t' || c = '\n' || c = '\x0c' || c = '\r'

/-- The Unicode property `White_Space`. -/
def isBlank (c : Char) : Bool :=
  ('\t' ≤ c && c ≤ '\r') || c = ' ' || c = '\u0085' || c = '\u00a0' || c = '\u1680'
    || ('\u2000' ≤ c && c ≤ '\u200a') || c = '\u2028' || c = '\u2029' || c = '\u202f'
    || c = '\u205f' || c = '\u3000'

/-- An ASCII blank is a blank. -/
theorem isBlank_of_isAsciiBlank {c : Char} (h : isAsciiBlank c = true) : isBlank c = true := by
  simp only [isAsciiBlank, Bool.or_eq_true, decide_eq_true_eq] at h
  rcases h with (((rfl | rfl) | rfl) | rfl) | rfl <;> decide

/-- The text without its leading blanks. -/
def trimStart (t : Text) : Text := t.dropWhile isBlank

/-- The maximal runs of characters that do not separate, in order. -/
def runs (separates : Char → Bool) (t : Text) : List Text :=
  (t.splitBy fun a b => separates a == separates b).filter fun run => !run.any separates

/-- The maximal runs of characters that are not blank, in order. -/
def words (t : Text) : List Text := runs isBlank t

end MarkupAnalysis.Text
