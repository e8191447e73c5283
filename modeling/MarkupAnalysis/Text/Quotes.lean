import MarkupAnalysis.Text.Basic

/-! # Quotes

Attribute values are recorded with their quotes. A quote that opens a value is removed together with the
same quote at its end; a value that the end of the text cuts off has only the first one. -/

namespace MarkupAnalysis.Text

/-- Whether the character quotes values. -/
def isQuote (c : Char) : Bool := c = '\x22' || c = '\''

/-- The text without its last character if that is `c`. -/
def withoutLast (c : Char) (t : Text) : Text := if t.getLast? = some c then t.dropLast else t

/-- The value without the quote that opens it and, where there is one, the same quote at its end. -/
def stripQuotes : Text → Text
  | [] => []
  | c :: cs => if isQuote c then withoutLast c cs else c :: cs

/-- Whether the value opens with a quote. -/
def isQuoted (t : Text) : Bool := t.head?.any isQuote

/-- What is left without the last character is a first part. -/
theorem withoutLast_prefix (c : Char) (t : Text) : withoutLast c t <+: t := by
  unfold withoutLast
  split
  · exact List.dropLast_prefix t
  · exact List.prefix_refl t

/-- A value that opens without a quote stays as it is. -/
theorem stripQuotes_of_not_isQuoted {t : Text} (h : isQuoted t = false) : stripQuotes t = t := by
  cases t with
  | nil => rfl
  | cons c cs => simp_all [isQuoted, stripQuotes]

end MarkupAnalysis.Text
