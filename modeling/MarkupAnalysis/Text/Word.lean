import MarkupAnalysis.Bisection
import MarkupAnalysis.Text.WordTable
import MarkupAnalysis.Text.Basic

/-! # Word characters

Letters, marks, decimal digits, connecting punctuation and joining controls make up words, in every
script. Which characters these are is up to a version of Unicode; all versions agree on the ASCII ones. A word
ends where no word character follows.

* **`Text.WordClass`** — a class of word characters; `Text.WordClass.unicode` is that of the table.
* **`Text.endsWord`** — whether a word that has just been read ends here. -/

namespace MarkupAnalysis.Text

/-- A class of characters that make up words. -/
class WordClass where
  /-- Whether the character belongs to a word. -/
  isWord : Char → Bool
  /-- Of the ASCII characters the letters, the digits and the underscore belong to words. -/
  isWord_of_ascii : ∀ c, c.toNat < 128 → isWord c = (c.isAlphanum || c == '_')

export WordClass (isWord isWord_of_ascii)

/-- Whether the character is in one of the ranges: the last one that starts no later must reach it. -/
def isInRanges (ranges : Array (Nat × Nat)) (c : Char) : Bool :=
  match bisect (fun range => range.1 ≤ c.toNat) ranges with
  | 0 => false
  | count + 1 => ranges[count]?.any fun range => c.toNat ≤ range.2

/-- The word characters of the table. -/
instance WordClass.unicode : WordClass where
  isWord := isInRanges wordRanges
  isWord_of_ascii c ascii := by
    have each : ∀ n < 128, isInRanges wordRanges (Char.ofNat n) =
        ((Char.ofNat n).isAlphanum || Char.ofNat n == '_') := by
      decide +kernel
    simpa only [Char.ofNat_toNat] using each c.toNat ascii

/-- Whether a word that reaches up to this text is complete. -/
def endsWord [WordClass] (rest : Text) : Bool := !rest.head?.any isWord

end MarkupAnalysis.Text
