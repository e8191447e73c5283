import MarkupAnalysis.Text.Basic

/-! # Similarity of names

Two names are as similar as their longest common subsequence is long, less the square root of the
difference of their lengths. Scores are kept as these two whole numbers, compared without rounding, and
written with six decimals.

* **`Text.CommonRows`** — two rows of the table of common lengths.
* **`Text.commonLength`** — the length of the longest common subsequence, by filling the table row by row.
* **`Similarity`**, **`Similarity.of`** — the score.
* **`Similarity.less`** — the order of scores.
* **`Similarity.decimal`** — the score with six decimals. -/

namespace MarkupAnalysis

namespace Text

/-! ## Longest common subsequences -/

/-- The two rows of the table that are kept. They take turns: a row is filled over what an earlier one has
left in it. -/
structure CommonRows (length : Nat) where
  /-- The row that has been filled last. -/
  filled : Vector Nat (length + 1)
  /-- The row that is filled next. -/
  spare : Vector Nat (length + 1)

namespace CommonRows

/-- Fills a row for the character `a` of the first text, one cell for each character of the second text;
`place` counts those that have their cells. The row `above` has been filled before. -/
def fill {length : Nat} (a : Char) (above : Vector Nat (length + 1)) :
    (place : Nat) → (rest : Text) → place + rest.length ≤ length → (row : Vector Nat (length + 1)) →
      Vector Nat (length + 1)
  | _, [], _, row => row
  | place, b :: rest, bound, row =>
    have bound : place + 1 + rest.length ≤ length := by
      rw [List.length_cons] at bound
      omega
    let cell := if a = b then above[place] + 1 else max above[place + 1] row[place]
    fill a above (place + 1) rest bound (row.set (place + 1) cell)

/-- The rows after one more character of the first text. -/
def advance (t : Text) (rows : CommonRows t.length) (a : Char) : CommonRows t.length :=
  ⟨fill a rows.filled 0 t (Nat.le_of_eq (Nat.zero_add _)) rows.spare, rows.filled⟩

end CommonRows

/-- The length of the longest common subsequence of two texts. -/
def commonLength (s t : Text) : Nat :=
  let blank := Vector.replicate (t.length + 1) 0
  (s.foldl (CommonRows.advance t) ⟨blank, blank⟩).filled[t.length]

end Text

/-! ## Scores -/

/-- The score `common - √gap`. -/
structure Similarity where
  /-- The length of the longest common subsequence. -/
  common : Nat
  /-- The difference of the lengths. -/
  gap : Nat
deriving DecidableEq, Repr

namespace Similarity

/-- The score of two names; names whose lengths differ by more than `largestGap` score zero. -/
def of (largestGap : Nat) (s t : Text) : Similarity :=
  let gap := (s.length - t.length) + (t.length - s.length)
  if largestGap < gap then ⟨0, 0⟩ else ⟨Text.commonLength s t, gap⟩

/-- Whether `k + √a < √b`, decided by squaring. -/
def rootsLess (k : Int) (a b : Nat) : Bool :=
  if 0 ≤ k then
    let rest := (b : Int) - a - k * k
    -- both sides squared: `2 k √a < rest`, and once more
    0 < rest && 4 * k * k * a < rest * rest
  else
    let rest := (a : Int) - b - k * k
    -- with `k` on the other side: `√a < √b - k`, squared: `rest < -2 k √b`
    rest < 0 || rest * rest < 4 * k * k * b

/-- Whether a score is below another one. -/
def less (x y : Similarity) : Bool := rootsLess ((x.common : Int) - y.common) y.gap x.gap

/-! ## Decimals -/

/-- The whole part of the square root. -/
def wholeRoot (n : Nat) : Nat :=
  if h : n = 0 then 0
  else
    let root := 2 * wholeRoot (n / 4)
    if (root + 1) * (root + 1) ≤ n then root + 1 else root
termination_by n
decreasing_by omega

/-- The whole number nearest to the square root. -/
def nearestRoot (n : Nat) : Nat :=
  let root := wholeRoot n
  if root * root + root < n then root + 1 else root

/-- The score in millionths, rounded to the nearest one. -/
def millionths (x : Similarity) : Int := (x.common : Int) * 1000000 - nearestRoot (x.gap * Nat.pow 10 12)

/-- The score with six decimals. -/
def decimal (x : Similarity) : String :=
  let amount := x.millionths.natAbs
  let places := toString (amount % 1000000)
  (if x.millionths < 0 then "-" else "") ++ toString (amount / 1000000) ++ "."
    ++ String.ofList (List.replicate (6 - places.length) '0') ++ places

end Similarity

end MarkupAnalysis
