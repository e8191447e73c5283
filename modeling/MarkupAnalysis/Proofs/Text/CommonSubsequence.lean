import Mathlib.Data.List.Basic
import Mathlib.Data.List.Induction
import Mathlib.Order.Bounds.Basic
import Mathlib.Tactic.Common
import MarkupAnalysis.Text.Similarity

/-! # Longest common subsequences

The table has a cell for each first part of one text and each first part of the other; it holds the greatest
length of a common subsequence of the two. A cell follows from the three before it, which are in the row above
and to the left. Of a row that is filled again only the cells up to the last one filled count: each of the
others is filled before it is read, the first one apart, which is zero in every row.

* **`Text.commonLengths`** — the lengths of common subsequences.
* **`Text.isGreatest_cell`** — a cell by the three before it.
* **`Text.CommonRows.isRow_fill`** — one row is filled from the row above.
* **`Text.CommonRows.holds_advance`**, **`Text.CommonRows.holds_foldl`** — what holds of the rows after each
  character of the first text.
* **`Text.isGreatest_commonLength`** — the last cell. -/

namespace MarkupAnalysis.Text

variable {s t rest common : Text} {a b : Char} {length place : Nat}

/-! ## Common subsequences -/

/-- **The lengths of common subsequences** of two texts. -/
def commonLengths (s t : Text) : Set Nat :=
  {n | ∃ common : Text, common.Sublist s ∧ common.Sublist t ∧ common.length = n}

/-- The order of the two texts does not matter. -/
theorem commonLengths_comm (s t : Text) : commonLengths s t = commonLengths t s := by
  have swap (s t : Text) : commonLengths s t ⊆ commonLengths t s := by
    rintro n ⟨common, first, second, rfl⟩
    exact ⟨common, second, first, rfl⟩
  exact Set.Subset.antisymm (swap s t) (swap t s)

/-- Only the empty text is a subsequence of the empty text. -/
theorem isGreatest_commonLengths_nil (s : Text) : IsGreatest (commonLengths s []) 0 := by
  refine ⟨⟨[], List.nil_sublist s, List.nil_sublist [], rfl⟩, ?_⟩
  rintro n ⟨common, -, none_left, rfl⟩
  rw [List.sublist_nil.mp none_left]
  exact Nat.le_refl 0

/-- A subsequence of a text with one more character ends in that character, or it is one of the text. -/
theorem sublist_concat_iff :
    common.Sublist (s ++ [a]) ↔ common.Sublist s ∨ ∃ front, common = front ++ [a] ∧ front.Sublist s := by
  rw [List.sublist_append_iff]
  constructor
  · rintro ⟨front, last, rfl, first, last_one⟩
    rcases List.sublist_singleton.mp last_one with rfl | rfl
    · exact .inl (by simpa using first)
    · exact .inr ⟨front, rfl, first⟩
  · rintro (first | ⟨front, rfl, first⟩)
    · exact ⟨common, [], by simp, first, List.nil_sublist _⟩
    · exact ⟨front, [a], rfl, first, List.Sublist.refl _⟩

/-- Without its last character it is a subsequence of the text. -/
theorem dropLast_sublist_of_concat (h : common.Sublist (s ++ [a])) : common.dropLast.Sublist s := by
  rcases sublist_concat_iff.mp h with inside | ⟨front, rfl, inside⟩
  · exact (List.dropLast_sublist common).trans inside
  · rwa [List.dropLast_concat]

/-- A character at the end of both texts belongs to a longest common subsequence. -/
theorem isGreatest_concat_same {n : Nat} (h : IsGreatest (commonLengths s t) n) :
    IsGreatest (commonLengths (s ++ [a]) (t ++ [a])) (n + 1) := by
  obtain ⟨⟨common, first, second, rfl⟩, longest⟩ := h
  refine ⟨⟨common ++ [a], first.append (.refl [a]), second.append (.refl [a]), by simp⟩, ?_⟩
  rintro _ ⟨other, first', second', rfl⟩
  have shorter : other.dropLast.length ≤ common.length :=
    longest ⟨_, dropLast_sublist_of_concat first', dropLast_sublist_of_concat second', rfl⟩
  rw [List.length_dropLast] at shorter
  omega

/-- Of two different characters at the ends of the texts one does not belong to it. -/
theorem isGreatest_concat_other {n m : Nat} (other : a ≠ b)
    (up : IsGreatest (commonLengths s (t ++ [b])) n) (left : IsGreatest (commonLengths (s ++ [a]) t) m) :
    IsGreatest (commonLengths (s ++ [a]) (t ++ [b])) (max n m) := by
  constructor
  · rcases Nat.le_total n m with le | le
    · obtain ⟨common, first, second, rfl⟩ := left.1
      rw [Nat.max_eq_right le]
      exact ⟨common, first, second.trans (List.sublist_append_left t [b]), rfl⟩
    · obtain ⟨common, first, second, rfl⟩ := up.1
      rw [Nat.max_eq_left le]
      exact ⟨common, first.trans (List.sublist_append_left s [a]), second, rfl⟩
  · rintro _ ⟨common, first, second, rfl⟩
    rcases sublist_concat_iff.mp first with without | ⟨front, whole, -⟩
    · exact Nat.le_trans (up.2 ⟨common, without, second, rfl⟩) (Nat.le_max_left n m)
    rcases sublist_concat_iff.mp second with without | ⟨front', whole', -⟩
    · exact Nat.le_trans (left.2 ⟨common, first, without, rfl⟩) (Nat.le_max_right n m)
    · rw [whole] at whole'
      exact absurd (List.singleton_inj.mp (List.append_inj_right' whole' rfl)) other

/-- **A cell of the table** follows from the one at its corner, the one above it and the one to its left. -/
theorem isGreatest_cell {corner up left : Nat} (at_corner : IsGreatest (commonLengths s t) corner)
    (above : IsGreatest (commonLengths s (t ++ [b])) up)
    (before : IsGreatest (commonLengths (s ++ [a]) t) left) :
    IsGreatest (commonLengths (s ++ [a]) (t ++ [b])) (if a = b then corner + 1 else max up left) := by
  split_ifs with same
  · rw [← same]
    exact isGreatest_concat_same at_corner
  · exact isGreatest_concat_other same above before

/-! ## Rows -/

namespace CommonRows

/-- **The cells of a row** up to a place are the greatest lengths of common subsequences of a text and the first
parts of the other. Behind the place there may be anything. -/
def IsRow (s t : Text) (row : Vector Nat (length + 1)) (place : Nat) : Prop :=
  ∀ j (inside : j < length + 1), j ≤ place → IsGreatest (commonLengths s (t.take j)) row[j]

/-- One more cell. -/
theorem IsRow.set {above row : Vector Nat (length + 1)} (inside : place + 1 < length + 1)
    (ahead : t.drop place = b :: rest) (filled : IsRow s t above (place + 1))
    (begun : IsRow (s ++ [a]) t row place) :
    IsRow (s ++ [a]) t
      (row.set (place + 1) (if a = b then above[place] + 1 else max above[place + 1] row[place]))
      (place + 1) := by
  have next : t.take (place + 1) = t.take place ++ [b] := by
    rw [List.take_add_one, ← List.head?_drop, ahead]
    rfl
  intro j inside' le
  -- The cells that are there stay; the new one follows from the three before it.
  rcases Nat.lt_or_eq_of_le le with before | rfl
  · rw [Vector.getElem_set_ne _ _ (by omega)]
    exact begun j inside' (Nat.le_of_lt_succ before)
  · have above_it := filled (place + 1) inside' (Nat.le_refl _)
    rw [next] at above_it
    rw [Vector.getElem_set_self, next]
    exact isGreatest_cell (filled place _ (Nat.le_succ place)) above_it (begun place _ (Nat.le_refl _))

/-- **A row is filled** from the row above, whatever it held behind the cells that it has. -/
theorem isRow_fill {above row : Vector Nat (length + 1)} (bound : place + rest.length ≤ length)
    (ahead : t.drop place = rest) (filled : IsRow s t above (place + rest.length))
    (begun : IsRow (s ++ [a]) t row place) :
    IsRow (s ++ [a]) t (fill a above place rest bound row) (place + rest.length) := by
  -- The induction is on the characters that have no cells yet.
  induction rest generalizing place row with
  | nil => exact begun
  | cons b rest ih =>
    have places : place + (b :: rest).length = place + 1 + rest.length := by
      rw [List.length_cons]
      omega
    rw [places] at filled ⊢
    have filled_here : IsRow s t above (place + 1) := fun j inside le => filled j inside (by omega)
    have ahead' : t.drop (place + 1) = rest := by rw [← List.tail_drop, ahead, List.tail_cons]
    exact ih (places ▸ bound) ahead' filled (filled_here.set (by omega) ahead begun)

/-- **What holds of the two rows** after the characters of a text: the row that was filled last has all its
cells, and the first cell of the other one is zero. -/
structure Holds (s t : Text) (rows : CommonRows t.length) : Prop where
  /-- The row that was filled last has all its cells. -/
  filled : IsRow s t rows.filled t.length
  /-- The first cell of the other one is zero. -/
  spare : rows.spare[0] = 0

/-- Before the first character both rows are blank. -/
theorem holds_blank (t : Text) : Holds [] t ⟨.replicate (t.length + 1) 0, .replicate (t.length + 1) 0⟩ where
  filled := by
    intro j inside le
    rw [Vector.getElem_replicate, commonLengths_comm]
    exact isGreatest_commonLengths_nil _
  spare := Vector.getElem_replicate _

/-- **One more character** of the first text. -/
theorem holds_advance {rows : CommonRows t.length} (h : Holds s t rows) (a : Char) :
    Holds (s ++ [a]) t (rows.advance t a) where
  filled := by
    -- What an earlier row has left in the spare one counts for its first cell only.
    have begun : IsRow (s ++ [a]) t rows.spare 0 := by
      intro j inside le
      obtain rfl : j = 0 := Nat.le_zero.mp le
      rw [h.spare]
      exact isGreatest_commonLengths_nil _
    have filled : IsRow s t rows.filled (0 + t.length) := by
      rw [Nat.zero_add]
      exact h.filled
    have row := isRow_fill (Nat.le_of_eq (Nat.zero_add _)) List.drop_zero filled begun
    exact fun j inside le => row j inside (by omega)
  -- The rows change places: the spare one is now the row above.
  spare := (h.filled 0 _ (Nat.zero_le _)).unique (isGreatest_commonLengths_nil s)

/-- **All characters** of the first text. -/
theorem holds_foldl (s t : Text) :
    Holds s t (s.foldl (advance t) ⟨.replicate (t.length + 1) 0, .replicate (t.length + 1) 0⟩) := by
  induction s using List.reverseRecOn with
  | nil => exact holds_blank t
  | append_singleton s a ih =>
    rw [List.foldl_concat]
    exact holds_advance ih a

end CommonRows

/-! ## The last cell -/

/-- **The table ends in the greatest length** of a common subsequence. -/
theorem isGreatest_commonLength (s t : Text) : IsGreatest (commonLengths s t) (commonLength s t) := by
  have last := (CommonRows.holds_foldl s t).filled t.length (Nat.lt_succ_self _) (Nat.le_refl _)
  rwa [List.take_length] at last

/-- The texts may be swapped. -/
theorem commonLength_comm (s t : Text) : commonLength s t = commonLength t s := by
  have greatest := isGreatest_commonLength s t
  rw [commonLengths_comm] at greatest
  exact greatest.unique (isGreatest_commonLength t s)

/-- A common subsequence is no longer than the first text. -/
theorem commonLength_le_left (s t : Text) : commonLength s t ≤ s.length := by
  obtain ⟨common, first, -, length⟩ := (isGreatest_commonLength s t).1
  rw [← length]
  exact first.length_le

/-- The greatest length of a common subsequence is that of the first text if that is a subsequence of the other
one. -/
theorem commonLength_eq_left_iff (s t : Text) : commonLength s t = s.length ↔ s.Sublist t := by
  obtain ⟨⟨common, first, second, length⟩, longest⟩ := isGreatest_commonLength s t
  constructor
  · intro whole
    rwa [← first.eq_of_length (length.trans whole)]
  · intro inside
    exact Nat.le_antisymm (commonLength_le_left s t) (longest ⟨s, .refl s, inside, rfl⟩)

/-- **The shorter text bounds the length**, which reaches it exactly if that text is a subsequence of the longer
one. -/
theorem commonLength_eq_min_iff (s t : Text) : commonLength s t = min s.length t.length ↔
    if s.length ≤ t.length then s.Sublist t else t.Sublist s := by
  split_ifs with shorter
  · rw [Nat.min_eq_left shorter, commonLength_eq_left_iff]
  · rw [Nat.min_eq_right (Nat.le_of_not_le shorter), commonLength_comm, commonLength_eq_left_iff]

end MarkupAnalysis.Text
