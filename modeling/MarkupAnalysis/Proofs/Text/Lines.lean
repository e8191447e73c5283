import Mathlib.Data.List.Basic
import MarkupAnalysis.Text.Lines

/-! # Lines and offsets

The starts of lines are in order, so the line of an offset counts those that come no later than it.

* **`Lines.starts_pairwise`** — each line starts behind the one before it.
* **`Lines.exists_split_lineOf`** — the lines before an offset and behind it.
* **`Lines.lineOf_add_one`** — the line of an offset as a count.
* **`Lines.lineOf_mono`** — later offsets are in no earlier lines. -/

namespace MarkupAnalysis.Lines

/-- Lines start behind the offset at which the search for them starts, one behind the other. -/
theorem startsBehind_pairwise (offset : Nat) (t : Text) :
    (offset :: startsBehind offset t).Pairwise (· < ·) := by
  have further {offset next : Nat} {starts : List Nat} (ordered : (next :: starts).Pairwise (· < ·))
      (advance : offset < next) : (offset :: next :: starts).Pairwise (· < ·) := by
    refine List.pairwise_cons.mpr ⟨fun start mem => ?_, ordered⟩
    rcases List.mem_cons.mp mem with rfl | later
    · exact advance
    · exact Nat.lt_trans advance (List.rel_of_pairwise_cons ordered later)
  -- The recursion of the search: no text, both characters that end a line, one of them, any other one.
  induction offset, t using startsBehind.induct with
  | case1 offset => exact List.pairwise_singleton _ _
  | case2 offset cs ih =>
    rw [startsBehind]
    exact further ih (by omega)
  | case3 offset c cs not_both next ends ih =>
    rw [startsBehind, if_pos ends]
    · exact further ih (Nat.lt_add_of_pos_right c.utf8Size_pos)
    · exact not_both
  | case4 offset c cs not_both next goes_on ih =>
    rw [startsBehind, if_neg goes_on]
    · exact (further ih (Nat.lt_add_of_pos_right c.utf8Size_pos)).sublist
        ((List.sublist_cons_self _ _).cons_cons offset)
    · exact not_both

/-- **Each line starts behind the one before it.** -/
theorem starts_pairwise (t : Text) : (of t).starts.toList.Pairwise (· < ·) :=
  startsBehind_pairwise 0 t

/-- **An offset splits the lines** into those that start at it or before it, the last of which it is in, and
those that start behind it. -/
theorem exists_split_lineOf (t : Text) (offset : Nat) :
    ∃ first later, (of t).starts.toList = first ++ later ∧ (of t).lineOf offset + 1 = first.length ∧
      bisect (fun start => start ≤ offset) (of t).starts = first.length ∧
      (∀ start ∈ first, start ≤ offset) ∧ ∀ start ∈ later, offset < start := by
  have ordered : (of t).starts.toList.Pairwise fun start later =>
      decide (later ≤ offset) = true → decide (start ≤ offset) = true := by
    refine (starts_pairwise t).imp fun {start later} before reached => ?_
    rw [decide_eq_true_eq] at reached ⊢
    omega
  obtain ⟨first, later, split, count, reached, behind⟩ := exists_split_bisect ordered
  simp only [decide_eq_true_eq, decide_eq_false_iff_not, Nat.not_le] at reached behind
  -- The first line starts with the text.
  have some_line : 0 < first.length := by
    cases first with
    | nil =>
      have start : 0 ∈ later := by
        rw [List.nil_append] at split
        rw [← split]
        exact List.mem_cons_self
      exact absurd (behind 0 start) (Nat.not_lt_zero offset)
    | cons start first => exact Nat.succ_pos _
  refine ⟨first, later, split, ?_, count, reached, behind⟩
  rw [lineOf, count]
  omega

/-- **The line of an offset** counts the lines that start at the offset or before it. -/
theorem lineOf_add_one (t : Text) (offset : Nat) :
    (of t).lineOf offset + 1 = (of t).starts.toList.countP (· ≤ offset) := by
  obtain ⟨first, later, split, line, -, reached, behind⟩ := exists_split_lineOf t offset
  rw [line, split, List.countP_append, List.countP_eq_length.mpr, List.countP_eq_zero.mpr, Nat.add_zero]
  · simpa using behind
  · simpa using reached

/-- **Later offsets are in no earlier lines.** -/
theorem lineOf_mono (t : Text) {offset later : Nat} (h : offset ≤ later) :
    (of t).lineOf offset ≤ (of t).lineOf later := by
  have fewer : (of t).starts.toList.countP (· ≤ offset) ≤ (of t).starts.toList.countP (· ≤ later) := by
    refine List.countP_mono_left fun start _ reached => ?_
    rw [decide_eq_true_eq] at reached ⊢
    exact Nat.le_trans reached h
  rw [← lineOf_add_one, ← lineOf_add_one] at fewer
  omega

end MarkupAnalysis.Lines
