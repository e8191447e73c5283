import Mathlib.Data.List.TakeWhile
import MarkupAnalysis.Proofs.Text.Boundary

/-! # Looking ahead into a first part

How far runs reach, and what looking ahead finds in the first part of a text: it does not depend on what
follows that part. Two texts `s ++ t` and `s ++ u` have `s` as their common first part.

* **`Text.lengthWhile_append`**, **`Text.lengthUntil_append`** — how far a run reaches.
* **`Text.accepts_of_mem_take`**, **`Text.head?_drop_lengthWhile`** — what a run holds, and what ends it.
* **`Text.not_infix_take_lengthUntil`**, **`Text.cut?_eq_some_iff`** — the first place that is found.
* **`Text.lengthWhile_congr`**, **`Text.lengthUntil_char_congr`** — runs that end in the common part.
* **`Text.Bounded`** — what is found within so many characters.
* **`Text.lengthUntil_append_of_bounded`** — a place that is found stays the first one.
* **`Text.startsWithIgnoringCase_congr`** — a word that would have to reach over a character foreign to
  it. -/

namespace MarkupAnalysis.Text

variable {s t u : Text}

/-! ## Runs -/

/-- A run that nothing behind it continues. -/
theorem lengthWhile_of_ends {accepts : Char → Bool} {run rest : Text}
    (all : ∀ c ∈ run, accepts c = true) (stops : ∀ c ∈ rest.head?, accepts c = false) :
    lengthWhile accepts (run ++ rest) = run.length := by
  have nothing_more : rest.takeWhile accepts = [] := by
    cases rest with
    | nil => rfl
    | cons c rest => exact List.takeWhile_cons_of_neg (by simp [stops c rfl])
  rw [lengthWhile, List.takeWhile_append_of_pos all, nothing_more, List.append_nil]

/-- A run reaches up to the first character that does not belong to it. -/
theorem lengthWhile_append {accepts : Char → Bool} (run : Text)
    (all : ∀ c ∈ run, accepts c = true) {c : Char} (stops : accepts c = false) (rest : Text) :
    lengthWhile accepts (run ++ c :: rest) = run.length := by
  refine lengthWhile_of_ends all fun d head => ?_
  rw [← Option.some.inj head]
  exact stops

/-- What is looked for comes after a text in which it starts nowhere. -/
theorem lengthUntil_append {found : Text → Bool} {run rest : Text}
    (nowhere : ∀ before c after, run = before ++ c :: after → found (c :: after ++ rest) = false) :
    lengthUntil found (run ++ rest) = run.length + lengthUntil found rest := by
  induction run with
  | nil => simp
  | cons c run ih =>
    have first := nowhere [] c run rfl
    have further := ih fun before d after split => nowhere (c :: before) d after (by rw [split]; rfl)
    rw [List.cons_append] at first ⊢
    rw [lengthUntil, first, further, List.length_cons]
    simp only [Bool.false_eq_true, if_false]
    omega

/-- A character is found after a text without it. -/
theorem lengthUntil_char {c : Char} {run : Text} (absent : c ∉ run) (rest : Text) :
    lengthUntil (startsWith [c]) (run ++ rest) =
      run.length + lengthUntil (startsWith [c]) rest := by
  refine lengthUntil_append fun before d after split => ?_
  have other : c ≠ d := by
    rintro rfl
    exact absent (by simp [split])
  simp [startsWith, List.isPrefixOf, other]

/-- The end of a comment is found after a body without one. -/
theorem lengthUntil_commentEnd {body : Text} (absent : ¬ "-->".toList <:+: body) (rest : Text) :
    lengthUntil (startsWith "-->".toList) (body ++ ("-->".toList ++ rest)) = body.length := by
  have here : lengthUntil (startsWith "-->".toList) ("-->".toList ++ rest) = 0 := by
    simp [lengthUntil, startsWith]
  rw [lengthUntil_append, here, Nat.add_zero]
  intro before c after split
  by_contra found
  -- The end of the comment would start in the body: it lies in there, or its bracket is a dash.
  match after with
  | [] => simp [startsWith] at found
  | [d] => simp [startsWith] at found
  | d :: e :: others =>
    obtain ⟨rfl, rfl, rfl⟩ : '-' = c ∧ '-' = d ∧ '>' = e := by simpa [startsWith] using found
    exact absent ⟨before, others, by simp [split]⟩

/-- A place is looked for in the text only. -/
theorem lengthUntil_le (found : Text → Bool) (t : Text) : lengthUntil found t ≤ t.length := by
  induction t with
  | nil => exact Nat.le_refl _
  | cons c t ih =>
    rw [lengthUntil]
    split
    · exact Nat.zero_le _
    · exact Nat.succ_le_succ ih

/-- A run is no longer than the text. -/
theorem lengthWhile_le (accepts : Char → Bool) (t : Text) : lengthWhile accepts t ≤ t.length :=
  (List.takeWhile_sublist _).length_le

theorem take_lengthWhile (accepts : Char → Bool) (t : Text) :
    t.take (lengthWhile accepts t) = t.takeWhile accepts :=
  (List.prefix_iff_eq_take.mp (List.takeWhile_prefix _)).symm

theorem drop_lengthWhile (accepts : Char → Bool) (t : Text) :
    t.drop (lengthWhile accepts t) = t.dropWhile accepts := by
  have whole := (List.take_append_drop (lengthWhile accepts t) t).trans
    (List.takeWhile_append_dropWhile (p := accepts)).symm
  rw [take_lengthWhile] at whole
  exact List.append_cancel_left whole

/-- The run that comes next has accepted characters only. -/
theorem accepts_of_mem_take {accepts : Char → Bool} {c : Char} (mem : c ∈ t.take (lengthWhile accepts t)) :
    accepts c = true :=
  List.mem_takeWhile_imp (take_lengthWhile accepts t ▸ mem)

/-- The run that comes next goes up to a character that is not accepted. -/
theorem head?_drop_lengthWhile (accepts : Char → Bool) (t : Text) :
    ∀ c ∈ (t.drop (lengthWhile accepts t)).head?, accepts c = false := by
  intro c mem
  rw [drop_lengthWhile] at mem
  have stops := List.head?_dropWhile_not accepts t
  rw [mem] at stops
  simpa using stops

/-! ## The place that is found -/

/-- A search stops at what it looks for, or at the end. -/
theorem lengthUntil_stops (found : Text → Bool) (t : Text) :
    t.drop (lengthUntil found t) = [] ∨ found (t.drop (lengthUntil found t)) = true := by
  induction t with
  | nil => exact .inl rfl
  | cons c t ih =>
    rw [lengthUntil]
    split
    · rename_i here
      exact .inr here
    · exact ih

/-- A search stops no later than at what it looks for. -/
theorem lengthUntil_le_of_stops {found : Text → Bool} {n : Nat}
    (stops : t.drop n = [] ∨ found (t.drop n) = true) : lengthUntil found t ≤ n := by
  induction t generalizing n with
  | nil => exact Nat.zero_le n
  | cons c t ih =>
    rw [lengthUntil]
    split
    · exact Nat.zero_le n
    · rename_i not_here
      cases n with
      | zero => exact absurd (stops.resolve_left (List.cons_ne_nil c t)) not_here
      | succ n => exact Nat.succ_le_succ (ih stops)

/-- A literal does not occur before the first place that starts with it. -/
theorem not_infix_take_lengthUntil {literal : Text} (some_char : literal ≠ []) (t : Text) :
    ¬ literal <:+: t.take (lengthUntil (startsWith literal) t) := by
  rintro ⟨before, after, split⟩
  have whole : t = before ++ (literal ++ (after ++ t.drop (lengthUntil (startsWith literal) t))) := by
    rw [← List.append_assoc literal, ← List.append_assoc before, ← List.append_assoc before, split,
      List.take_append_drop]
  have here : startsWith literal (t.drop before.length) = true := by
    rw [whole, List.drop_left]
    exact List.isPrefixOf_iff_prefix.mpr (List.prefix_append _ _)
  -- So the first such place is at the end of `before` at the latest.
  have early := lengthUntil_le_of_stops (.inr here)
  have size : before.length + literal.length + after.length ≤ lengthUntil (startsWith literal) t := by
    rw [← List.length_append, ← List.length_append, split]
    exact List.length_take_le _ _
  have := List.length_pos_iff.mpr some_char
  omega

/-! ## Cutting at a literal -/

/-- What follows a literal. -/
theorem after?_eq_some_iff {literal rest : Text} : after? literal t = some rest ↔ t = literal ++ rest := by
  induction literal generalizing t with
  | nil => simp [after?]
  | cons l literal ih =>
    cases t with
    | nil => simp [after?]
    | cons c t =>
      rw [after?]
      split
      · rename_i same
        rw [ih, same, List.cons_append, List.cons.injEq, eq_self, true_and]
      · rename_i other
        simp [Ne.symm other]

/-- **A cut** is made at the first place that starts with the literal. -/
theorem cut?_eq_some_iff {literal before rest : Text} : cut? literal t = some (before, rest) ↔
    t = before ++ (literal ++ rest) ∧ lengthUntil (startsWith literal) t = before.length := by
  simp only [cut?, Option.map_eq_some_iff, after?_eq_some_iff, Prod.mk.injEq]
  constructor
  · rintro ⟨rest', here, rfl, rfl⟩
    refine ⟨?_, (List.length_take_of_le (lengthUntil_le _ t)).symm⟩
    rw [← here, List.take_append_drop]
  · rintro ⟨split, place⟩
    refine ⟨rest, ?_, ?_, rfl⟩
    · rw [place, split, List.drop_left]
    · rw [place, split, List.take_left]

/-- A text is cut wherever it has the literal. -/
theorem isSome_cut?_iff {literal : Text} (some_char : literal ≠ []) :
    (cut? literal t).isSome = true ↔ literal <:+: t := by
  constructor
  · intro found
    obtain ⟨⟨before, rest⟩, cut⟩ := Option.isSome_iff_exists.mp found
    exact ⟨before, rest, by rw [(cut?_eq_some_iff.mp cut).1, List.append_assoc]⟩
  · rintro ⟨before, rest, split⟩
    rcases lengthUntil_stops (startsWith literal) t with nowhere | here
    · -- The search does not get past the occurrence.
      have early : lengthUntil (startsWith literal) t ≤ before.length := by
        refine lengthUntil_le_of_stops (.inr ?_)
        rw [← split, List.append_assoc, List.drop_left]
        exact List.isPrefixOf_iff_prefix.mpr (List.prefix_append _ _)
      have size := congrArg List.length split
      have reached := List.drop_eq_nil_iff.mp nowhere
      have := List.length_pos_iff.mpr some_char
      simp only [List.length_append] at size
      omega
    · obtain ⟨rest, here⟩ := List.isPrefixOf_iff_prefix.mp here
      rw [cut?, after?_eq_some_iff.mpr here.symm]
      rfl

/-! ## Runs in a common first part -/

/-- A run that ends in the common part. -/
theorem lengthWhile_congr {accepts : Char → Bool} (u : Text)
    (inside : lengthWhile accepts (s ++ t) < s.length) :
    lengthWhile accepts (s ++ u) = lengthWhile accepts (s ++ t) := by
  induction s with
  | nil => simp at inside
  | cons c s ih =>
    simp only [lengthWhile, List.cons_append, List.takeWhile_cons] at inside ih ⊢
    split
    · rename_i accepted
      rw [if_pos accepted] at inside
      simp only [List.length_cons] at inside ⊢
      rw [ih (by omega)]
    · rfl

/-- A run ends at the first character that does not belong to it. -/
theorem lengthWhile_lt_of_mem {accepts : Char → Bool} {c : Char} (mem : c ∈ s)
    (rejected : accepts c = false) (t : Text) : lengthWhile accepts (s ++ t) < s.length := by
  induction s with
  | nil => cases mem
  | cons d s ih =>
    simp only [lengthWhile, List.cons_append, List.takeWhile_cons] at ih ⊢
    split
    · rename_i accepted
      have later : c ∈ s := by
        refine (List.mem_cons.mp mem).resolve_left ?_
        rintro rfl
        exact Bool.false_ne_true (rejected.symm.trans accepted)
      exact Nat.succ_lt_succ (ih later)
    · exact Nat.succ_pos _

/-- The way to a character that the common part has. -/
theorem lengthUntil_char_congr {c : Char} (u : Text)
    (inside : lengthUntil (startsWith [c]) (s ++ t) < s.length) :
    lengthUntil (startsWith [c]) (s ++ u) = lengthUntil (startsWith [c]) (s ++ t) := by
  induction s with
  | nil => simp at inside
  | cons d s ih =>
    have same (t : Text) : startsWith [c] (d :: (s ++ t)) = (c == d) := by
      simp [startsWith, List.isPrefixOf]
    simp only [List.cons_append, lengthUntil, same] at inside ⊢
    split
    · rfl
    · rename_i other
      rw [if_neg other, List.length_cons] at inside
      rw [ih (by omega)]

/-! ## What is found within so many characters -/

/-- **What looks at so many characters**: they have to be there, and those behind them do not count. -/
structure Bounded (size : Nat) (found : Text → Bool) : Prop where
  /-- The characters have to be there. -/
  size_le : ∀ t, found t = true → size ≤ t.length
  /-- Characters behind so many do not count. -/
  append : ∀ t u, size ≤ t.length → found (t ++ u) = found t

/-- A literal is as long as it is. -/
theorem bounded_startsWith (literal : Text) : Bounded literal.length (startsWith literal) := by
  refine ⟨fun t found => (List.isPrefixOf_iff_prefix.mp found).length_le, fun t u reaches => ?_⟩
  rw [Bool.eq_iff_iff]
  simp only [startsWith, List.isPrefixOf_iff_prefix]
  constructor
  · intro first
    exact List.prefix_of_prefix_length_le first (List.prefix_append t u) reaches
  · intro first
    exact first.trans (List.prefix_append t u)

/-- A literal that would have to reach over a character foreign to it does not come first, or it ends
before that character. -/
theorem startsWith_congr {c : Char} {literal : Text} (t u : Text) (mem : c ∈ s)
    (foreign : c ∉ literal) : startsWith literal (s ++ u) = startsWith literal (s ++ t) := by
  induction literal generalizing s with
  | nil => rfl
  | cons l literal ih =>
    obtain ⟨first, later⟩ : c ≠ l ∧ c ∉ literal := by simpa using foreign
    cases s with
    | nil => simp at mem
    | cons d s =>
      simp only [startsWith, List.cons_append, List.isPrefixOf] at ih ⊢
      rcases List.mem_cons.mp mem with rfl | mem
      · rw [beq_false_of_ne (Ne.symm first), Bool.false_and, Bool.false_and]
      · rw [ih mem later]

/-- **A place that is found stays the first one**, whatever follows the text. -/
theorem lengthUntil_append_of_bounded {found : Text → Bool} {size : Nat} (bounded : Bounded size found)
    (u : Text) (inside : lengthUntil found t < t.length) :
    lengthUntil found (t ++ u) = lengthUntil found t ∧ size ≤ t.length := by
  induction t with
  | nil => simp at inside
  | cons c t ih =>
    rw [List.cons_append, lengthUntil, lengthUntil] at *
    by_cases here : found (c :: t) = true
    · have reaches := bounded.size_le _ here
      have same := bounded.append (c :: t) u reaches
      rw [List.cons_append] at same
      rw [if_pos here, if_pos (same.trans here)]
      exact ⟨rfl, reaches⟩
    · rw [if_neg here, List.length_cons] at inside
      obtain ⟨further, reaches⟩ := ih (by omega)
      -- What is found further on reaches as far as what would be found here.
      have reaches' : size ≤ (c :: t).length := Nat.le_succ_of_le reaches
      have same := bounded.append (c :: t) u reaches'
      rw [List.cons_append] at same
      rw [if_neg here, if_neg (by rwa [same]), further]
      exact ⟨rfl, reaches'⟩

/-! ## Words up to case -/

/-- Words are compared character by character. -/
theorem startsWithIgnoringCase_cons (l c : Char) (literal t : Text) :
    startsWithIgnoringCase (l :: literal) (c :: t) =
      (l.toLower == c.toLower && startsWithIgnoringCase literal t) := by
  simp [startsWithIgnoringCase, lower, List.isPrefixOf]

/-- The empty word comes first in every text. -/
theorem nil_startsWithIgnoringCase (t : Text) : startsWithIgnoringCase [] t = true := by
  simp [startsWithIgnoringCase, lower]

/-- A word is as long as it is. -/
theorem bounded_startsWithIgnoringCase (literal : Text) :
    Bounded literal.length (startsWithIgnoringCase literal) := by
  refine ⟨fun t found => ?_, fun t u reaches => ?_⟩
  · rw [startsWithIgnoringCase, List.isPrefixOf_iff_prefix] at found
    have := found.length_le
    simp only [length_lower, List.length_take] at this
    omega
  · rw [startsWithIgnoringCase, startsWithIgnoringCase, List.take_append_of_le_length reaches]

/-- A word that would have to reach over a character foreign to it does not come first, or it ends before
that character. -/
theorem startsWithIgnoringCase_congr {c : Char} {literal : Text} (t u : Text) (mem : c ∈ s)
    (foreign : c.toLower ∉ lower literal) :
    startsWithIgnoringCase literal (s ++ u) = startsWithIgnoringCase literal (s ++ t) := by
  induction literal generalizing s with
  | nil => rw [nil_startsWithIgnoringCase, nil_startsWithIgnoringCase]
  | cons l literal ih =>
    obtain ⟨first, later⟩ : c.toLower ≠ l.toLower ∧ c.toLower ∉ lower literal := by
      simpa [lower] using foreign
    cases s with
    | nil => simp at mem
    | cons d s =>
      rw [List.cons_append, List.cons_append, startsWithIgnoringCase_cons, startsWithIgnoringCase_cons]
      rcases List.mem_cons.mp mem with rfl | mem
      · have other : (l.toLower == c.toLower) = false := beq_false_of_ne (Ne.symm first)
        rw [other, Bool.false_and, Bool.false_and]
      · rw [ih mem later]

end MarkupAnalysis.Text
