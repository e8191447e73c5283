import Mathlib.Data.List.Flatten
import Mathlib.Data.List.Infix
import Mathlib.Data.List.SplitBy
import Mathlib.Tactic.Common
import MarkupAnalysis.Text.WhiteSpace

/-! # Runs between separators

A text is read as the runs of characters between its separators; separators that follow each other, or that
stand at either end, add nothing. Everything about runs follows from how they split at a separator.

* **`Text.runs_append_separator`** — a separator splits the runs of a text.
* **`Text.mem_runs`** — what a run is.
* **`Text.runs_intercalate`** — runs that are put together with a separator are found again. -/

namespace MarkupAnalysis.Text

variable {separates : Char → Bool} {c : Char} {s t word : Text}

@[simp] theorem runs_nil : runs separates [] = [] := rfl

/-- A text starts with a stretch of one class that nothing behind it continues. -/
private theorem exists_stretch (accepts : Char → Bool) (t : Text) :
    ∃ stretch rest, t = stretch ++ rest ∧ (∀ c ∈ stretch, accepts c = true) ∧
      ∀ c ∈ rest.head?, accepts c = false := by
  have stops := List.head?_dropWhile_not accepts t
  refine ⟨t.takeWhile accepts, t.dropWhile accepts, List.takeWhile_append_dropWhile.symm,
    List.all_eq_true.mp List.all_takeWhile, fun c first => ?_⟩
  rw [first] at stops
  simpa using stops

/-- The characters of a stretch of one class follow each other in one run of the classes. -/
private theorem isChain_of_class {class_ : Bool} (same : ∀ c ∈ s, separates c = class_) :
    s.IsChain fun a b => (separates a == separates b) = true := by
  refine List.Pairwise.isChain (List.pairwise_of_forall_mem_list fun a mem b mem' => ?_)
  rw [same a mem, same b mem', beq_self_eq_true]

/-- Leading separators are no run. -/
theorem runs_append_of_separators (separators : ∀ c ∈ s, separates c = true)
    (stops : ∀ c ∈ t.head?, separates c = false) : runs separates (s ++ t) = runs separates t := by
  by_cases empty : s = []
  · rw [empty, List.nil_append]
  have apart : ∀ x ∈ s.getLast?, ∀ y ∈ t.head?, (separates x == separates y) = false := by
    intro x last y first
    rw [separators x (List.mem_of_mem_getLast? last), stops y first]
    rfl
  obtain ⟨c, mem⟩ := List.exists_mem_of_ne_nil s empty
  have some_separator : s.any separates = true := List.any_eq_true.mpr ⟨c, mem, separators c mem⟩
  rw [runs, runs, List.splitBy_append apart, List.splitBy_of_isChain empty (isChain_of_class separators),
    List.singleton_append, List.filter_cons, some_separator]
  rfl

/-- A leading word is a run. -/
theorem runs_append_of_word (some_word : word ≠ []) (no_separator : ∀ c ∈ word, separates c = false)
    (stops : ∀ c ∈ t.head?, separates c = true) :
    runs separates (word ++ t) = word :: runs separates t := by
  have apart : ∀ x ∈ word.getLast?, ∀ y ∈ t.head?, (separates x == separates y) = false := by
    intro x last y first
    rw [no_separator x (List.mem_of_mem_getLast? last), stops y first]
    rfl
  have none_separates : word.any separates = false := by
    simpa using no_separator
  rw [runs, runs, List.splitBy_append apart,
    List.splitBy_of_isChain some_word (isChain_of_class no_separator), List.singleton_append,
    List.filter_cons, none_separates]
  rfl

/-- A leading separator is no run. -/
@[simp] theorem runs_cons_separator (separator : separates c = true) (t : Text) :
    runs separates (c :: t) = runs separates t := by
  obtain ⟨stretch, rest, rfl, separators, stops⟩ := exists_stretch separates t
  rw [← List.cons_append,
    runs_append_of_separators (List.forall_mem_cons.mpr ⟨separator, separators⟩) stops,
    runs_append_of_separators separators stops]

/-- **A separator splits the runs of a text** into those before it and those behind it. -/
theorem runs_append_separator (separator : separates c = true) (s t : Text) :
    runs separates (s ++ c :: t) = runs separates s ++ runs separates t := by
  -- The text is used up word by word and separator by separator.
  induction length : s.length using Nat.strong_induction_on generalizing s with
  | _ n ih =>
  cases s with
  | nil => rw [List.nil_append, runs_cons_separator separator, runs_nil, List.nil_append]
  | cons first s =>
  rw [List.length_cons] at length
  cases class_ : separates first with
  | true =>
    rw [List.cons_append, runs_cons_separator class_, runs_cons_separator class_,
      ih s.length (by omega) s rfl]
  | false =>
    obtain ⟨word, rest, split, no_separator, stops⟩ := exists_stretch (!separates ·) s
    simp only [Bool.not_eq_true', Bool.not_eq_false'] at no_separator stops
    have in_word : ∀ c ∈ first :: word, separates c = false :=
      List.forall_mem_cons.mpr ⟨class_, no_separator⟩
    have goes_on : ∀ c' ∈ (rest ++ c :: t).head?, separates c' = true := by
      cases rest with
      | nil => simpa using separator
      | cons c' rest => simpa using stops
    have shorter : rest.length < n := by
      have := congrArg List.length split
      rw [List.length_append] at this
      omega
    rw [split, ← List.cons_append, List.append_assoc,
      runs_append_of_word (List.cons_ne_nil _ _) in_word goes_on,
      runs_append_of_word (List.cons_ne_nil _ _) in_word stops, ih rest.length shorter rest rfl,
      List.cons_append]

/-- A word is its only run. -/
theorem runs_of_word (some_word : word ≠ []) (no_separator : ∀ c ∈ word, separates c = false) :
    runs separates word = [word] := by
  simpa using runs_append_of_word (t := []) some_word no_separator nofun

/-- **A run** has characters, and none of them separates. -/
theorem mem_runs (mem : word ∈ runs separates t) :
    word ≠ [] ∧ ∀ c ∈ word, separates c = false := by
  obtain ⟨part, none_separates⟩ := List.mem_filter.mp mem
  exact ⟨List.ne_nil_of_mem_splitBy part, by simpa using none_separates⟩

/-- The characters of a run are characters of the text. -/
theorem mem_of_mem_runs (mem : word ∈ runs separates t) (inside : c ∈ word) : c ∈ t := by
  have part : word ∈ t.splitBy fun a b => separates a == separates b := List.mem_of_mem_filter mem
  rw [← List.flatten_splitBy (fun a b => separates a == separates b) t]
  exact List.mem_flatten_of_mem part inside

/-- **Words that are put together** with a separator are the runs of what comes out. -/
theorem runs_intercalate {words : List Text} (separator : separates c = true)
    (each : ∀ word ∈ words, word ≠ [] ∧ ∀ c ∈ word, separates c = false) :
    runs separates (List.intercalate [c] words) = words := by
  induction words with
  | nil => rfl
  | cons word words ih =>
    obtain ⟨⟨some_word, no_separator⟩, others⟩ := List.forall_mem_cons.mp each
    cases words with
    | nil => rw [List.intercalate_singleton, runs_of_word some_word no_separator]
    | cons next words =>
      rw [List.intercalate_cons_cons, List.append_assoc, List.singleton_append,
        runs_append_separator separator, runs_of_word some_word no_separator, ih others,
        List.singleton_append]

end MarkupAnalysis.Text
