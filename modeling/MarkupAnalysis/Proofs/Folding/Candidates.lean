import MarkupAnalysis.Folding.Limit
import MarkupAnalysis.Proofs.Document.CommentPlaces
import MarkupAnalysis.Proofs.Document.Locating
import MarkupAnalysis.Proofs.Folding.Regions
import MarkupAnalysis.Proofs.Text.Lines

/-! # What is folded

What can be folded is read off a document without its order: elements with their end tags, comments, and
regions between matched markers, as long as they reach a later line. Of those that start on one line the
innermost is folded.

* **`Document.Folds`**, **`Document.IsFoldingCandidate`** — what can be folded.
* **`Document.mem_foldingCandidates_parse`** — the candidates of every text.
* **`FoldingRange.InnermostOfLines`** — of some candidates, the innermost of each line.
* **`FoldingRange.innermostOfLines_sorted`** — what two sorts and the first of each line leave.
* **`foldingRanges_parse`** — what is folded in every text. -/

namespace MarkupAnalysis

open Document

/-- The span of a range. -/
def FoldingRange.span (r : FoldingRange) : Span := ⟨r.start, r.stop⟩

namespace Document

/-! ## What can be folded -/

/-- **What can be folded**, on however many lines. -/
inductive Folds [Text.WordClass] (d : Document) (t : Text) : Option FoldingKind → Span → Prop
  /-- An element from the end of its start tag on. -/
  | element {id : NodeId} {start : Nat} (element : d.IsElement id)
      (ends : (d.node id).startTagEnd = some start) : Folds d t none ⟨start, (d.node id).stop⟩
  /-- A comment that is no marker. -/
  | comment {c : Comment} (mem : c ∈ d.comments) (no_marker : c.marker? t = none) :
      Folds d t (some .comment) c.span
  /-- A region, with both of its markers. -/
  | region {opening ending : Comment} (pair : RegionPair t d.comments.toList opening ending) :
      Folds d t (some .region) ⟨opening.span.start, ending.span.stop⟩

/-- **A candidate**: a range that can be folded and ends on a later line than it starts. -/
structure IsFoldingCandidate [Text.WordClass] (d : Document) (t : Text) (r : FoldingRange) : Prop where
  /-- It can be folded. -/
  folds : d.Folds t r.kind r.span
  /-- The line it starts on. -/
  startLine : r.startLine = (Lines.of t).lineOf r.start
  /-- The line it ends on. -/
  stopLine : r.stopLine = (Lines.of t).lineOf r.stop
  /-- The end is on a later line. -/
  later_line : r.startLine < r.stopLine

/-- A range reaches a later line, or it is none. -/
theorem foldingRange?_eq_some_iff {lines : Lines} {kind : Option FoldingKind} {s : Span}
    {r : FoldingRange} : foldingRange? lines kind s = some r ↔
      r.kind = kind ∧ r.span = s ∧ r.startLine = lines.lineOf r.start ∧
        r.stopLine = lines.lineOf r.stop ∧ r.startLine < r.stopLine := by
  unfold foldingRange?
  constructor
  · intro found
    obtain ⟨reaches, rfl⟩ := Option.ite_some_none_eq_some.mp found
    exact ⟨rfl, rfl, rfl, rfl, reaches⟩
  · rintro ⟨rfl, rfl, starts, stops, reaches⟩
    rw [starts, stops] at reaches
    rw [FoldingRange.span, if_pos reaches, ← starts, ← stops]

/-- What elements fold. -/
theorem mem_elementSpans_iff [Text.WordClass] {d : Document} {length : Nat} (h : d.Preordered length)
    {s : Span} : s ∈ d.elementSpans ↔ d.Folds t none s := by
  rw [elementSpans, List.mem_filterMap]
  constructor
  · rintro ⟨id, mem, found⟩
    obtain ⟨start, ends, rfl⟩ := Option.map_eq_some_iff.mp found
    exact .element (h.mem_descendants_root_iff.mp mem) ends
  · rintro (⟨element, ends⟩ | _ | _)
    exact ⟨_, h.mem_descendants_root_iff.mpr element, by rw [ends]; rfl⟩

/-- What comments fold. -/
theorem mem_commentSpans_iff [Text.WordClass] {d : Document} {t : Text} (apart : d.CommentsApart t)
    {kind : FoldingKind} {s : Span} : (kind, s) ∈ commentSpans t [] d.comments.toList ↔ d.Folds t (some kind) s := by
  have readable : ReadableComments t d.comments.toList := fun c mem =>
    apart.content c (Array.mem_toList_iff.mp mem)
  cases kind with
  | comment =>
    rw [mem_commentSpans_comment_iff readable]
    constructor
    · rintro ⟨c, mem, no_marker, rfl⟩
      exact .comment (Array.mem_toList_iff.mp mem) no_marker
    · rintro (_ | ⟨mem, no_marker⟩ | _)
      exact ⟨_, Array.mem_toList_iff.mpr mem, no_marker, rfl⟩
  | region =>
    rw [mem_commentSpans_region_iff readable]
    constructor
    · rintro ⟨opening, ending, pair, rfl⟩
      exact .region pair
    · rintro (_ | _ | pair)
      exact ⟨_, _, pair, rfl⟩

/-- **The candidates of a text** are the ranges that can be folded and reach a later line. -/
theorem mem_foldingCandidates_parse [Text.WordClass] {v : Vocabulary} {t : Text} {r : FoldingRange} :
    r ∈ (parse v t).foldingCandidates t ↔ (parse v t).IsFoldingCandidate t r := by
  simp only [foldingCandidates, List.mem_append, List.mem_filterMap, foldingRange?_eq_some_iff]
  constructor
  · rintro (⟨s, mem, kind, rfl, starts, stops, reaches⟩ |
      ⟨⟨kind, s⟩, mem, same, rfl, starts, stops, reaches⟩)
    · exact ⟨kind ▸ (mem_elementSpans_iff (preordered_parse v t)).mp mem, starts, stops, reaches⟩
    · exact ⟨same ▸ (mem_commentSpans_iff (commentsApart_parse v t)).mp mem, starts, stops, reaches⟩
  · rintro ⟨folds, starts, stops, reaches⟩
    cases kind : r.kind with
    | none =>
      rw [kind] at folds
      exact .inl ⟨_, (mem_elementSpans_iff (preordered_parse v t)).mpr folds, rfl, rfl, starts, stops,
        reaches⟩
    | some kind' =>
      rw [kind] at folds
      exact .inr ⟨(kind', r.span), (mem_commentSpans_iff (commentsApart_parse v t)).mpr folds, rfl, rfl,
        starts, stops, reaches⟩

end Document

namespace FoldingRange

/-! ## The first range of each line -/

variable {r range other : FoldingRange} {ranges : List FoldingRange}

/-- **Of some candidates, the innermost of each line**, in order. -/
structure InnermostOfLines (candidate : FoldingRange → Prop) (ranges : List FoldingRange) : Prop where
  /-- Each range starts behind the one before it, and on a later line. -/
  ordered : ranges.Pairwise fun r later => r.start < later.start ∧ r.startLine < later.startLine
  /-- Only candidates are ranges. -/
  candidates : ∀ r ∈ ranges, candidate r
  /-- Wherever a candidate starts, a range does. -/
  every_line : ∀ other, candidate other → ∃ r ∈ ranges, r.startLine = other.startLine
  /-- No candidate of its line starts behind a range, and none that starts with it ends before it. -/
  innermost : ∀ r ∈ ranges, ∀ other, candidate other → other.startLine = r.startLine →
    other.start < r.start ∨ other.start = r.start ∧ r.stop ≤ other.stop

/-- Of ranges on different lines, those on the first line are dropped. -/
theorem mem_dropWhile_startLine_iff {line : Nat}
    (ordered : ranges.Pairwise fun r later => r.startLine < later.startLine)
    (least : ∀ r ∈ ranges, line ≤ r.startLine) :
    r ∈ ranges.dropWhile (·.startLine == line) ↔ r ∈ ranges ∧ line < r.startLine := by
  cases ranges with
  | nil => simp
  | cons first ranges =>
    obtain ⟨behind, -⟩ := List.pairwise_cons.mp ordered
    have least_first := least first List.mem_cons_self
    have later {r : FoldingRange} (mem : r ∈ ranges) : line < r.startLine :=
      Nat.lt_of_le_of_lt least_first (behind r mem)
    by_cases same : first.startLine = line
    · have dropped : (first :: ranges).dropWhile (·.startLine == line) = ranges := by
        rw [List.dropWhile_cons_of_pos (by simpa using same), List.dropWhile_eq_self_iff]
        exact fun some_range => by simpa using Nat.ne_of_gt (later (List.getElem_mem some_range))
      rw [dropped]
      constructor
      · exact fun mem => ⟨List.mem_cons_of_mem _ mem, later mem⟩
      · rintro ⟨mem, behind_line⟩
        rcases List.mem_cons.mp mem with rfl | mem
        · omega
        · exact mem
    · rw [List.dropWhile_cons_of_neg (by simpa using same)]
      refine (and_iff_left_of_imp fun mem => ?_).symm
      rcases List.mem_cons.mp mem with rfl | mem
      · omega
      · exact later mem

/-- The first ranges of the lines are ranges. -/
theorem firstOfLines_sublist (ranges : List FoldingRange) : (firstOfLines ranges).Sublist ranges := by
  induction ranges with
  | nil => exact .slnil
  | cons range ranges ih => exact ((List.dropWhile_sublist _).trans ih).cons_cons range

/-- The first ranges are on different lines. -/
theorem firstOfLines_pairwise (ordered : ranges.Pairwise fun r later => r.startLine ≤ later.startLine) :
    (firstOfLines ranges).Pairwise fun r later => r.startLine < later.startLine := by
  induction ranges with
  | nil => exact .nil
  | cons range ranges ih =>
    obtain ⟨behind, rest⟩ := List.pairwise_cons.mp ordered
    have least : ∀ r ∈ firstOfLines ranges, range.startLine ≤ r.startLine := fun r mem =>
      behind r ((firstOfLines_sublist ranges).subset mem)
    refine List.pairwise_cons.mpr ⟨fun r mem => ?_, (ih rest).sublist (List.dropWhile_sublist _)⟩
    exact ((mem_dropWhile_startLine_iff (ih rest) least).mp mem).2

/-- The first range of a line is the range itself, or the first one of a later line. -/
theorem mem_firstOfLines_cons_iff
    (ordered : (range :: ranges).Pairwise fun r later => r.startLine ≤ later.startLine) :
    r ∈ firstOfLines (range :: ranges) ↔
      r = range ∨ r ∈ firstOfLines ranges ∧ range.startLine < r.startLine := by
  obtain ⟨behind, rest⟩ := List.pairwise_cons.mp ordered
  have least : ∀ r ∈ firstOfLines ranges, range.startLine ≤ r.startLine := fun r mem =>
    behind r ((firstOfLines_sublist ranges).subset mem)
  rw [firstOfLines, List.mem_cons, mem_dropWhile_startLine_iff (firstOfLines_pairwise rest) least]

/-- On the line of each range there is a first one. -/
theorem exists_mem_firstOfLines
    (ordered : ranges.Pairwise fun r later => r.startLine ≤ later.startLine) (mem : other ∈ ranges) :
    ∃ r ∈ firstOfLines ranges, r.startLine = other.startLine := by
  induction ranges with
  | nil => cases mem
  | cons range ranges ih =>
    obtain ⟨behind, rest⟩ := List.pairwise_cons.mp ordered
    rcases List.mem_cons.mp mem with rfl | mem
    · exact ⟨other, List.mem_cons_self, rfl⟩
    · obtain ⟨r, first, line⟩ := ih rest mem
      rcases Nat.eq_or_lt_of_le (behind other mem) with same | later
      · exact ⟨range, List.mem_cons_self, same⟩
      · exact ⟨r, (mem_firstOfLines_cons_iff ordered).mpr (.inr ⟨first, line ▸ later⟩), line⟩

/-- The first range of a line comes before all others of that line. -/
theorem rel_of_mem_firstOfLines {before : FoldingRange → FoldingRange → Prop}
    (ordered : ranges.Pairwise fun r later => r.startLine ≤ later.startLine)
    (sorted : ranges.Pairwise before) (first : r ∈ firstOfLines ranges) (mem : other ∈ ranges)
    (line : other.startLine = r.startLine) : other = r ∨ before r other := by
  induction ranges with
  | nil => cases mem
  | cons range ranges ih =>
    obtain ⟨behind, rest⟩ := List.pairwise_cons.mp ordered
    obtain ⟨range_first, rest_sorted⟩ := List.pairwise_cons.mp sorted
    rcases (mem_firstOfLines_cons_iff ordered).mp first with rfl | ⟨first, later⟩
    · exact (List.mem_cons.mp mem).imp_right (range_first other)
    · rcases List.mem_cons.mp mem with rfl | mem
      · omega
      · exact ih rest rest_sorted first mem

/-! ## Two sorts -/

/-- The order of lines, and within a line from the inside out. -/
theorem innerFirst_iff : innerFirst r other = true ↔ r.startLine < other.startLine ∨
    r.startLine = other.startLine ∧
      (other.start < r.start ∨ other.start = r.start ∧ r.stop ≤ other.stop) := by
  simp only [innerFirst, Bool.or_eq_true, Bool.and_eq_true, decide_eq_true_eq, eq_comm (a := r.start)]

/-- Sorting puts lines in order, and the innermost range of each line first. -/
theorem pairwise_mergeSort_innerFirst (ranges : List FoldingRange) :
    (ranges.mergeSort innerFirst).Pairwise fun r later => innerFirst r later = true :=
  List.pairwise_mergeSort
    (fun r r' r'' first second => by rw [innerFirst_iff] at *; omega)
    (fun r r' => by rw [Bool.or_eq_true, innerFirst_iff, innerFirst_iff]; omega) ranges

/-- **The first range of each line is the innermost**, and the second sort changes nothing. -/
theorem innermostOfLines_sorted {t : Text}
    (lines : ∀ r ∈ ranges, r.startLine = (Lines.of t).lineOf r.start) :
    InnermostOfLines (· ∈ ranges)
      ((firstOfLines (ranges.mergeSort innerFirst)).mergeSort outerFirst) := by
  have sorted := pairwise_mergeSort_innerFirst ranges
  have ordered : (ranges.mergeSort innerFirst).Pairwise fun r later => r.startLine ≤ later.startLine :=
    sorted.imp fun {r later} first => by rw [innerFirst_iff] at first; omega
  have is_range {r : FoldingRange} (mem : r ∈ firstOfLines (ranges.mergeSort innerFirst)) : r ∈ ranges :=
    List.mem_mergeSort.mp ((firstOfLines_sublist _).subset mem)
  -- A range on a later line starts later.
  have increasing : (firstOfLines (ranges.mergeSort innerFirst)).Pairwise fun r later =>
      r.start < later.start ∧ r.startLine < later.startLine := by
    refine (firstOfLines_pairwise ordered).imp_of_mem fun {r later} mem mem' before => ⟨?_, before⟩
    rw [lines r (is_range mem), lines later (is_range mem')] at before
    exact Nat.lt_of_not_le fun early => Nat.not_lt.mpr (Lines.lineOf_mono t early) before
  have unchanged : (firstOfLines (ranges.mergeSort innerFirst)).mergeSort outerFirst =
      firstOfLines (ranges.mergeSort innerFirst) := by
    refine List.mergeSort_of_pairwise (increasing.imp fun {r later} before => ?_)
    simp [outerFirst, before.1]
  rw [unchanged]
  refine ⟨increasing, fun r => is_range, fun other mem => ?_, fun r first other mem line => ?_⟩
  · exact exists_mem_firstOfLines ordered (List.mem_mergeSort.mpr mem)
  · rcases rel_of_mem_firstOfLines ordered sorted first (List.mem_mergeSort.mpr mem) line with rfl | before
    · exact .inr ⟨rfl, Nat.le_refl _⟩
    · rw [innerFirst_iff] at before
      omega

end FoldingRange

/-! ## Whole texts -/

/-- Without a limit the innermost range of each line is left. -/
theorem Document.innermostOfLines_unlimitedFolding [Text.WordClass] (v : Vocabulary) (t : Text) :
    FoldingRange.InnermostOfLines ((parse v t).IsFoldingCandidate t)
      ((parse v t).unlimitedFolding t) := by
  have lines : ∀ r ∈ (parse v t).foldingCandidates t, r.startLine = (Lines.of t).lineOf r.start :=
    fun r mem => (mem_foldingCandidates_parse.mp mem).startLine
  have all : (parse v t).IsFoldingCandidate t = (· ∈ (parse v t).foldingCandidates t) :=
    funext fun r => propext mem_foldingCandidates_parse.symm
  have length : t.byteLength = (parse v t).textLength := rfl
  rw [all, unlimitedFolding, if_pos length]
  exact FoldingRange.innermostOfLines_sorted lines

/-- **What is folded in every text**: of all that can be folded, the innermost range of each line. -/
theorem foldingRanges_parse [Text.WordClass] (v : Vocabulary) (t : Text) :
    FoldingRange.InnermostOfLines ((parse v t).IsFoldingCandidate t)
      ((parse v t).foldingRanges t none) := by
  have unlimited : (parse v t).foldingRanges t none = (parse v t).unlimitedFolding t := rfl
  rw [unlimited]
  exact innermostOfLines_unlimitedFolding v t

end MarkupAnalysis
