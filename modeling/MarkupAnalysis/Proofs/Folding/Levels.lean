import Mathlib.Data.List.Nodup
import MarkupAnalysis.Proofs.Folding.Candidates

/-! # Levels of folding ranges

How deep a range is nested is read off the lines: around a range is the last one before it that reaches its
first line, and around that one is the next. A range that contains another always counts, but so does one
that only ends on the line where the other starts.

* **`FoldingRange.levelBehind`**, **`FoldingRange.lineLevel`** — the level of a range, without a stack.
* **`FoldingRange.levels_eq`** — the stack of last lines finds these levels.
* **`FoldingRange.depthIn`** — how many ranges contain a range.
* **`FoldingRange.lineLevel_lt`**, **`FoldingRange.depthIn_le_lineLevel`** — what contains a range has a
  smaller level.
* **`FoldingRange.lineLevel_le_depthIn`** — where only what contains a range counts. -/

namespace MarkupAnalysis

namespace FoldingRange

variable {r z : FoldingRange} {ranges earlier later : List FoldingRange}

/-! ## Levels without a stack -/

/-- **How many ranges are around a range**, given the earlier ones, latest first: the latest that reaches
its first line, and those around that one. -/
def levelBehind : (earlier : List FoldingRange) → FoldingRange → Nat
  | [], _ => 0
  | last :: earlier, r =>
    if r.startLine ≤ last.stopLine then levelBehind earlier last + 1 else levelBehind earlier r

/-- The ranges that start before a range, latest first. -/
def before (ranges : List FoldingRange) (r : FoldingRange) : List FoldingRange :=
  (ranges.takeWhile (·.start < r.start)).reverse

/-- **The level of a range** among others that are in order. -/
def lineLevel (ranges : List FoldingRange) (r : FoldingRange) : Nat := levelBehind (before ranges r) r

/-- The last lines of the ranges that are open behind the earlier ones, innermost first. -/
def openLines : (earlier : List FoldingRange) → List Nat
  | [] => []
  | last :: earlier => last.stopLine :: (openLines earlier).dropWhile (· < last.startLine)

/-- What ends before a line ends before every later one. -/
theorem dropWhile_dropWhile_lt {line line' : Nat} (le : line ≤ line') (lines : List Nat) :
    (lines.dropWhile (· < line)).dropWhile (· < line') = lines.dropWhile (· < line') := by
  induction lines with
  | nil => rfl
  | cons last lines ih =>
    by_cases ends : last < line
    · have ends' : last < line' := Nat.lt_of_lt_of_le ends le
      rw [List.dropWhile_cons_of_pos (by simpa using ends), ih,
        List.dropWhile_cons_of_pos (by simpa using ends')]
    · rw [List.dropWhile_cons_of_neg (by simpa using ends)]

/-- In the order of their starts and of their first lines. -/
def InOrder (ranges : List FoldingRange) : Prop :=
  ranges.Pairwise fun r later => r.start < later.start ∧ r.startLine < later.startLine

/-- In the order of their starts and of their first lines, the latest one first. -/
def LatestFirst (ranges : List FoldingRange) : Prop :=
  ranges.Pairwise fun r earlier => earlier.start < r.start ∧ earlier.startLine < r.startLine

/-- Ranges in the order of their starts stay so when the latest but one is left out. -/
theorem LatestFirst.skip {last : FoldingRange} (h : LatestFirst (r :: last :: earlier)) :
    LatestFirst (r :: earlier) :=
  h.sublist ((List.sublist_cons_self last earlier).cons_cons r)

/-- The latest but one starts on an earlier line. -/
theorem LatestFirst.startLine_le {last : FoldingRange} (h : LatestFirst (r :: last :: earlier)) :
    last.startLine ≤ r.startLine :=
  Nat.le_of_lt ((List.pairwise_cons.mp h).1 last List.mem_cons_self).2

/-- As many lines are open as there are ranges around. -/
theorem length_dropWhile_openLines (latest_first : LatestFirst (r :: earlier)) :
    ((openLines earlier).dropWhile (· < r.startLine)).length = levelBehind earlier r := by
  -- What the latest range closed ends before the first line of this one, too.
  induction earlier generalizing r with
  | nil => rfl
  | cons last earlier ih =>
    rw [openLines, levelBehind]
    by_cases reaches : r.startLine ≤ last.stopLine
    · rw [if_pos reaches, List.dropWhile_cons_of_neg (by simpa using reaches), List.length_cons,
        ih latest_first.tail]
    · rw [if_neg reaches, List.dropWhile_cons_of_pos (by simpa using reaches),
        dropWhile_dropWhile_lt latest_first.startLine_le, ih latest_first.skip]

/-- What starts before a range in the middle is what stands before it. -/
theorem before_append (ordered : InOrder (earlier.reverse ++ r :: later)) :
    before (earlier.reverse ++ r :: later) r = earlier := by
  obtain ⟨-, -, apart⟩ := List.pairwise_append.mp ordered
  have starts : ∀ z ∈ earlier.reverse, decide (z.start < r.start) = true := fun z mem =>
    decide_eq_true (apart z mem r List.mem_cons_self).1
  rw [before, List.takeWhile_append_of_pos starts, List.takeWhile_cons_of_neg (by simp), List.append_nil,
    List.reverse_reverse]

/-- What stands before a range, latest first. -/
theorem latestFirst_of_inOrder (ordered : InOrder (earlier.reverse ++ r :: later)) :
    LatestFirst (r :: earlier) := by
  have upTo : InOrder (r :: earlier).reverse := by
    rw [List.reverse_cons]
    exact ordered.sublist ((List.sublist_append_left [r] later).append_left earlier.reverse)
  exact List.pairwise_reverse.mp upTo

/-- The levels of the ranges that follow some others. -/
theorem levelsWithin_openLines (ordered : InOrder (earlier.reverse ++ later)) :
    levelsWithin (openLines earlier) later = later.map (lineLevel (earlier.reverse ++ later)) := by
  induction later generalizing earlier with
  | nil => rfl
  | cons r later ih =>
    have level : lineLevel (earlier.reverse ++ r :: later) r =
        ((openLines earlier).dropWhile (· < r.startLine)).length := by
      rw [lineLevel, before_append ordered,
        length_dropWhile_openLines (latestFirst_of_inOrder ordered)]
    have moved : (r :: earlier).reverse ++ later = earlier.reverse ++ r :: later := by simp
    have rest := @ih (r :: earlier) (moved ▸ ordered)
    rw [openLines, moved] at rest
    rw [levelsWithin, List.map_cons, level, rest]

/-- **The stack of last lines finds the level of each range.** -/
theorem levels_eq (ordered : InOrder ranges) : levels ranges = ranges.map (lineLevel ranges) :=
  @levelsWithin_openLines [] ranges ordered

/-! ## What contains a range -/

/-- **How many other ranges contain a range.** -/
def depthIn (ranges : List FoldingRange) (r : FoldingRange) : Nat :=
  ranges.countP fun z => z ≠ r && z.span.covers r.span

/-- How many earlier ranges reach the first line is at most the level. -/
theorem countP_reaches_le_levelBehind (latest_first : LatestFirst (r :: earlier)) :
    earlier.countP (r.startLine ≤ ·.stopLine) ≤ levelBehind earlier r := by
  induction earlier generalizing r with
  | nil => exact Nat.le_refl 0
  | cons last earlier ih =>
    rw [levelBehind]
    by_cases reaches : r.startLine ≤ last.stopLine
    · have fewer : earlier.countP (r.startLine ≤ ·.stopLine) ≤
          earlier.countP (last.startLine ≤ ·.stopLine) :=
        List.countP_mono_left fun z _ reaches' =>
          decide_eq_true (Nat.le_trans latest_first.startLine_le (of_decide_eq_true reaches'))
      rw [if_pos reaches, List.countP_cons_of_pos (by simpa using reaches)]
      exact Nat.succ_le_succ (Nat.le_trans fewer (ih latest_first.tail))
    · rw [if_neg reaches, List.countP_cons_of_neg (by simpa using reaches)]
      exact ih latest_first.skip

/-- **Ranges in order**, each of which reaches the first line of whatever it contains. -/
structure Arranged (ranges : List FoldingRange) : Prop where
  /-- They start one behind the other. -/
  inOrder : InOrder ranges
  /-- What is contained starts on a line of what contains it. -/
  reaches : ∀ z ∈ ranges, ∀ r ∈ ranges, z.span.covers r.span = true → r.startLine ≤ z.stopLine

/-- Each range stands behind those before it. -/
theorem InOrder.exists_split (ordered : InOrder ranges) (mem : r ∈ ranges) :
    ∃ later, ranges = (before ranges r).reverse ++ r :: later := by
  obtain ⟨front, later, rfl⟩ := List.append_of_mem mem
  rw [← List.reverse_reverse front] at ordered ⊢
  exact ⟨later, by rw [before_append ordered]⟩

/-- Before a range stands each range that starts before it, with all before that one. -/
theorem InOrder.before_eq_append (ordered : InOrder ranges) (z_mem : z ∈ ranges) (r_mem : r ∈ ranges)
    (starts : z.start < r.start) : ∃ newer, before ranges r = newer ++ z :: before ranges z := by
  obtain ⟨behind, split⟩ := ordered.exists_split z_mem
  generalize before ranges z = earlier at split ⊢
  subst split
  obtain ⟨-, -, apart⟩ := List.pairwise_append.mp ordered
  rcases List.mem_append.mp r_mem with early | late
  · have := (apart r early z List.mem_cons_self).1
    omega
  · rcases List.mem_cons.mp late with rfl | late
    · omega
    · obtain ⟨between, later, rfl⟩ := List.append_of_mem late
      have moved : (between.reverse ++ z :: earlier).reverse ++ r :: later =
          earlier.reverse ++ z :: (between ++ r :: later) := by simp
      rw [← moved] at ordered ⊢
      exact ⟨between.reverse, before_append ordered⟩

/-- Before a range only ranges that start before it. -/
theorem InOrder.start_lt (ordered : InOrder ranges) (mem : r ∈ ranges) :
    ∀ z ∈ before ranges r, z ∈ ranges ∧ z.start < r.start := by
  intro z z_mem
  obtain ⟨later, split⟩ := ordered.exists_split mem
  have z_mem' : z ∈ (before ranges r).reverse := List.mem_reverse.mpr z_mem
  rw [split] at ordered
  refine ⟨?_, ((List.pairwise_append.mp ordered).2.2 z z_mem' r List.mem_cons_self).1⟩
  rw [split]
  exact List.mem_append_left _ z_mem'

/-- A range and those before it. -/
theorem InOrder.latestFirst (ordered : InOrder ranges) (mem : r ∈ ranges) :
    LatestFirst (r :: before ranges r) := by
  obtain ⟨later, split⟩ := ordered.exists_split mem
  rw [split] at ordered
  exact latestFirst_of_inOrder ordered

/-- What contains another range starts before it. -/
theorem InOrder.start_lt_of_covers (ordered : InOrder ranges) (z_mem : z ∈ ranges) (r_mem : r ∈ ranges)
    (other : z ≠ r) (covers : z.span.covers r.span = true) : z.start < r.start := by
  have distinct : (ranges.map (·.start)).Nodup :=
    List.pairwise_map.mpr (ordered.imp fun h => Nat.ne_of_lt h.1)
  have start : z.start ≠ r.start := fun same => other (List.inj_on_of_nodup_map distinct z_mem r_mem same)
  exact Nat.lt_of_le_of_ne (Span.covers_iff.mp covers).1 start

/-- An earlier range that reaches the first line has a smaller level. -/
theorem levelBehind_lt {newer : List FoldingRange} (latest_first : LatestFirst (r :: (newer ++ z :: earlier)))
    (reaches : r.startLine ≤ z.stopLine) :
    levelBehind earlier z < levelBehind (newer ++ z :: earlier) r := by
  induction newer generalizing r with
  | nil => rw [List.nil_append, levelBehind, if_pos reaches]; exact Nat.lt_succ_self _
  | cons last newer ih =>
    rw [List.cons_append, levelBehind]
    split
    · exact Nat.lt_succ_of_lt (ih latest_first.tail (Nat.le_trans latest_first.startLine_le reaches))
    · exact ih latest_first.skip reaches

/-- **What contains a range has a smaller level.** -/
theorem lineLevel_lt (arranged : Arranged ranges) (z_mem : z ∈ ranges) (r_mem : r ∈ ranges) (other : z ≠ r)
    (covers : z.span.covers r.span = true) : lineLevel ranges z < lineLevel ranges r := by
  have ordered := arranged.inOrder
  obtain ⟨newer, split⟩ :=
    ordered.before_eq_append z_mem r_mem (ordered.start_lt_of_covers z_mem r_mem other covers)
  have latest_first := ordered.latestFirst r_mem
  rw [lineLevel, lineLevel, split]
  rw [split] at latest_first
  exact levelBehind_lt latest_first (arranged.reaches z z_mem r r_mem covers)

/-- All that contains a range is before it. -/
theorem depthIn_eq_countP_before (ordered : InOrder ranges) (mem : r ∈ ranges) :
    depthIn ranges r = (before ranges r).countP (·.span.covers r.span) := by
  obtain ⟨later, split⟩ := ordered.exists_split mem
  have not_later : later.countP (fun z => z ≠ r && z.span.covers r.span) = 0 := by
    rw [split] at ordered
    obtain ⟨behind, -⟩ := List.pairwise_cons.mp (List.pairwise_append.mp ordered).2.1
    refine List.countP_eq_zero.mpr fun z z_mem holds => ?_
    rw [Bool.and_eq_true, Span.covers_iff] at holds
    exact Nat.not_lt.mpr holds.2.1 (behind z z_mem).1
  have others : (before ranges r).reverse.countP (fun z => z ≠ r && z.span.covers r.span) =
      (before ranges r).countP (·.span.covers r.span) := by
    rw [List.countP_reverse]
    refine List.countP_congr fun z z_mem => ?_
    have other : z ≠ r := fun same => Nat.ne_of_lt (ordered.start_lt mem z z_mem).2 (congrArg start same)
    simp [other]
  rw [depthIn]
  conv_lhs => rw [split]
  rw [List.countP_append, List.countP_cons_of_neg (by simp), not_later, others, Nat.add_zero]

/-- **The level is at least the number of ranges that contain the range.** -/
theorem depthIn_le_lineLevel (arranged : Arranged ranges) (mem : r ∈ ranges) :
    depthIn ranges r ≤ lineLevel ranges r := by
  have ordered := arranged.inOrder
  rw [depthIn_eq_countP_before ordered mem]
  refine Nat.le_trans ?_ (countP_reaches_le_levelBehind (ordered.latestFirst mem))
  refine List.countP_mono_left fun z z_mem covers => decide_eq_true ?_
  exact arranged.reaches z (ordered.start_lt mem z z_mem).1 r mem covers

/-- **A range that is only reached by what contains it**: whatever starts before it and reaches its first
line contains it, and so it is for each range that contains it. -/
def OnlyContained (ranges : List FoldingRange) (r : FoldingRange) : Prop :=
  ∀ w ∈ ranges, w.span.covers r.span = true → ∀ z ∈ ranges, z.start < w.start → w.startLine ≤ z.stopLine →
    z.span.covers w.span = true

instance (ranges : List FoldingRange) (r : FoldingRange) : Decidable (OnlyContained ranges r) :=
  inferInstanceAs (Decidable (∀ w ∈ ranges, _ → ∀ z ∈ ranges, _ → _ → _))

/-- What contains such a range is such a range. -/
theorem OnlyContained.of_covers (only : OnlyContained ranges r) (covers : z.span.covers r.span = true) :
    OnlyContained ranges z :=
  fun w w_mem outer => only w w_mem (Span.covers_trans outer covers)

/-- The level is at most the number of earlier ranges that contain the range, if all that is around contains
it. -/
theorem levelBehind_le_countP (only : OnlyContained ranges r) (r_mem : r ∈ ranges)
    (latest_first : LatestFirst (r :: earlier)) (mem : ∀ z ∈ earlier, z ∈ ranges) :
    levelBehind earlier r ≤ earlier.countP (·.span.covers r.span) := by
  induction earlier generalizing r with
  | nil => exact Nat.zero_le _
  | cons last earlier ih =>
    obtain ⟨last_mem, earlier_mem⟩ := List.forall_mem_cons.mp mem
    rw [levelBehind]
    split
    next reaches =>
      have starts := ((List.pairwise_cons.mp latest_first).1 last List.mem_cons_self).1
      have covers := only r r_mem (Span.covers_self _) last last_mem starts reaches
      have around_last := ih (only.of_covers covers) last_mem latest_first.tail earlier_mem
      have outer : earlier.countP (·.span.covers last.span) ≤ earlier.countP (·.span.covers r.span) :=
        List.countP_mono_left fun z _ outer => Span.covers_trans outer covers
      rw [List.countP_cons, if_pos covers]
      exact Nat.succ_le_succ (Nat.le_trans around_last outer)
    next =>
      have around := ih only r_mem latest_first.skip earlier_mem
      exact Nat.le_trans around (List.sublist_cons_self last earlier).countP_le

/-- **Where only what contains a range reaches it**, the level is the number of ranges that contain it. -/
theorem lineLevel_le_depthIn (ordered : InOrder ranges) (mem : r ∈ ranges)
    (only : OnlyContained ranges r) : lineLevel ranges r ≤ depthIn ranges r := by
  rw [depthIn_eq_countP_before ordered mem]
  exact levelBehind_le_countP only mem (ordered.latestFirst mem) fun z z_mem =>
    (ordered.start_lt mem z z_mem).1

end FoldingRange

end MarkupAnalysis
