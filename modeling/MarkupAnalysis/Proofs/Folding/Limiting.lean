import MarkupAnalysis.Proofs.Folding.Levels
import MarkupAnalysis.Proofs.Folding.Nesting

/-! # What a limit keeps

A limit cuts the levels: those above the cut are kept whole, those below it not at all, and of the level in
between the earlier ranges. So a larger limit keeps more, and what contains a kept range is kept.

* **`FoldingRange.CutAt`** — where a limit cuts some levels.
* **`FoldingRange.limitRanges_eq_keep`** — a limit keeps what its cut keeps.
* **`FoldingRange.Limited`** — the ranges for each limit.
* **`foldingRanges_limited`** — the ranges of every text under every limit.
* **`foldingRanges_dropped`** — which ranges of a text a limit drops. -/

namespace MarkupAnalysis

open Document

namespace FoldingRange

variable {r z : FoldingRange} {ranges : List FoldingRange} {levels : List Nat}
  {levelled : List (FoldingRange × Nat)} {limit cutoff room cutoff' room' level : Nat}

/-! ## Cuts -/

/-- **Where a limit cuts levels**: what is above the cut is counted whole, and the room that is left is too
small for the level at the cut. -/
structure CutAt (levels : List Nat) (limit cutoff room : Nat) : Prop where
  /-- What is above the cut and the room that is left. -/
  counted : levels.countP (· < cutoff) + room = limit
  /-- The level at the cut does not fit. -/
  room_lt : room < levels.count cutoff

/-- The levels up to one, counted. -/
theorem countP_lt_succ (levels : List Nat) (level : Nat) :
    levels.countP (· < level + 1) = levels.countP (· < level) + levels.count level := by
  induction levels with
  | nil => rfl
  | cons first levels ih =>
    simp only [List.countP_cons, List.count_cons, beq_iff_eq, decide_eq_true_eq, ih]
    split <;> split <;> split <;> omega

/-- More levels are above a later cut. -/
theorem countP_lt_mono (levels : List Nat) (le : cutoff ≤ cutoff') :
    levels.countP (· < cutoff) ≤ levels.countP (· < cutoff') :=
  List.countP_mono_left fun _ _ lt => decide_eq_true (Nat.lt_of_lt_of_le (of_decide_eq_true lt) le)

/-- **A larger limit does not cut earlier**, and leaves more room at the same cut. -/
theorem CutAt.mono {limit' : Nat} (cut : CutAt levels limit cutoff room)
    (cut' : CutAt levels limit' cutoff' room') (le : limit ≤ limit') :
    cutoff < cutoff' ∨ cutoff = cutoff' ∧ room ≤ room' := by
  have counted := cut.counted
  have counted' := cut'.counted
  rcases Nat.lt_trichotomy cutoff cutoff' with earlier | rfl | later
  · exact .inl earlier
  · exact .inr ⟨rfl, by omega⟩
  · -- The whole level at the earlier cut would be kept, though it does not even fit the larger limit.
    have whole := countP_lt_mono levels (Nat.succ_le_of_lt later)
    rw [Nat.succ_eq_add_one, countP_lt_succ] at whole
    have := cut'.room_lt
    omega

/-- Counting whole levels stops at one that does not fit, or at the last one. -/
theorem wholeLevels_spec (levels : List Nat) (more level room : Nat) :
    let cut := wholeLevels levels more level room
    levels.countP (· < cut.1) + cut.2 = levels.countP (· < level) + room ∧
      (cut.2 < levels.count cut.1 ∨ cut.1 = level + more) := by
  fun_induction wholeLevels levels more level room with
  | case1 => exact ⟨rfl, .inr rfl⟩
  | case2 more level room count full => exact ⟨rfl, .inl full⟩
  | case3 more level room count fits ih =>
    rw [countP_lt_succ] at ih
    exact ⟨by omega, ih.2.imp_right (by omega)⟩

/-- The greatest level is a bound. -/
theorem le_foldl_max (levels : List Nat) (bound : Nat) :
    bound ≤ levels.foldl max bound ∧ ∀ level ∈ levels, level ≤ levels.foldl max bound := by
  induction levels generalizing bound with
  | nil => exact ⟨Nat.le_refl _, nofun⟩
  | cons first levels ih =>
    obtain ⟨start, rest⟩ := ih (max bound first)
    refine ⟨Nat.le_trans (Nat.le_max_left _ _) start, List.forall_mem_cons.mpr ⟨?_, rest⟩⟩
    exact Nat.le_trans (Nat.le_max_right _ _) start

/-- **A limit below the number of levels cuts them.** -/
theorem cutAt_wholeLevels (some_dropped : limit < levels.length) :
    CutAt levels limit (wholeLevels levels (levels.foldl max 0 + 1) 0 limit).1
      (wholeLevels levels (levels.foldl max 0 + 1) 0 limit).2 := by
  obtain ⟨counted, full | all⟩ := wholeLevels_spec levels (levels.foldl max 0 + 1) 0 limit
  · exact ⟨by simpa using counted, full⟩
  · have every : levels.countP (· < 0 + (levels.foldl max 0 + 1)) = levels.length :=
      List.countP_eq_length.mpr fun level mem =>
        decide_eq_true (by have := (le_foldl_max levels 0).2 level mem; omega)
    rw [all, every] at counted
    simp at counted
    omega

/-! ## What a cut keeps -/

/-- How many ranges a cut keeps. -/
theorem length_keep (cutoff room : Nat) (levelled : List (FoldingRange × Nat)) :
    (keep cutoff room levelled).length =
      (levelled.map Prod.snd).countP (· < cutoff) + min room ((levelled.map Prod.snd).count cutoff) := by
  fun_induction keep cutoff room levelled with
  | case1 => simp
  | case2 room range level levelled above ih =>
    simp only [List.map_cons, List.length_cons, List.countP_cons, List.count_cons, ih]
    simp [above, Nat.ne_of_lt above]
    omega
  | case3 room range level levelled below fits ih =>
    simp only [Bool.and_eq_true, decide_eq_true_eq] at fits
    simp only [List.map_cons, List.length_cons, List.countP_cons, List.count_cons, ih]
    simp [fits.1]
    omega
  | case4 room range level levelled below full ih =>
    simp only [Bool.and_eq_true, decide_eq_true_eq] at full
    simp only [List.map_cons, List.countP_cons, List.count_cons, ih]
    by_cases here : level = cutoff
    · simp [here]
      omega
    · simp [below, here]

/-- What is above the cut is kept. -/
theorem mem_keep_of_lt (mem : (r, level) ∈ levelled) (above : level < cutoff) :
    r ∈ keep cutoff room levelled := by
  fun_induction keep cutoff room levelled with
  | case1 => cases mem
  | case2 room range level' levelled above' ih | case3 room range level' levelled below fits ih =>
    rcases List.mem_cons.mp mem with here | mem
    · cases here
      exact List.mem_cons_self
    · exact List.mem_cons_of_mem _ (ih mem)
  | case4 room range level' levelled below full ih =>
    rcases List.mem_cons.mp mem with here | mem
    · cases here
      exact absurd above below
    · exact ih mem

/-- What is kept is not below the cut. -/
theorem exists_le_of_mem_keep (kept : r ∈ keep cutoff room levelled) :
    ∃ level ≤ cutoff, (r, level) ∈ levelled := by
  fun_induction keep cutoff room levelled with
  | case1 => cases kept
  | case2 room range level levelled above ih =>
    rcases List.mem_cons.mp kept with rfl | kept
    · exact ⟨level, Nat.le_of_lt above, List.mem_cons_self⟩
    · obtain ⟨level', le, mem⟩ := ih kept
      exact ⟨level', le, List.mem_cons_of_mem _ mem⟩
  | case3 room range level levelled below fits ih =>
    simp only [Bool.and_eq_true, decide_eq_true_eq] at fits
    rcases List.mem_cons.mp kept with rfl | kept
    · exact ⟨level, Nat.le_of_eq fits.1, List.mem_cons_self⟩
    · obtain ⟨level', le, mem⟩ := ih kept
      exact ⟨level', le, List.mem_cons_of_mem _ mem⟩
  | case4 room range level levelled below full ih =>
    obtain ⟨level', le, mem⟩ := ih kept
    exact ⟨level', le, List.mem_cons_of_mem _ mem⟩

/-- **A later cut keeps all that an earlier one keeps**, and so does one with more room. -/
theorem keep_sublist_keep (later : cutoff < cutoff' ∨ cutoff = cutoff' ∧ room ≤ room') :
    (keep cutoff room levelled).Sublist (keep cutoff' room' levelled) := by
  induction levelled generalizing room room' with
  | nil => exact .slnil
  | cons first levelled ih =>
    obtain ⟨range, level⟩ := first
    simp only [keep, Bool.and_eq_true, decide_eq_true_eq]
    split_ifs
    all_goals first
      | exact (ih (by omega)).cons_cons range
      | exact (ih (by omega)).cons range
      | exact ih (by omega)
      | omega

/-! ## Limits -/

/-- The ranges that a limit leaves, if there are more. -/
def limited (ranges : List FoldingRange) (limit : Nat) : List FoldingRange :=
  if limit < ranges.length then limitRanges ranges limit else ranges

/-- A limit that is not reached drops nothing. -/
theorem limited_of_le (fits : ranges.length ≤ limit) : limited ranges limit = ranges :=
  if_neg (Nat.not_lt.mpr fits)

/-- **Other limits keep what their cut keeps.** -/
theorem exists_cutAt (some_dropped : limit < ranges.length) : ∃ cutoff room,
    CutAt (FoldingRange.levels ranges) limit cutoff room ∧
      limited ranges limit = keep cutoff room (ranges.zip (FoldingRange.levels ranges)) := by
  have length : (FoldingRange.levels ranges).length = ranges.length := length_levelsWithin [] ranges
  exact ⟨_, _, cutAt_wholeLevels (length ▸ some_dropped), if_pos some_dropped⟩

/-- Each range beside its level. -/
theorem mem_zip_levels_iff (ordered : InOrder ranges) :
    (r, level) ∈ ranges.zip (FoldingRange.levels ranges) ↔ r ∈ ranges ∧ level = lineLevel ranges r := by
  rw [levels_eq ordered, ← List.map_prod_left_eq_zip]
  simp [eq_comm]

/-- A limit keeps as many ranges as it says. -/
theorem length_limited (ranges : List FoldingRange) (limit : Nat) :
    (limited ranges limit).length = min limit ranges.length := by
  by_cases some_dropped : limit < ranges.length
  · obtain ⟨cutoff, room, cut, kept⟩ := exists_cutAt some_dropped
    have levels : (ranges.zip (FoldingRange.levels ranges)).map Prod.snd = FoldingRange.levels ranges :=
      List.map_snd_zip (Nat.le_of_eq (length_levelsWithin [] ranges))
    have := cut.counted
    have := cut.room_lt
    rw [kept, length_keep, levels]
    omega
  · rw [limited_of_le (Nat.le_of_not_lt some_dropped)]
    omega

/-- The ranges stay in order. -/
theorem limited_sublist (ranges : List FoldingRange) (limit : Nat) : (limited ranges limit).Sublist ranges := by
  unfold limited
  split
  · exact limitRanges_sublist ranges limit
  · exact .refl _

/-- A larger limit keeps more. -/
theorem limited_sublist_limited {limit' : Nat} (ranges : List FoldingRange) (le : limit ≤ limit') :
    (limited ranges limit).Sublist (limited ranges limit') := by
  by_cases some_dropped : limit' < ranges.length
  · obtain ⟨cutoff, room, cut, kept⟩ := exists_cutAt (Nat.lt_of_le_of_lt le some_dropped)
    obtain ⟨cutoff', room', cut', kept'⟩ := exists_cutAt some_dropped
    rw [kept, kept']
    exact keep_sublist_keep (cut.mono cut' le)
  · rw [limited_of_le (Nat.le_of_not_lt some_dropped)]
    exact limited_sublist ranges limit

/-- **What is kept is on no deeper level than what is dropped.** -/
theorem lineLevel_le_of_dropped (ordered : InOrder ranges) (kept : r ∈ limited ranges limit)
    (mem : z ∈ ranges) (dropped : z ∉ limited ranges limit) : lineLevel ranges r ≤ lineLevel ranges z := by
  by_cases some_dropped : limit < ranges.length
  · obtain ⟨cutoff, room, -, keeps⟩ := exists_cutAt some_dropped
    rw [keeps] at kept dropped
    obtain ⟨level, le, r_mem⟩ := exists_le_of_mem_keep kept
    obtain ⟨-, rfl⟩ := (mem_zip_levels_iff ordered).mp r_mem
    have not_above : ¬ lineLevel ranges z < cutoff := fun above =>
      dropped (mem_keep_of_lt ((mem_zip_levels_iff ordered).mpr ⟨mem, rfl⟩) above)
    omega
  · rw [limited_of_le (Nat.le_of_not_lt some_dropped)] at dropped
    exact absurd mem dropped

/-- **The ranges for each limit**, given those without one. -/
structure Limited (ranges : List FoldingRange) (kept : Nat → List FoldingRange) : Prop where
  /-- There are as many as the limit says, or all of them. -/
  length : ∀ limit, (kept limit).length = min limit ranges.length
  /-- They are in the order of the others. -/
  sublist : ∀ limit, (kept limit).Sublist ranges
  /-- The next limit keeps them, too. -/
  grows : ∀ limit, (kept limit).Sublist (kept (limit + 1))
  /-- Whatever contains a range that is kept is kept. -/
  containing : ∀ limit, ∀ r ∈ kept limit, ∀ z ∈ ranges, z.span.covers r.span = true → z ∈ kept limit

/-- **Limits on ranges in order.** -/
theorem Arranged.limited (arranged : Arranged ranges) : Limited ranges (limited ranges) := by
  refine ⟨length_limited ranges, limited_sublist ranges,
    fun limit => limited_sublist_limited ranges (Nat.le_succ limit), fun limit r kept z z_mem covers => ?_⟩
  have r_mem : r ∈ ranges := (limited_sublist ranges limit).subset kept
  by_contra dropped
  have other : z ≠ r := fun same => dropped (same ▸ kept)
  have deeper := lineLevel_lt arranged z_mem r_mem other covers
  have := lineLevel_le_of_dropped arranged.inOrder kept z_mem dropped
  omega

end FoldingRange

/-! ## Whole texts -/

/-- The ranges of a text are in order. -/
theorem Document.arranged_unlimitedFolding [Text.WordClass] (v : Vocabulary) (t : Text) :
    FoldingRange.Arranged ((parse v t).unlimitedFolding t) := by
  have h := innermostOfLines_unlimitedFolding v t
  refine ⟨h.ordered, fun z z_mem r r_mem covers => ?_⟩
  have outer := h.candidates z z_mem
  have inner := h.candidates r r_mem
  calc r.startLine
    _ ≤ r.stopLine := Nat.le_of_lt inner.later_line
    _ = (Lines.of t).lineOf r.stop := inner.stopLine
    _ ≤ (Lines.of t).lineOf z.stop := Lines.lineOf_mono t (Span.covers_iff.mp covers).2
    _ = z.stopLine := outer.stopLine.symm

/-- **The folding ranges of every text under every limit**: as many as it says, in order, more of them for
the next limit, and with each range all that contain it. -/
theorem foldingRanges_limited [Text.WordClass] (v : Vocabulary) (t : Text) :
    FoldingRange.Limited ((parse v t).foldingRanges t none)
      fun limit => (parse v t).foldingRanges t (some limit) :=
  (arranged_unlimitedFolding v t).limited

/-- **What a limit drops.** A range that is kept is in no more ranges than there are around one that is
dropped, by their lines; and in no more than contain that one, if it and what contains it start on no line
that another range only reaches. -/
theorem foldingRanges_dropped [Text.WordClass] (v : Vocabulary) (t : Text) (limit : Nat) (x y : FoldingRange)
    (kept : x ∈ (parse v t).foldingRanges t (some limit)) (found : y ∈ (parse v t).foldingRanges t none)
    (dropped : y ∉ (parse v t).foldingRanges t (some limit)) :
    let ranges := (parse v t).foldingRanges t none
    x.depthIn ranges ≤ y.lineLevel ranges ∧
      (y.OnlyContained ranges → x.depthIn ranges ≤ y.depthIn ranges) := by
  have arranged := arranged_unlimitedFolding v t
  have x_mem := (foldingRanges_sublist _ t (some limit)).subset kept
  have levels := FoldingRange.lineLevel_le_of_dropped arranged.inOrder kept found dropped
  have depth := Nat.le_trans (FoldingRange.depthIn_le_lineLevel arranged x_mem) levels
  exact ⟨depth, fun only => Nat.le_trans depth
    (FoldingRange.lineLevel_le_depthIn arranged.inOrder found only)⟩

/-- An element that starts on the line where another one ends. -/
def siblingOnLastLine : Text := "<a>\n<b>\n</b>\n</a><c>\n</c>".toList

/-- The elements `a` with `b` in it, and `c` behind them. -/
theorem foldingRanges_siblingOnLastLine :
    (parse .empty siblingOnLastLine).foldingRanges siblingOnLastLine none =
      [⟨3, 17, 0, 3, none⟩, ⟨7, 12, 1, 2, none⟩, ⟨20, 25, 3, 4, none⟩] := by
  have candidates : (parse .empty siblingOnLastLine).foldingCandidates siblingOnLastLine =
      [⟨3, 17, 0, 3, none⟩, ⟨7, 12, 1, 2, none⟩, ⟨20, 25, 3, 4, none⟩] := by
    decide +kernel
  have length : siblingOnLastLine.byteLength = (parse .empty siblingOnLastLine).textLength := rfl
  rw [foldingRanges, unlimitedFolding, if_pos length, candidates]
  simp [List.mergeSort, List.MergeSort.Internal.splitInTwo, FoldingRange.innerFirst, FoldingRange.outerFirst,
    FoldingRange.firstOfLines]

/-- With a limit there, the ranges that are left are those of the cut. -/
theorem foldingRanges_siblingOnLastLine_limited (limit : Nat) :
    (parse .empty siblingOnLastLine).foldingRanges siblingOnLastLine (some limit) =
      FoldingRange.limited [⟨3, 17, 0, 3, none⟩, ⟨7, 12, 1, 2, none⟩, ⟨20, 25, 3, 4, none⟩] limit :=
  congrArg (FoldingRange.limited · limit) foldingRanges_siblingOnLastLine

/-- One range only: the outer one is kept, and the one in it dropped. -/
theorem foldingRanges_dropped_inner :
    let ranges := (parse .empty siblingOnLastLine).foldingRanges siblingOnLastLine none
    (⟨3, 17, 0, 3, none⟩ : FoldingRange).depthIn ranges ≤ (⟨7, 12, 1, 2, none⟩ : FoldingRange).depthIn ranges :=
  (foldingRanges_dropped .empty siblingOnLastLine 1 ⟨3, 17, 0, 3, none⟩ ⟨7, 12, 1, 2, none⟩
    (by rw [foldingRanges_siblingOnLastLine_limited]; decide)
    (by rw [foldingRanges_siblingOnLastLine]; decide)
    (by rw [foldingRanges_siblingOnLastLine_limited]; decide)).2
    (by rw [foldingRanges_siblingOnLastLine]; decide)

/-- **Two ranges: the inner one is kept**, and the one that no range contains is dropped, as it starts on the
last line of another. -/
theorem foldingRanges_drops_outer :
    let ranges := (parse .empty siblingOnLastLine).foldingRanges siblingOnLastLine none
    let kept := (parse .empty siblingOnLastLine).foldingRanges siblingOnLastLine (some 2)
    ∃ x ∈ kept, ∃ y ∈ ranges, y ∉ kept ∧ y.depthIn ranges < x.depthIn ranges := by
  rw [foldingRanges_siblingOnLastLine_limited, foldingRanges_siblingOnLastLine]
  exact ⟨⟨7, 12, 1, 2, none⟩, by decide, ⟨20, 25, 3, 4, none⟩, by decide, by decide, by decide⟩

end MarkupAnalysis
