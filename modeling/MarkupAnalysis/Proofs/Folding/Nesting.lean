import Mathlib.Data.List.Nodup
import MarkupAnalysis.Proofs.Document.NamePlaces
import MarkupAnalysis.Proofs.Folding.Candidates

/-! # How folding ranges lie

Two folding ranges are nested or apart, since the elements of a tree are, and comments, and regions whose
markers are matched like parentheses. The markers of a region do not know of elements, though: where an
element holds one of them only, the region and the element cross.

* **`Span.NestedOrApart`** — two spans that do not cross.
* **`commentSpans_pairwise`** — comments and regions do not cross.
* **`Document.Folds.nestedOrApart`** — neither do elements and comments.
* **`foldingRanges_nestedOrApart`** — the ranges of every text.
* **`foldingRanges_region_element`** — when a region and an element cross. -/

namespace MarkupAnalysis

open Document

/-! ## Nested and apart -/

/-- **Spans that do not cross**: one lies inside the other, or they have no byte in common. -/
def Span.NestedOrApart (s s' : Span) : Prop :=
  s.covers s' = true ∨ s'.covers s = true ∨ s.stop ≤ s'.start ∨ s'.stop ≤ s.start

instance (s s' : Span) : Decidable (s.NestedOrApart s') :=
  inferInstanceAs (Decidable (_ ∨ _ ∨ _ ∨ _))

/-- Two spans do not cross if their ends are in order. -/
theorem Span.nestedOrApart_iff {s s' : Span} : s.NestedOrApart s' ↔
    s.start ≤ s'.start ∧ s'.stop ≤ s.stop ∨ s'.start ≤ s.start ∧ s.stop ≤ s'.stop ∨
      s.stop ≤ s'.start ∨ s'.stop ≤ s.start := by
  rw [NestedOrApart, covers_iff, covers_iff]

/-- A span does not cross itself. -/
theorem Span.NestedOrApart.refl (s : Span) : s.NestedOrApart s := .inl (covers_self s)

/-- Neither of two spans crosses the other. -/
theorem Span.NestedOrApart.symm {s s' : Span} (h : s.NestedOrApart s') : s'.NestedOrApart s := by
  rw [nestedOrApart_iff] at *
  omega

/-! ## Comments and regions -/

section comments

variable {t : Text} {openRegions : List Nat} {comments : List Comment} {item : FoldingKind × Span}

/-- Comments one behind the other, and all of them behind `place`. -/
structure CommentsFrom (place : Nat) (comments : List Comment) : Prop where
  /-- Each of them has characters. -/
  start_lt_stop : ∀ c ∈ comments, c.span.start < c.span.stop
  /-- Each ends before the next one starts. -/
  ordered : comments.Pairwise fun c later => c.span.stop ≤ later.span.start
  /-- The place is before them. -/
  behind : ∀ c ∈ comments, place ≤ c.span.start

/-- Behind the first of the comments. -/
theorem CommentsFrom.tail {place : Nat} {c : Comment} (h : CommentsFrom place (c :: comments)) :
    CommentsFrom c.span.stop comments :=
  have ⟨first, rest⟩ := List.pairwise_cons.mp h.ordered
  ⟨fun c mem => h.start_lt_stop c (List.mem_cons_of_mem _ mem), rest, first⟩

/-- The first of the comments. -/
theorem CommentsFrom.head {place : Nat} {c : Comment} (h : CommentsFrom place (c :: comments)) :
    place ≤ c.span.start ∧ c.span.start < c.span.stop :=
  ⟨h.behind c List.mem_cons_self, h.start_lt_stop c List.mem_cons_self⟩

/-- The first of the comments ends behind the place. -/
theorem CommentsFrom.le_stop {place : Nat} {c : Comment} (h : CommentsFrom place (c :: comments)) :
    place ≤ c.span.stop :=
  Nat.le_trans h.head.1 (Nat.le_of_lt h.head.2)

/-- A span that ends behind the place, and starts there as well unless it starts at one of the others. -/
def Span.From (place : Nat) (starts : List Nat) (s : Span) : Prop :=
  (s.start ∈ starts ∨ place ≤ s.start) ∧ place ≤ s.stop

/-- An earlier place. -/
theorem Span.From.mono {place place' : Nat} {starts : List Nat} {s : Span} (h : s.From place starts)
    (earlier : place' ≤ place) : s.From place' starts :=
  ⟨h.1.imp_right (Nat.le_trans earlier), Nat.le_trans earlier h.2⟩

/-- **What comments fold** ends behind their start, and starts there unless its start was open before. -/
theorem commentSpans_from [Text.WordClass] {place : Nat} (comments_from : CommentsFrom place comments) :
    ∀ item ∈ commentSpans t openRegions comments, item.2.From place openRegions := by
  -- The place moves on to the end of each comment.
  fun_induction commentSpans t openRegions comments generalizing place with
  | case1 => simp
  | case2 openRegions c comments no_slice ih | case5 c comments content slice marker ih =>
    intro item mem
    exact (ih comments_from.tail item mem).mono comments_from.le_stop
  | case3 c comments content slice openRegions marker ih =>
    intro item mem
    obtain ⟨opened | behind, stop⟩ := (ih comments_from.tail item mem).mono comments_from.le_stop
    · rcases List.mem_cons.mp opened with here | opened
      · exact ⟨.inr (here ▸ comments_from.head.1), stop⟩
      · exact ⟨.inl opened, stop⟩
    · exact ⟨.inr behind, stop⟩
  | case4 c comments content slice start openRegions marker ih =>
    intro item mem
    rcases List.mem_cons.mp mem with rfl | mem
    · exact ⟨.inl List.mem_cons_self, comments_from.le_stop⟩
    · obtain ⟨start, stop⟩ := (ih comments_from.tail item mem).mono comments_from.le_stop
      exact ⟨start.imp_left (List.mem_cons_of_mem _), stop⟩
  | case6 c comments content slice openRegions marker ih =>
    intro item mem
    rcases List.mem_cons.mp mem with rfl | mem
    · exact ⟨.inr comments_from.head.1, comments_from.le_stop⟩
    · exact (ih comments_from.tail item mem).mono comments_from.le_stop

/-- A span is not crossed by what ends behind it and starts there or at an earlier start. -/
theorem Span.From.nestedOrApart {starts : List Nat} {s s' : Span} (h : s'.From s.stop starts)
    (earlier : ∀ start ∈ starts, start ≤ s.start) : s.NestedOrApart s' := by
  obtain ⟨opened | behind, ends⟩ := h
  · exact .inr (.inl (covers_iff.mpr ⟨earlier _ opened, ends⟩))
  · exact .inr (.inr (.inl behind))

/-- **Comments and regions do not cross.** -/
theorem commentSpans_pairwise [Text.WordClass] {place : Nat} (comments_from : CommentsFrom place comments)
    (innermost_first : openRegions.Pairwise (· ≥ ·)) (opened : ∀ start ∈ openRegions, start ≤ place) :
    (commentSpans t openRegions comments).Pairwise fun item later => item.2.NestedOrApart later.2 := by
  -- What is open starts before the place, so all that is still to come lies inside it or behind it.
  fun_induction commentSpans t openRegions comments generalizing place with
  | case1 => exact .nil
  | case2 openRegions c comments no_slice ih | case5 c comments content slice marker ih =>
    exact ih comments_from.tail innermost_first fun start mem =>
      Nat.le_trans (opened start mem) comments_from.le_stop
  | case3 c comments content slice openRegions marker ih =>
    obtain ⟨behind, some_text⟩ := comments_from.head
    have earlier : ∀ start ∈ openRegions, start ≤ c.span.start := fun start mem =>
      Nat.le_trans (opened start mem) behind
    refine ih comments_from.tail (.cons earlier innermost_first) fun start mem => ?_
    rcases List.mem_cons.mp mem with rfl | mem
    · exact Nat.le_of_lt some_text
    · exact Nat.le_trans (earlier start mem) (Nat.le_of_lt some_text)
  | case4 c comments content slice start openRegions marker ih =>
    obtain ⟨outer, rest⟩ := List.pairwise_cons.mp innermost_first
    refine .cons (fun item mem => ?_) (ih comments_from.tail rest fun start mem => ?_)
    · exact (commentSpans_from comments_from.tail item mem).nestedOrApart (s := ⟨start, c.span.stop⟩) outer
    · exact Nat.le_trans (opened start (List.mem_cons_of_mem _ mem)) comments_from.le_stop
  | case6 c comments content slice openRegions marker ih =>
    refine .cons (fun item mem => ?_) (ih comments_from.tail innermost_first fun start mem => ?_)
    · exact (commentSpans_from comments_from.tail item mem).nestedOrApart fun start mem =>
        Nat.le_trans (opened start mem) comments_from.head.1
    · exact Nat.le_trans (opened start mem) comments_from.le_stop

end comments

/-- One of the two is a region, and the other one an element. -/
def RegionWithElement (kind kind' : Option FoldingKind) : Prop :=
  kind = some .region ∧ kind' = none ∨ kind = none ∧ kind' = some .region

namespace Document

/-! ## Elements and comments -/

variable {v : Vocabulary} {t : Text} {kind kind' : Option FoldingKind} {s s' : Span}

/-- The comments of a text, from its start on. -/
theorem CommentsApart.commentsFrom {d : Document} (apart : d.CommentsApart t) :
    CommentsFrom 0 d.comments.toList :=
  ⟨fun c mem => apart.start_lt_stop c (Array.mem_toList_iff.mp mem), apart.ordered,
    fun _ _ => Nat.zero_le _⟩

/-- What two comments or regions fold does not cross. -/
theorem Folds.nestedOrApart_comments [Text.WordClass] {folded folded' : FoldingKind}
    (folds : (parse v t).Folds t (some folded) s) (folds' : (parse v t).Folds t (some folded') s') :
    s.NestedOrApart s' := by
  have apart := commentsApart_parse v t
  have all := commentSpans_pairwise (t := t) apart.commentsFrom .nil nofun
  have : Std.Symm fun item later : FoldingKind × Span => item.2.NestedOrApart later.2 :=
    ⟨fun _ _ h => h.symm⟩
  exact all.forall_of_forall (fun item _ => .refl item.2) ((mem_commentSpans_iff apart).mpr folds)
    ((mem_commentSpans_iff apart).mpr folds')

/-- What an element folds does not cross what a later one folds. -/
theorem nestedOrApart_of_lt {id later start start' : Nat} (element : (parse v t).IsElement id)
    (element' : (parse v t).IsElement later) (before : id < later)
    (ends : ((parse v t).node id).startTagEnd = some start)
    (ends' : ((parse v t).node later).startTagEnd = some start') :
    (⟨start, ((parse v t).node id).stop⟩ : Span).NestedOrApart ⟨start', ((parse v t).node later).stop⟩ := by
  have h := preordered_parse v t
  have starts : ((parse v t).node later).start ≤ start' := by
    have in_order := (h.wellFormed.element later element'.2 element'.1).1
    exact Node.contentStart_eq ends' ▸ in_order.start_le
  rcases h.inside_or_apart element.1 before element'.2 with inside | apart
  · have first := (h.content_of_mem_descendants element inside).1
    rw [Node.contentStart_eq ends] at first
    have last := (h.covers_of_mem_descendants element.2 inside).2
    exact .inl (Span.covers_iff.mpr ⟨Nat.le_trans first starts, last⟩)
  · exact .inr (.inr (.inl (Nat.le_trans apart starts)))

/-- What two elements fold does not cross. -/
theorem Folds.nestedOrApart_elements [Text.WordClass] (folds : (parse v t).Folds t none s)
    (folds' : (parse v t).Folds t none s') : s.NestedOrApart s' := by
  obtain @⟨id, start, element, ends⟩ := folds
  obtain @⟨id', start', element', ends'⟩ := folds'
  rcases Nat.lt_trichotomy id id' with before | rfl | behind
  · exact nestedOrApart_of_lt element element' before ends ends'
  · rw [Option.some.inj (ends.symm.trans ends')]
    exact .refl _
  · exact (nestedOrApart_of_lt element' element behind ends' ends).symm

/-- Neither end of what an element folds is inside a comment. -/
theorem Folds.avoids_ends [Text.WordClass] {c : Comment} (folds : (parse v t).Folds t none s)
    (mem : c ∈ (parse v t).comments) : c.span.Avoids s.start ∧ c.span.Avoids s.stop := by
  have apart := commentsApart_parse v t
  obtain @⟨id, start, element, ends⟩ := folds
  exact ⟨apart.edges id element.2 _ (.startTagEnd ends) c mem, apart.edges id element.2 _ .stop c mem⟩

/-- An element does not cross a comment. -/
theorem Folds.nestedOrApart_comment [Text.WordClass] {c : Comment} (folds : (parse v t).Folds t none s)
    (mem : c ∈ (parse v t).comments) : s.NestedOrApart c.span := by
  obtain ⟨start, stop⟩ := folds.avoids_ends mem
  have some_text := (commentsApart_parse v t).start_lt_stop c mem
  rw [Span.Avoids] at start stop
  rw [Span.nestedOrApart_iff]
  omega

/-- **What can be folded does not cross**, but for regions with elements. -/
theorem Folds.nestedOrApart [Text.WordClass] (folds : (parse v t).Folds t kind s)
    (folds' : (parse v t).Folds t kind' s') : RegionWithElement kind kind' ∨ s.NestedOrApart s' := by
  cases kind with
  | none =>
    cases kind' with
    | none => exact .inr (folds.nestedOrApart_elements folds')
    | some folded =>
      cases folds' with
      | comment mem => exact .inr (folds.nestedOrApart_comment mem)
      | region => exact .inl (.inr ⟨rfl, rfl⟩)
  | some folded =>
    cases kind' with
    | none =>
      cases folds with
      | comment mem => exact .inr (folds'.nestedOrApart_comment mem).symm
      | region => exact .inl (.inl ⟨rfl, rfl⟩)
    | some folded' => exact .inr (folds.nestedOrApart_comments folds')

/-! ## Regions and elements -/

/-- Markers that are matched are comments, the one behind the other. -/
theorem CommentsApart.of_regionPair [Text.WordClass] {d : Document} (apart : d.CommentsApart t)
    {opening ending : Comment} (pair : RegionPair t d.comments.toList opening ending) :
    opening ∈ d.comments ∧ ending ∈ d.comments ∧ opening.span.stop ≤ ending.span.start := by
  obtain ⟨before, inside, behind, split, -, -, -⟩ := pair
  have ordered := apart.ordered
  rw [split] at ordered
  obtain ⟨-, from_opening, -⟩ := List.pairwise_append.mp ordered
  have later : ending ∈ inside ++ ending :: behind := List.mem_append_right _ List.mem_cons_self
  refine ⟨?_, ?_, List.rel_of_pairwise_cons from_opening later⟩
  all_goals
    rw [← Array.mem_toList_iff, split]
    simp

/-- **A region crosses an element** that holds one of its markers only, unless both end together. -/
theorem Folds.nestedOrApart_region_iff [Text.WordClass] {opening ending : Comment}
    (folds : (parse v t).Folds t none s) (pair : RegionPair t (parse v t).comments.toList opening ending)
    (differ : opening.span.start ≠ s.start) :
    (⟨opening.span.start, ending.span.stop⟩ : Span).NestedOrApart s ↔
      s.covers opening.span = s.covers ending.span ∨ ending.span.stop = s.stop := by
  have apart := commentsApart_parse v t
  obtain ⟨opening_mem, ending_mem, between⟩ := apart.of_regionPair pair
  obtain ⟨start, stop⟩ := folds.avoids_ends opening_mem
  obtain ⟨start', stop'⟩ := folds.avoids_ends ending_mem
  have some_text := apart.start_lt_stop opening opening_mem
  have some_text' := apart.start_lt_stop ending ending_mem
  -- Neither end of the element is inside a marker, so it holds a marker or is apart from it.
  rw [Span.Avoids] at start stop start' stop'
  rw [Span.nestedOrApart_iff, Bool.eq_iff_iff, Span.covers_iff, Span.covers_iff]
  dsimp only
  omega

end Document

/-! ## Ranges -/

namespace FoldingRange

/-- Only given ranges are kept. -/
theorem keep_sublist (cutoff room : Nat) (ranges : List (FoldingRange × Nat)) :
    (keep cutoff room ranges).Sublist (ranges.map Prod.fst) := by
  fun_induction keep cutoff room ranges with
  | case1 => exact .slnil
  | case2 room range level ranges above ih => exact ih.cons_cons range
  | case3 room range level ranges below fits ih => exact ih.cons_cons range
  | case4 room range level ranges below full ih => exact ih.cons range

/-- Every range has a level. -/
theorem length_levelsWithin (around : List Nat) (ranges : List FoldingRange) :
    (levelsWithin around ranges).length = ranges.length := by
  induction ranges generalizing around with
  | nil => rfl
  | cons range ranges ih => exact congrArg Nat.succ (ih _)

/-- A limit only drops ranges. -/
theorem limitRanges_sublist (ranges : List FoldingRange) (limit : Nat) :
    (limitRanges ranges limit).Sublist ranges := by
  have all : (ranges.zip (levels ranges)).map Prod.fst = ranges :=
    List.map_fst_zip (Nat.le_of_eq (length_levelsWithin [] ranges).symm)
  have kept (cutoff room : Nat) := keep_sublist cutoff room (ranges.zip (levels ranges))
  simp only [all] at kept
  exact kept _ _

end FoldingRange

namespace Document

variable {v : Vocabulary} {t : Text} {limit : Option Nat} {r e : FoldingRange}

/-- With or without a limit, the ranges are some of those of all lines. -/
theorem foldingRanges_sublist [Text.WordClass] (d : Document) (t : Text) (limit : Option Nat) :
    (d.foldingRanges t limit).Sublist (d.unlimitedFolding t) := by
  unfold foldingRanges
  cases limit with
  | none => exact .refl _
  | some limit =>
    dsimp only
    split
    · exact FoldingRange.limitRanges_sublist _ limit
    · exact .refl _

/-- Every range is one of something that can be folded. -/
theorem folds_of_mem_foldingRanges [Text.WordClass] (mem : r ∈ (parse v t).foldingRanges t limit) :
    (parse v t).Folds t r.kind r.span :=
  ((innermostOfLines_unlimitedFolding v t).candidates r ((foldingRanges_sublist _ t limit).subset mem)).folds

/-- No two ranges start together. -/
theorem eq_of_start_eq [Text.WordClass] (mem : r ∈ (parse v t).foldingRanges t limit)
    (mem' : e ∈ (parse v t).foldingRanges t limit) (start : r.start = e.start) : r = e := by
  have distinct : (((parse v t).unlimitedFolding t).map (·.start)).Nodup :=
    List.pairwise_map.mpr ((innermostOfLines_unlimitedFolding v t).ordered.imp fun h => Nat.ne_of_lt h.1)
  have sublist := foldingRanges_sublist (parse v t) t limit
  exact List.inj_on_of_nodup_map distinct (sublist.subset mem) (sublist.subset mem') start

end Document

/-- **The ranges of every text do not cross**, but for regions with elements. -/
theorem foldingRanges_nestedOrApart [Text.WordClass] (v : Vocabulary) (t : Text) (limit : Option Nat) :
    ((parse v t).foldingRanges t limit).Pairwise fun r r' =>
      RegionWithElement r.kind r'.kind ∨ r.span.NestedOrApart r'.span :=
  List.pairwise_of_forall_mem_list fun _ mem _ mem' =>
    (folds_of_mem_foldingRanges mem).nestedOrApart (folds_of_mem_foldingRanges mem')

/-- **A region and an element cross** exactly if the element holds one of the two markers only and they end
at different places. -/
theorem foldingRanges_region_element [Text.WordClass] (v : Vocabulary) (t : Text) (limit : Option Nat)
    (r e : FoldingRange) (region_mem : r ∈ (parse v t).foldingRanges t limit)
    (element_mem : e ∈ (parse v t).foldingRanges t limit)
    (region : r.kind = some .region) (element : e.kind = none) :
    ∃ opening ending, RegionPair t (parse v t).comments.toList opening ending ∧
      r.span = ⟨opening.span.start, ending.span.stop⟩ ∧
      (r.span.NestedOrApart e.span ↔
        e.span.covers opening.span = e.span.covers ending.span ∨ r.stop = e.stop) := by
  have folds := folds_of_mem_foldingRanges region_mem
  have folds' := folds_of_mem_foldingRanges element_mem
  have differ : r.start ≠ e.start := fun same => by
    rw [eq_of_start_eq region_mem element_mem same, element] at region
    cases region
  rw [region] at folds
  rw [element] at folds'
  generalize span : r.span = s at folds
  obtain _ | _ | @⟨opening, ending, pair⟩ := folds
  have start : r.start = opening.span.start := congrArg Span.start span
  have stop : r.stop = ending.span.stop := congrArg Span.stop span
  refine ⟨opening, ending, pair, rfl, ?_⟩
  rw [stop]
  exact folds'.nestedOrApart_region_iff pair (start ▸ differ)

/-- A region that starts before an element and ends inside it. -/
def regionAcrossElement : Text := "<!-- #region -->\n<p>\n<!-- #endregion -->\n</p>".toList

/-- The region is folded on the first line, the element on the second one. -/
theorem foldingRanges_regionAcrossElement :
    (parse .empty regionAcrossElement).foldingRanges regionAcrossElement none =
      [⟨0, 40, 0, 2, some .region⟩, ⟨20, 45, 1, 3, none⟩] := by
  have candidates : (parse .empty regionAcrossElement).foldingCandidates regionAcrossElement =
      [⟨20, 45, 1, 3, none⟩, ⟨0, 40, 0, 2, some .region⟩] := by
    decide +kernel
  have length : regionAcrossElement.byteLength = (parse .empty regionAcrossElement).textLength := rfl
  rw [foldingRanges, unlimitedFolding, if_pos length, candidates]
  simp [List.mergeSort, List.MergeSort.Internal.splitInTwo, FoldingRange.innerFirst, FoldingRange.outerFirst,
    FoldingRange.firstOfLines]

/-- The element holds the marker that ends the region and not the one that opens it, they end at different
places, and they cross. -/
theorem foldingRanges_region_element_crossing :
    ∃ opening ending, RegionPair regionAcrossElement
        (parse .empty regionAcrossElement).comments.toList opening ending ∧
      (⟨0, 40⟩ : Span) = ⟨opening.span.start, ending.span.stop⟩ ∧
      (⟨20, 45⟩ : Span).covers opening.span = false ∧ (⟨20, 45⟩ : Span).covers ending.span = true ∧
      ¬ (⟨0, 40⟩ : Span).NestedOrApart ⟨20, 45⟩ := by
  have region_mem : ⟨0, 40, 0, 2, some .region⟩ ∈
      (parse .empty regionAcrossElement).foldingRanges regionAcrossElement none := by
    simp [foldingRanges_regionAcrossElement]
  have element_mem : ⟨20, 45, 1, 3, none⟩ ∈
      (parse .empty regionAcrossElement).foldingRanges regionAcrossElement none := by
    simp [foldingRanges_regionAcrossElement]
  obtain ⟨opening, ending, pair, span, nested_iff⟩ :=
    foldingRanges_region_element .empty regionAcrossElement none _ _ region_mem element_mem rfl rfl
  have start : 0 = opening.span.start := congrArg Span.start span
  have opens : (⟨20, 45⟩ : Span).covers opening.span = false := by simp [Span.covers, ← start]
  have cross : ¬ (⟨0, 40⟩ : Span).NestedOrApart ⟨20, 45⟩ := by decide
  -- If the element held neither marker, the two would not cross.
  have ends : (⟨20, 45⟩ : Span).covers ending.span = true := by
    by_contra none_held
    exact cross (nested_iff.mpr (.inl (opens.trans (Bool.eq_false_iff.mpr none_held).symm)))
  exact ⟨opening, ending, pair, span, opens, ends, cross⟩

/-- **A region may cross an element**: its markers do not know where elements end. -/
theorem region_crosses_element :
    ∃ r ∈ (parse .empty regionAcrossElement).foldingRanges regionAcrossElement none,
      ∃ e ∈ (parse .empty regionAcrossElement).foldingRanges regionAcrossElement none,
        r.kind = some .region ∧ e.kind = none ∧ ¬ r.span.NestedOrApart e.span := by
  rw [foldingRanges_regionAcrossElement]
  exact ⟨_, List.mem_cons_self, _, List.mem_cons_of_mem _ List.mem_cons_self, rfl, rfl, by decide⟩

end MarkupAnalysis
