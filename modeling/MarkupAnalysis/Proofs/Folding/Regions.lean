import Mathlib.Tactic.Common
import MarkupAnalysis.Folding.Basic

/-! # Regions

The markers of regions are matched like parentheses: a region ends with the marker before which all regions
that open inside it have ended. Markers that nothing matches are ignored. This is what the stack of open
regions finds.

* **`Comment.marker?`** — the marker that a comment is.
* **`BalancedRegions`** — comments in which every marker is matched.
* **`RegionPair`** — two markers that are matched.
* **`regionsAfter_eq_cons_iff`** — which marker opened the innermost open region.
* **`mem_commentSpans_comment_iff`**, **`mem_commentSpans_region_iff`** — what comments fold. -/

namespace MarkupAnalysis

variable {t : Text} {openRegions : List Nat} {c : Comment} {comments : List Comment} {s : Span}

/-! ## Comments that can be read -/

/-- The content of all comments is a part of the text. -/
def ReadableComments (t : Text) (comments : List Comment) : Prop :=
  ∀ c ∈ comments, ∃ content, t.slice? c.content = some content

/-- The content of a comment cannot be missing. -/
theorem ReadableComments.slice?_ne_none (readable : ReadableComments t (c :: comments)) :
    t.slice? c.content ≠ none := by
  obtain ⟨content, slice⟩ := readable c List.mem_cons_self
  simp [slice]

/-- The comments behind the first one. -/
theorem ReadableComments.tail (readable : ReadableComments t (c :: comments)) :
    ReadableComments t comments := fun c mem => readable c (List.mem_cons_of_mem _ mem)

/-! ## Pairs of markers -/

variable [Text.WordClass]

/-- The marker that a comment is, if it is one. -/
def Comment.marker? (t : Text) (c : Comment) : Option RegionMarker :=
  (t.slice? c.content).bind RegionMarker.of?

/-- **Every marker is matched**: nothing but comments that are no markers, and whole regions. -/
inductive BalancedRegions (t : Text) : List Comment → Prop
  /-- No comment. -/
  | nil : BalancedRegions t []
  /-- A comment that is no marker comes first. -/
  | plain {c : Comment} {comments : List Comment} (no_marker : c.marker? t = none)
      (further : BalancedRegions t comments) : BalancedRegions t (c :: comments)
  /-- A region comes first. -/
  | region {opening ending : Comment} {inside behind : List Comment}
      (opens : opening.marker? t = some .opening) (inner : BalancedRegions t inside)
      (ends : ending.marker? t = some .ending) (further : BalancedRegions t behind) :
      BalancedRegions t (opening :: (inside ++ ending :: behind))

/-- **Two markers are matched** if every marker between them is matched there. -/
def RegionPair (t : Text) (comments : List Comment) (opening ending : Comment) : Prop :=
  ∃ before inside behind, comments = before ++ opening :: (inside ++ ending :: behind) ∧
    opening.marker? t = some .opening ∧ ending.marker? t = some .ending ∧ BalancedRegions t inside

/-- Balanced comments after balanced comments. -/
theorem BalancedRegions.append {first later : List Comment} (h : BalancedRegions t first)
    (h' : BalancedRegions t later) : BalancedRegions t (first ++ later) := by
  induction h with
  | nil => exact h'
  | plain no_marker _ ih => exact .plain no_marker ih
  | region opens inner ends _ _ ih =>
    rw [List.cons_append, List.append_assoc, List.cons_append]
    exact .region opens inner ends ih

/-! ## Open regions -/

/-- The starts of the regions that are open behind a comment, innermost first. -/
def Comment.regionsAfter (t : Text) (before : List Nat) (c : Comment) : List Nat :=
  match c.marker? t with
  | some .opening => c.span.start :: before
  | some .ending => before.tail
  | none => before

/-- The starts of the regions that are open behind all of the comments. -/
def regionsAfter (t : Text) (before : List Nat) (comments : List Comment) : List Nat :=
  comments.foldl (Comment.regionsAfter t) before

/-- Balanced comments leave the regions open that were open. -/
theorem BalancedRegions.regionsAfter_eq (balanced : BalancedRegions t comments) (before : List Nat) :
    regionsAfter t before comments = before := by
  induction balanced generalizing before with
  | nil => rfl
  | plain no_marker _ ih => simpa [regionsAfter, Comment.regionsAfter, no_marker] using ih before
  | @region opening ending inside behind opens _ ends _ inner_ih ih =>
    have inner : inside.foldl (Comment.regionsAfter t) (opening.span.start :: before) =
        opening.span.start :: before := inner_ih (opening.span.start :: before)
    simpa [regionsAfter, Comment.regionsAfter, opens, ends, inner] using ih before

/-- **The innermost open region** was opened by a marker that is not matched yet. -/
theorem regionsAfter_eq_cons_iff {start : Nat} :
    regionsAfter t [] comments = start :: openRegions ↔
      ∃ before opening inside, comments = before ++ opening :: inside ∧
        opening.marker? t = some .opening ∧ BalancedRegions t inside ∧
        regionsAfter t [] before = openRegions ∧ start = opening.span.start := by
  constructor
  · -- From the last comment backwards; a marker that ends a region is followed by the markers around it.
    induction hlength : comments.length using Nat.strongRecOn generalizing comments start openRegions with
    | _ length ih =>
    intro opened
    rcases List.eq_nil_or_concat comments with rfl | ⟨done, c, rfl⟩
    · cases opened
    have shorter : done.length < length := by
      rw [← hlength, List.length_concat]
      exact Nat.lt_succ_self _
    have last : Comment.regionsAfter t (regionsAfter t [] done) c = start :: openRegions := by
      rwa [regionsAfter, List.concat_eq_append, List.foldl_append] at opened
    rw [Comment.regionsAfter] at last
    cases marker : c.marker? t with
    | none =>
      simp only [marker] at last
      obtain ⟨before, opening, inside, rfl, opens, balanced, after, rfl⟩ := ih _ shorter rfl last
      have longer := balanced.append (.plain marker .nil)
      exact ⟨before, opening, inside ++ [c], by simp, opens, longer, after, rfl⟩
    | some marker' =>
      cases marker' with
      | opening =>
        simp only [marker] at last
        obtain ⟨rfl, rfl⟩ := List.cons.inj last
        exact ⟨done, c, [], by simp, marker, .nil, rfl, rfl⟩
      | ending =>
        simp only [marker] at last
        obtain ⟨inner, stack⟩ : ∃ inner, regionsAfter t [] done = inner :: start :: openRegions := by
          cases stack : regionsAfter t [] done with
          | nil => simp [stack] at last
          | cons inner outer => exact ⟨inner, by rw [stack, List.tail_cons] at last; rw [last]⟩
        obtain ⟨around, opening', inside', rfl, opens', balanced', after', -⟩ := ih _ shorter rfl stack
        have around_shorter : around.length < length :=
          Nat.lt_of_le_of_lt (by simp) shorter
        obtain ⟨before, opening, inside, rfl, opens, balanced, after, rfl⟩ := ih _ around_shorter rfl after'
        refine ⟨before, opening, inside ++ opening' :: (inside' ++ [c]), by simp, opens, ?_, after, rfl⟩
        exact balanced.append (.region opens' balanced' marker .nil)
  · rintro ⟨before, opening, inside, rfl, opens, balanced, rfl, rfl⟩
    have inner := balanced.regionsAfter_eq (opening.span.start :: regionsAfter t [] before)
    simpa [regionsAfter, Comment.regionsAfter, opens] using inner

/-- A marker that ends a region, and the span of the region. -/
def EndsRegion (t : Text) (before : List Nat) (comments : List Comment) (s : Span) : Prop :=
  ∃ done ending behind, comments = done ++ ending :: behind ∧ ending.marker? t = some .ending ∧
    s.stop = ending.span.stop ∧ (regionsAfter t before done).head? = some s.start

/-- The first comment ends the innermost region, or a later one ends a region. -/
theorem endsRegion_cons_iff : EndsRegion t openRegions (c :: comments) s ↔
    (c.marker? t = some .ending ∧ s.stop = c.span.stop ∧ openRegions.head? = some s.start) ∨
      EndsRegion t (c.regionsAfter t openRegions) comments s := by
  constructor
  · rintro ⟨done, ending, behind, split, ends, stop, head⟩
    cases done with
    | nil =>
      obtain ⟨rfl, rfl⟩ := List.cons.inj split
      exact .inl ⟨ends, stop, head⟩
    | cons first done =>
      obtain ⟨rfl, rfl⟩ := List.cons.inj split
      exact .inr ⟨done, ending, behind, rfl, ends, stop, head⟩
  · rintro (⟨ends, stop, head⟩ | ⟨done, ending, behind, rfl, ends, stop, head⟩)
    · exact ⟨[], c, comments, rfl, ends, stop, head⟩
    · exact ⟨c :: done, ending, behind, rfl, ends, stop, head⟩

/-! ## What comments fold -/

/-- **Comments are folded** exactly if they are no markers. -/
theorem mem_commentSpans_comment_iff (readable : ReadableComments t comments) :
    (.comment, s) ∈ commentSpans t openRegions comments ↔
      ∃ c ∈ comments, c.marker? t = none ∧ s = c.span := by
  -- One comment after the other: its content is missing, or it opens a region, ends one, ends none, is
  -- no marker.
  fun_induction commentSpans t openRegions comments with
  | case1 => simp
  | case2 openRegions c comments no_slice => exact absurd no_slice readable.slice?_ne_none
  | case3 c comments content slice openRegions marker ih
  | case4 c comments content slice start openRegions marker ih
  | case5 c comments content slice marker ih
  | case6 c comments content slice openRegions marker ih =>
    simp [ih readable.tail, Comment.marker?, slice, marker]

/-- **A region is folded** by the marker that ends it. -/
theorem mem_commentSpans_region_iff_endsRegion (readable : ReadableComments t comments) :
    (.region, s) ∈ commentSpans t openRegions comments ↔ EndsRegion t openRegions comments s := by
  fun_induction commentSpans t openRegions comments with
  | case1 => simp [EndsRegion]
  | case2 openRegions c comments no_slice => exact absurd no_slice readable.slice?_ne_none
  | case4 c comments content slice start openRegions marker ih =>
    have here : s = ⟨start, c.span.stop⟩ ↔ s.stop = c.span.stop ∧ start = s.start := by
      cases s
      simp [and_comm, eq_comm]
    simp [ih readable.tail, endsRegion_cons_iff, Comment.regionsAfter, Comment.marker?, slice, marker, here]
  | case3 c comments content slice openRegions marker ih
  | case5 c comments content slice marker ih
  | case6 c comments content slice openRegions marker ih =>
    simp [ih readable.tail, endsRegion_cons_iff, Comment.regionsAfter, Comment.marker?, slice, marker]

/-- **Regions are folded** from the one marker to the other exactly if the two are matched. -/
theorem mem_commentSpans_region_iff (readable : ReadableComments t comments) :
    (.region, s) ∈ commentSpans t [] comments ↔
      ∃ opening ending, RegionPair t comments opening ending ∧
        s = ⟨opening.span.start, ending.span.stop⟩ := by
  rw [mem_commentSpans_region_iff_endsRegion readable]
  constructor
  · rintro ⟨before, ending, behind, rfl, ends, stop, head⟩
    obtain ⟨outer, stack⟩ := List.head?_eq_some_iff.mp head
    obtain ⟨around, opening, inside, rfl, opens, balanced, -, start⟩ := regionsAfter_eq_cons_iff.mp stack
    refine ⟨opening, ending, ⟨around, inside, behind, by simp, opens, ends, balanced⟩, ?_⟩
    rw [← start, ← stop]
  · rintro ⟨opening, ending, ⟨before, inside, behind, rfl, opens, ends, balanced⟩, rfl⟩
    refine ⟨before ++ opening :: inside, ending, behind, by simp, ends, rfl, ?_⟩
    rw [regionsAfter_eq_cons_iff.mpr ⟨before, opening, inside, rfl, opens, balanced, rfl, rfl⟩]
    rfl

end MarkupAnalysis
