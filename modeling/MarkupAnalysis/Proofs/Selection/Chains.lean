import Mathlib.Data.List.Destutter
import MarkupAnalysis.Proofs.Selection.Constructs

/-! # Chains of selections

The constructs around a cursor lie inside one another, so the chain loses none of them: only repetitions are
dropped. It goes from the first construct at the cursor to the whole text.

* **`Span.Grows`**, **`growing_eq_destutter`** — spans that grow strictly.
* **`mem_growing_iff`** — nothing but repetitions is dropped.
* **`Document.Preordered.insideOut_spansAround`** — the element and all that is around it.
* **`Document.ChainAround`**, **`Document.Selects`** — what a chain of selections is.
* **`selectionRanges_parse`** — the chains of every text. -/

namespace MarkupAnalysis

open Document

/-! ## Growing spans -/

/-- One span lies inside another one and differs from it. -/
def Span.Grows (inner outer : Span) : Prop := outer ≠ inner ∧ outer.covers inner = true

instance : DecidableRel Span.Grows := fun _ _ => inferInstanceAs (Decidable (_ ∧ _))

section growing

variable {s : Span} {spans : List Span}

/-- A span is kept if it covers the one kept before it and differs from it. -/
def keepGrowing (kept : List Span) (s : Span) : List Span :=
  match kept with
  | [] => [s]
  | inner :: _ => if s != inner && s.covers inner then s :: kept else kept

theorem growing_eq_foldl (spans : List Span) : growing spans = (spans.foldl keepGrowing []).reverse := rfl

/-- What is kept after some spans. -/
theorem reverse_foldl_keepGrowing (inner : Span) (kept spans : List Span) :
    (spans.foldl keepGrowing (inner :: kept)).reverse =
      kept.reverse ++ spans.destutter' Span.Grows inner := by
  induction spans generalizing inner kept with
  | nil => simp
  | cons s spans ih =>
    by_cases grows : inner.Grows s
    · have keeps : keepGrowing (inner :: kept) s = s :: inner :: kept :=
        if_pos (by simpa [Span.Grows] using grows)
      rw [List.foldl_cons, keeps, ih, List.destutter'_cons_pos _ grows]
      simp
    · have drops : keepGrowing (inner :: kept) s = inner :: kept :=
        if_neg (by simpa [Span.Grows] using grows)
      rw [List.foldl_cons, drops, ih, List.destutter'_cons_neg _ grows]

/-- **The spans that grow** are those that are left when each one has to grow. -/
theorem growing_eq_destutter (spans : List Span) : growing spans = spans.destutter Span.Grows := by
  rw [growing_eq_foldl]
  cases spans with
  | nil => rfl
  | cons s spans => exact reverse_foldl_keepGrowing s [] spans

/-- From the first span on only repetitions are dropped, and the last span stays. -/
theorem InsideOut.destutter' (h : InsideOut (s :: spans)) :
    (∀ s' ∈ s :: spans, s' ∈ spans.destutter' Span.Grows s) ∧
      (spans.destutter' Span.Grows s).getLast? = (s :: spans).getLast? := by
  induction spans generalizing s with
  | nil => simp
  | cons next spans ih =>
    obtain ⟨inside, rest⟩ := List.pairwise_cons.mp h
    by_cases grows : s.Grows next
    · obtain ⟨all, last⟩ := ih rest
      rw [List.destutter'_cons_pos _ grows]
      refine ⟨fun s' mem => ?_, ?_⟩
      · rcases List.mem_cons.mp mem with rfl | mem
        · exact List.mem_cons_self
        · exact List.mem_cons_of_mem _ (all s' mem)
      · rw [List.getLast?_cons, last, ← List.getLast?_cons]
    · -- The next span covers this one, so it is the same.
      have same : next = s := not_not.mp fun differ => grows ⟨differ, inside next List.mem_cons_self⟩
      subst same
      obtain ⟨all, last⟩ := ih rest
      rw [List.destutter'_cons_neg _ grows]
      refine ⟨fun s' mem => all s' ?_, ?_⟩
      · simpa using mem
      · rw [last, List.getLast?_cons_cons]

/-- **Nothing but repetitions is dropped** of spans from the inside out. -/
theorem mem_growing_iff (h : InsideOut spans) : s ∈ growing spans ↔ s ∈ spans := by
  rw [growing_eq_destutter]
  cases spans with
  | nil => simp
  | cons first spans =>
    exact ⟨fun mem => (List.destutter_sublist _ _).subset mem, h.destutter'.1 s⟩

/-- The last span stays. -/
theorem getLast?_growing (h : InsideOut spans) : (growing spans).getLast? = spans.getLast? := by
  rw [growing_eq_destutter]
  cases spans with
  | nil => rfl
  | cons first spans => exact h.destutter'.2

/-- The first span stays. -/
theorem head?_growing (spans : List Span) : (growing spans).head? = spans.head? := by
  have first (s : Span) (spans : List Span) : (spans.destutter' Span.Grows s).head? = some s := by
    induction spans with
    | nil => rfl
    | cons next spans ih => by_cases grows : s.Grows next <;> simp [grows, ih]
  rw [growing_eq_destutter]
  cases spans with
  | nil => rfl
  | cons s spans => exact first s spans

/-- Every span that is kept grows. -/
theorem isChain_growing (spans : List Span) : (growing spans).IsChain Span.Grows := by
  rw [growing_eq_destutter]
  exact List.isChain_destutter _ _

end growing

/-! ## The constructs around an element -/

namespace Document

/-- The node, and from the inside out the content and the span of each node around it. -/
def spansAround (d : Document) (id : NodeId) : List Span :=
  (d.node id).span :: (d.ancestors id).flatMap fun a => (d.node a).contentSpans ++ [(d.node a).span]

theorem selectionCandidates_eq (d : Document) (id : NodeId) (offset : Nat) :
    d.selectionCandidates id offset =
      (if (d.node id).isRoot then [] else (d.node id).innerSpans offset) ++ d.spansAround id := by
  rw [selectionCandidates, spansAround, List.append_assoc]
  rfl

namespace Preordered

variable {d : Document} {length : Nat} {id parent : NodeId}

/-- The content of the parent follows, and then the parent. -/
theorem spansAround_eq (h : d.Preordered length) (known : id < d.nodes.size)
    (named : (d.node id).parent = some parent) :
    d.spansAround id = (d.node id).span :: ((d.node parent).contentSpans ++ d.spansAround parent) := by
  rw [spansAround, h.ancestors_eq_cons known named, List.flatMap_cons, List.append_assoc]
  rfl

/-- The content of a parent is between its child and itself. -/
theorem contentSpans_covers (h : d.Preordered length) (tagless : (d.node root).Tagless)
    (known : parent < d.nodes.size) (child : id ∈ d.children parent) :
    ∀ s ∈ (d.node parent).contentSpans,
      s.covers (d.node id).span = true ∧ (d.node parent).span.covers s = true := by
  intro s mem
  obtain ⟨rfl, some_tag⟩ := Node.mem_contentSpans_iff.mp mem
  have element : parent ≠ root := by
    rintro rfl
    rw [tagless.startTagEnd] at some_tag
    cases some_tag
  obtain ⟨e, ends, starts, stops⟩ := h.wellFormed.content parent known element id child
  obtain ⟨-, start, -, stop⟩ := (h.wellFormed.element parent known element).1
  rw [← Node.contentStart_eq ends] at starts
  exact ⟨Span.covers_iff.mpr ⟨starts, stops⟩, Span.covers_iff.mpr ⟨start, stop⟩⟩

/-- **What is around a node** lies inside one another, from the node to the whole text. -/
theorem insideOut_spansAround (h : d.Preordered length) (tagless : (d.node root).Tagless)
    (known : id < d.nodes.size) :
    InsideOut (d.spansAround id) ∧ (∀ s ∈ d.spansAround id, s.covers (d.node id).span = true) ∧
      (d.spansAround id).getLast? = some ⟨0, length⟩ := by
  -- From the root, which is reached last.
  induction id using Nat.strong_induction_on with
  | _ id ih =>
    by_cases top : id = root
    · subst top
      rw [spansAround, h.ancestors_root, h.wellFormed.root.2.2.2]
      exact ⟨List.pairwise_singleton _ _, by simp, rfl⟩
    · obtain ⟨parent, before, named, child⟩ := h.exists_parent known top
      have parent_known := Nat.lt_trans before known
      obtain ⟨inside_out, covers, last⟩ := ih parent before parent_known
      have content := h.contentSpans_covers tagless parent_known child
      have inside := h.wellFormed.inside parent parent_known id child
      have outer : ∀ s ∈ (d.node parent).contentSpans ++ d.spansAround parent,
          s.covers (d.node id).span = true := by
        intro s mem
        rcases List.mem_append.mp mem with between | around
        · exact (content s between).1
        · exact Span.covers_trans (covers s around) inside
      rw [h.spansAround_eq known named]
      refine ⟨.cons outer (List.pairwise_append.mpr ⟨?_, inside_out, ?_⟩), fun s mem => ?_, ?_⟩
      · refine List.pairwise_of_forall_mem_list fun s mem s' mem' => ?_
        rw [(Node.mem_contentSpans_iff.mp mem).1, (Node.mem_contentSpans_iff.mp mem').1, Span.covers_self]
      · exact fun s mem s' mem' => Span.covers_trans (covers s' mem') (content s mem).2
      · rcases List.mem_cons.mp mem with rfl | mem
        · exact Span.covers_self _
        · exact outer s mem
      · rw [← List.cons_append, List.getLast?_append, last]
        rfl

end Preordered

/-! ## Chains -/

/-- **A chain of selections** around an offset in a node. -/
structure ChainAround (d : Document) (id : NodeId) (length offset : Nat) (chain : List Span) :
    Prop where
  /-- Each span lies inside the next one and differs from it. -/
  grows : chain.IsChain Span.Grows
  /-- The first span is at the offset, unless that is between a name and a value. -/
  first : ∃ span, chain.head? = some span ∧
    (span.touches offset = true ↔ ¬ (d.node id).BetweenNameAndValue offset)
  /-- The last span is the whole text. -/
  last : chain.getLast? = some ⟨0, length⟩
  /-- The node is in the chain. -/
  node : (d.node id).span ∈ chain
  /-- Each node around it is in the chain, with its content if its start tag is finished. -/
  ancestors : ∀ a ∈ d.ancestors id, (d.node a).span ∈ chain ∧
    ((d.node a).startTagEnd.isSome → (d.node a).contentSpan ∈ chain)
  /-- The chain has all constructs around the offset, and no others. -/
  constructs : ∀ span, span ∈ chain ↔ span ∈ d.selectionCandidates id offset

/-- **What is selected at an offset**: the constructs around the node there, or nothing past the end. -/
inductive Selects (d : Document) (length offset : Nat) : List Span → Prop
  /-- In the text. -/
  | around {id : NodeId} {chain : List Span} (inside : offset ≤ length)
      (found : d.nodeAt offset = some id) (around : d.ChainAround id length offset chain) :
      Selects d length offset chain
  /-- Past the end of the text. -/
  | past (outside : length < offset) : Selects d length offset []

variable {v : Vocabulary} {t : Text} {id : NodeId} {offset : Nat}

/-- The parts of every element are in their places. -/
theorem partsInPlace_parse (element : (parse v t).IsElement id) :
    ((parse v t).node id).PartsInPlace t :=
  ⟨((preordered_parse v t).wellFormed.element id element.2 element.1).1,
    attributesStandIn_parse element.2, betweenBrackets_parse element.2,
    namesInPlace_parse element⟩

/-- The constructs around an offset lie inside one another, and the first one is at the offset unless that
is between a name and a value. -/
theorem insideOut_selectionCandidates (found : (parse v t).nodeAt offset = some id) :
    InsideOut ((parse v t).selectionCandidates id offset) ∧
      ∃ span, ((parse v t).selectionCandidates id offset).head? = some span ∧
        (span.touches offset = true ↔ ¬ ((parse v t).node id).BetweenNameAndValue offset) := by
  have h := preordered_parse v t
  have tagless := tagless_root_parse v t
  obtain ⟨reached, place⟩ := h.nodeAt_eq_some_iff.mp found
  have inside : offset ≤ t.byteLength := reached
  rw [selectionCandidates_eq]
  cases place with
  | root =>
    have top : ((parse v t).node root).isRoot = true := by
      rw [Node.isRoot, h.wellFormed.root.2.2.1]
      rfl
    have whole : ((parse v t).node root).span.touches offset = true := by
      rw [h.wellFormed.root.2.2.2]
      exact Span.touches_iff.mpr ⟨Nat.zero_le _, inside⟩
    have no_gap : ¬ ((parse v t).node root).BetweenNameAndValue offset := by
      rintro ⟨a, mem, -⟩
      simp [tagless.attributes] at mem
    rw [if_pos top, List.nil_append]
    exact ⟨(h.insideOut_spansAround tagless h.wellFormed.root.1).1, _, rfl, iff_of_true whole no_gap⟩
  | element last =>
    have parts := partsInPlace_parse last.element
    obtain ⟨parent, -, named, -⟩ := h.exists_parent last.element.2 last.element.1
    have not_top : ¬ ((parse v t).node id).isRoot = true := by simp [Node.isRoot, named]
    obtain ⟨inside_out, covers, -⟩ := h.insideOut_spansAround tagless last.element.2
    have inner := parts.holds_innerSpans offset
    rw [if_neg not_top]
    refine ⟨List.pairwise_append.mpr ⟨inner.insideOut, inside_out, fun s mem s' mem' => ?_⟩, ?_⟩
    · exact Span.covers_trans (covers s' mem') (inner.covers s mem)
    · exact parts.head?_innerSpans last.mem _

/-- The chain around an offset. -/
theorem chainAround_parse (found : (parse v t).nodeAt offset = some id) :
    (parse v t).ChainAround id t.byteLength offset ((parse v t).selectionChain offset) := by
  have h := preordered_parse v t
  have known : id < (parse v t).nodes.size := by
    cases (h.nodeAt_eq_some_iff.mp found).2 with
    | root => exact h.wellFormed.root.1
    | element last => exact last.element.2
  obtain ⟨inside_out, first⟩ := insideOut_selectionCandidates found
  have chain : (parse v t).selectionChain offset =
      growing ((parse v t).selectionCandidates id offset) := by
    rw [selectionChain, found]
  -- The spans of the nodes around the offset grow, so that all of them are kept.
  have around : ∀ s ∈ (parse v t).spansAround id, s ∈ (parse v t).selectionChain offset := by
    intro s mem
    rw [chain, mem_growing_iff inside_out, selectionCandidates_eq]
    exact List.mem_append_right _ mem
  refine ⟨?grows, ?first, ?last, ?node, ?ancestors, ?constructs⟩
  case grows =>
    rw [chain]
    exact isChain_growing _
  case first =>
    rw [chain, head?_growing]
    exact first
  case last =>
    rw [chain, getLast?_growing inside_out, selectionCandidates_eq, List.getLast?_append,
      (h.insideOut_spansAround (tagless_root_parse v t) known).2.2]
    rfl
  case node => exact around _ List.mem_cons_self
  case ancestors =>
    intro a mem
    have here (s : Span) (own : s ∈ ((parse v t).node a).contentSpans ++ [((parse v t).node a).span]) :
        s ∈ (parse v t).selectionChain offset :=
      around s (List.mem_cons_of_mem _ (List.mem_flatMap.mpr ⟨a, mem, own⟩))
    refine ⟨here _ (by simp), fun some_tag => here _ (List.mem_append_left _ ?_)⟩
    exact Node.mem_contentSpans_iff.mpr ⟨rfl, some_tag⟩
  case constructs =>
    rw [chain]
    exact fun s => mem_growing_iff inside_out

end Document

/-- **What is selected in every text**, at each of some offsets. -/
theorem selectionRanges_parse (v : Vocabulary) (t : Text) (offsets : List Nat) :
    List.Forall₂ ((parse v t).Selects t.byteLength) offsets ((parse v t).selectionRanges offsets) := by
  rw [selectionRanges, List.forall₂_map_right_iff, List.forall₂_same]
  intro offset _
  cases found : (parse v t).nodeAt offset with
  | none =>
    have none_selected : (parse v t).selectionChain offset = [] := by rw [selectionChain, found]
    rw [none_selected]
    have outside : (parse v t).textLength < offset := by simpa [nodeAt] using found
    exact .past outside
  | some id =>
    have inside := ((preordered_parse v t).nodeAt_eq_some_iff.mp found).1
    exact .around inside found (chainAround_parse found)

/-- **Between a name and a value** the first construct is not at the cursor. -/
theorem selectionRanges_between_name_and_value :
    (parse .empty "<p a = \"b\">x</p>".toList).selectionRanges [5] =
        [[⟨3, 4⟩, ⟨3, 10⟩, ⟨1, 10⟩, ⟨0, 11⟩, ⟨0, 16⟩]] ∧
      (⟨3, 4⟩ : Span).touches 5 = false := by
  exact ⟨by decide +kernel, rfl⟩

end MarkupAnalysis
