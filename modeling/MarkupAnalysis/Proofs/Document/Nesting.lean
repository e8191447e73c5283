import MarkupAnalysis.Document.Walk
import MarkupAnalysis.Proofs.Document.EndTag

/-! # Nesting of documents

The tree of every text is well formed: elements lie inside the element that names them as a child,
between its tags, and one after the other.

* **`Document.WellFormed`** — what a well-formed tree is.
* **`Builder.Nested.finish`** — at the end of the text the pending elements fall into place.
* **`parse_wellFormed`** — the tree of every text is well formed. -/

namespace MarkupAnalysis

/-- A span covers another one if that one neither starts before it nor ends after it. -/
theorem Span.covers_iff {s inner : Span} :
    s.covers inner ↔ s.start ≤ inner.start ∧ inner.stop ≤ s.stop := by
  simp [covers]

/-- A span is at the offsets from its start to its end. -/
theorem Span.touches_iff {s : Span} {offset : Nat} :
    s.touches offset = true ↔ s.start ≤ offset ∧ offset ≤ s.stop := by
  simp [touches]

/-- **A well-formed tree** of a text with `length` bytes. -/
structure Document.WellFormed (length : Nat) (d : Document) : Prop where
  /-- The root is there; it has neither a tag nor a parent, and it spans the whole text. -/
  root : root < d.nodes.size ∧ (d.node root).tag = none ∧ (d.node root).parent = none ∧
    (d.node root).span = ⟨0, length⟩
  /-- The parts of every element are in order and inside the text. -/
  element : ∀ id < d.nodes.size, id ≠ Document.root →
    (d.node id).InOrder ∧ (d.node id).stop ≤ length
  /-- The parent of each child is the node that names it. -/
  parent : ∀ id < d.nodes.size, ∀ child ∈ d.children id,
    child < d.nodes.size ∧ (d.node child).parent = some id
  /-- Each child ends before the next one starts. -/
  ordered : ∀ id < d.nodes.size,
    (d.children id).IsChain fun child next => (d.node child).stop ≤ (d.node next).start
  /-- Each child lies inside its parent. -/
  inside : ∀ id < d.nodes.size, ∀ child ∈ d.children id,
    (d.node id).span.covers (d.node child).span
  /-- Each child of an element lies between the element's tags. -/
  content : ∀ id < d.nodes.size, id ≠ Document.root → ∀ child ∈ d.children id,
    ∃ e, (d.node id).startTagEnd = some e ∧ e ≤ (d.node child).start ∧
      (d.node child).stop ≤ (d.node id).contentStop

/-- Walks through a well-formed tree meet its nodes only. -/
theorem Document.WellFormed.lt_size_of_mem_preorder {length : Nat} {d : Document}
    (h : d.WellFormed length) (steps : Nat) {pending : List NodeId}
    (known : ∀ id ∈ pending, id < d.nodes.size) :
    ∀ id ∈ d.preorderWithin steps pending, id < d.nodes.size := by
  induction steps generalizing pending with
  | zero => simp [preorderWithin]
  | succ steps ih =>
    cases pending with
    | nil => simp [preorderWithin]
    | cons first pending =>
      have first_known := known first List.mem_cons_self
      intro id mem
      rcases List.mem_cons.mp mem with rfl | later
      · exact first_known
      · -- The children of the first node come next, and they are nodes as well.
        refine ih ?_ id later
        intro j mem
        rcases List.mem_append.mp mem with child | waiting
        · exact (h.parent first first_known j child).1
        · exact known j (List.mem_cons_of_mem _ waiting)

/-- A well-formed tree of closed nodes has no unclosed element. -/
theorem Document.WellFormed.unclosed_eq_nil {length : Nat} {d : Document} (h : d.WellFormed length)
    (closed : ∀ n ∈ d.nodes, n.closed = true) : d.unclosed = [] := by
  have outermost : ∀ id ∈ d.children Document.root, id < d.nodes.size := fun id mem =>
    (h.parent Document.root h.root.1 id mem).1
  have known := h.lt_size_of_mem_preorder d.nodes.size outermost
  refine List.filter_eq_nil_iff.mpr fun id mem => ?_
  have inside := known id mem
  have here : d.node id = d.nodes[id] := by simp [node, inside]
  simp [here, closed d.nodes[id] (Array.getElem_mem inside)]

namespace Builder

variable {b b' : Builder} {length frontier : Nat}

namespace Nested

/-- An element whose start tag is being read is complete once the text has ended. -/
theorem inOrder_of_reading {id : NodeId} {n : Node} (h : b.Nested length length)
    (reading : b.startTag = some id) (start : n.start = (b.node id).start) (stop : n.stop = length)
    (startTagEnd : n.startTagEnd = none) (endTag : n.endTag = none) : n.InOrder := by
  obtain ⟨inside, off_root, -⟩ := h.reading id reading
  have started : n.start < length := start ▸ h.starts id inside off_root
  exact .of_empty started stop (by rw [startTagEnd]; rfl) endTag

/-- A pending element ends with the text, and so does its content. -/
theorem inOrder_of_pending {id : NodeId} {n : Node} (h : b.Nested length length)
    (pending : b.Pending id)
    (node' : n = if id ∈ b.openElements then cut length (b.node id) else b.node id) :
    n.InOrder ∧ n.contentStop = length := by
  by_cases reading : b.startTag = some id
  · obtain ⟨-, -, -, no_end, no_endTag, stop, -⟩ := h.reading id reading
    obtain ⟨same_start, ends, no_end', no_endTag'⟩ : n.start = (b.node id).start ∧
        n.stop = length ∧ n.startTagEnd = none ∧ n.endTag = none := by
      rw [node']
      split
      · exact ⟨rfl, rfl, no_end, no_endTag⟩
      · exact ⟨rfl, stop, no_end, no_endTag⟩
    refine ⟨h.inOrder_of_reading reading same_start ends no_end' no_endTag', ?_⟩
    rw [Node.contentStop, Node.endTagStart, no_endTag', ends]
    rfl
  · have still_open := pending.resolve_right reading
    rw [node', if_pos still_open]
    exact h.inOrder_cut still_open reading

/-- **At the end of the text** all pending elements are settled. -/
theorem finish (h : b.Nested length frontier) (advance : frontier ≤ length)
    (nodes : b'.nodes = (b.cutOff b.openElements length).nodes) (stack : b'.openElements = [])
    (startTag : b'.startTag = none) : b'.Nested length length := by
  have h := h.mono advance
  have node' (j : NodeId) : b'.node j =
      if j ∈ b.openElements then cut length (b.node j) else b.node j := by
    rw [node_congr nodes]
    exact node_cutOff (fun _ => h.lt_size) length j
  have links (j : NodeId) : (b.node j).SameLinks (b'.node j) := by
    rw [node']
    split
    · exact ⟨rfl, rfl, rfl, fun _ e => e⟩
    · exact .refl _
  have none_pending (j : NodeId) : ¬ b'.Pending j := by simp [Pending, stack, startTag]
  -- Whatever is still open ends with the text.
  have stop_le (j : NodeId) (here : j < b.nodes.size) (off_root : j ≠ Document.root) :
      (b'.node j).stop ≤ length := by
    rw [node']
    split
    · exact Nat.le_refl _
    · rename_i closed
      by_cases reading : b.startTag = some j
      · exact Nat.le_of_eq (h.reading j reading).2.2.2.2.2.1
      · exact (h.settled j here off_root (not_or.mpr ⟨closed, reading⟩)).2
  refine h.reshape (Nat.le_refl _) (by rw [nodes, size_cutOff]) (by simp [stack]) (.inl startTag)
    ?kept (fun j _ => links j) (by simp [stack]) (by simp [stack]) (by simp [startTag]) ?settled
  case kept =>
    intro j complete
    rw [node', if_neg fun mem => complete (.inl mem)]
  case settled =>
    intro j pending _
    obtain ⟨in_order, contentStop⟩ := h.inOrder_of_pending pending (node' j)
    have inside : j < b.nodes.size := h.pending_lt_size pending
    have off_root : j ≠ Document.root := fun same => h.not_pending_root (same ▸ pending)
    refine ⟨in_order, stop_le j inside off_root, fun child mem => ⟨none_pending child, ?_⟩⟩
    -- Children lie before the end of the text like everything else.
    obtain ⟨opened, -⟩ := h.children j inside child mem
    rw [contentStop]
    exact stop_le child opened.1 opened.ne_root

/-- **A tree without pending elements** is well formed. -/
theorem wellFormed {d : Document} (h : b.Nested length length) (nodes : d.nodes = b.nodes)
    (stack : b.openElements = []) (startTag : b.startTag = none) : d.WellFormed length := by
  have node' (id : NodeId) : d.node id = b.node id := by rw [Document.node, nodes, node]
  have none_pending (id : NodeId) : ¬ b.Pending id := by simp [Pending, stack, startTag]
  have element (id : NodeId) (inside : id < b.nodes.size) (off_root : id ≠ Document.root) :=
    h.settled id inside off_root (none_pending id)
  refine ⟨?root, ?element, ?parent, ?ordered, ?inside, ?content⟩ <;>
    simp only [Document.children, node', nodes, Array.mem_toList_iff]
  case root =>
    obtain ⟨inside, name, parent, start, stop⟩ := h.root
    exact ⟨inside, by rw [Node.tag, name]; rfl, parent, by rw [Node.span, start, stop]⟩
  case element => exact element
  case parent =>
    intro id inside child mem
    obtain ⟨opened, -⟩ := h.children id inside child mem
    exact ⟨opened.1, opened.2.1⟩
  case ordered =>
    intro id inside
    exact ((h.ordered id inside).imp And.right).isChain
  case inside =>
    intro id inside child mem
    obtain ⟨opened, after⟩ := h.children id inside child mem
    refine Span.covers_iff.mpr ⟨after, ?_⟩
    by_cases top : id = Document.root
    · -- Children of the root need not be between tags, but they end in the text.
      have whole : (b.node id).stop = length := top ▸ h.root.2.2.2.2
      show (b.node child).stop ≤ (b.node id).stop
      rw [whole]
      exact (element child opened.1 opened.ne_root).2
    · exact Nat.le_trans (h.within id inside top (none_pending id) child mem).2
        (element id inside top).1.le_stop
  case content =>
    intro id inside off_root child mem
    obtain ⟨e, ends, after⟩ := h.content id inside off_root child mem
    exact ⟨e, ends, after, (h.within id inside off_root (none_pending id) child mem).2⟩

end Nested

/-- In every state between two tokens, everything settled lies before the position. -/
theorem Stands.exists_nested {m : Mode} {position : Nat} (h : b.Stands length m position) :
    ∃ frontier ≤ position, b.Nested length frontier := by
  cases m with
  | endTagOpened =>
    obtain ⟨-, -, start, -, before, nested⟩ := h
    exact ⟨start, Nat.le_of_lt before, nested⟩
  | startTagOpened | startTag | attributeName | attributeValue => exact ⟨_, Nat.le_refl _, h⟩
  | endTag => exact ⟨_, Nat.le_refl _, h.2.2⟩
  | content | embeddedContent | comment | doctype => exact ⟨_, Nat.le_refl _, h.2⟩

end Builder

/-- After all tokens everything settled lies in the text. -/
theorem Document.exists_nested_built (v : Vocabulary) (t : Text) :
    ∃ frontier ≤ t.byteLength, (built v t (tokensOf v t)).Nested t.byteLength frontier := by
  obtain ⟨passed, s, passes, ended, -, last⟩ := exists_built v t
  obtain ⟨frontier, reached, nested⟩ := (stands_built passes).exists_nested
  refine ⟨frontier, Nat.le_trans reached (passes.at_of_at (scanner_at v t)).position_le, ?_⟩
  rw [last]
  exact nested.move (Nat.le_refl _) (Builder.nodes_endComment _ _)
    (Builder.openElements_endComment _ _) (Builder.startTag_endComment _ _)

/-- The tree of a text is well formed: at its end nothing is pending. -/
theorem Document.wellFormed_parse (v : Vocabulary) (t : Text) :
    (Document.parse v t).WellFormed t.byteLength := by
  obtain ⟨frontier, bound, nested⟩ := Document.exists_nested_built v t
  have done : Builder.Nested t.byteLength t.byteLength { nodes := (Document.parse v t).nodes } := by
    rw [Document.parse_eq]
    exact nested.finish bound rfl rfl rfl
  exact done.wellFormed rfl rfl rfl

/-- **The tree of every text is well formed.** -/
theorem parse_wellFormed (v : Vocabulary) (t : Text) : (Document.parse v t).WellFormed t.byteLength :=
  Document.wellFormed_parse v t

end MarkupAnalysis
