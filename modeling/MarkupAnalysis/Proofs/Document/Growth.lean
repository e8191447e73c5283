import Mathlib.Data.List.Chain
import MarkupAnalysis.Proofs.Document.Building

/-! # The tree while it grows

While the builder works, the ends of many elements are still to come. The invariant says which parts of
the tree are settled already, and that nothing settled reaches past a *frontier* in the text.

* **`Builder.Pending`** — the elements whose end is still to come.
* **`Builder.Nested`** — the tree so far.
* **`Builder.SameTree`** — builders whose trees differ in ends, names and marks only.
* **`Builder.Nested.reshape`** — pending elements may change as long as what they hold stays in place.
* **`Builder.Nested.decreasing`** — the stack of open elements is ordered. -/

namespace MarkupAnalysis

/-! ## Nodes -/

/-- The parts of an element come in order: its start, its content and its end. -/
structure Node.InOrder (n : Node) : Prop where
  /-- An element is not empty. -/
  start_lt_stop : n.start < n.stop
  /-- The content starts inside the element. -/
  start_le : n.start ≤ n.contentStart
  /-- The content does not run backwards. -/
  content_le : n.contentStart ≤ n.contentStop
  /-- The content ends inside the element. -/
  le_stop : n.contentStop ≤ n.stop

/-- The content starts where the start tag ends. -/
theorem Node.contentStart_eq {n : Node} {e : Nat} (ends : n.startTagEnd = some e) : n.contentStart = e := by
  rw [contentStart, ends]
  rfl

/-- The content ends where the end tag starts. -/
theorem Node.contentStop_eq {n : Node} {e : EndTag} (met : n.endTag = some e) :
    n.contentStop = e.start := by
  rw [contentStop, endTagStart, met]
  rfl

/-- The part of a node that the tree consists of: everything but names, attributes and marks. -/
def Node.outline (n : Node) : Node :=
  { n with name := none, attributes := #[], closed := false, selfClosing := false }

/-- What the tree needs from a node whose end is still to come. -/
structure Node.SameLinks (n n' : Node) : Prop where
  /-- It starts where it did. -/
  start : n'.start = n.start
  /-- It has the parent that it had. -/
  parent : n'.parent = n.parent
  /-- It has the children that it had. -/
  children : n'.children = n.children
  /-- A start tag that was complete ends where it did. -/
  startTagEnd : ∀ e, n.startTagEnd = some e → n'.startTagEnd = some e

theorem Node.SameLinks.refl (n : Node) : n.SameLinks n := ⟨rfl, rfl, rfl, fun _ => id⟩

/-- Names, attributes and marks do not matter. -/
theorem Node.SameLinks.of_outline {n n' : Node} (h : n'.outline = n.outline) : n.SameLinks n' :=
  ⟨(congrArg Node.start h :), (congrArg Node.parent h :), (congrArg Node.children h :),
    fun _ e => (congrArg Node.startTagEnd h :).trans e⟩

namespace Builder

/-! ## The tree so far -/

/-- The end of the element is still to come: it is open, or its start tag is being read. -/
def Pending (b : Builder) (id : NodeId) : Prop := id ∈ b.openElements ∨ b.startTag = some id

/-- An element was opened directly inside an earlier one. -/
def OpenedIn (b : Builder) (child parent : NodeId) : Prop :=
  child < b.nodes.size ∧ (b.node child).parent = some parent ∧ parent < child

/-- An element that was opened in some node is not the root. -/
theorem OpenedIn.ne_root {b : Builder} {child parent : NodeId} (h : b.OpenedIn child parent) :
    child ≠ Document.root :=
  Nat.ne_of_gt (Nat.zero_lt_of_lt h.2.2)

/-- **The tree so far**, in which nothing that is settled reaches past `frontier`. -/
structure Nested (length frontier : Nat) (b : Builder) : Prop where
  /-- The root is there; it has neither a name nor a parent, and it spans the whole text. -/
  root : Document.root < b.nodes.size ∧ (b.node Document.root).name = none ∧
    (b.node Document.root).parent = none ∧ (b.node Document.root).start = 0 ∧
    (b.node Document.root).stop = length
  /-- Each open element was opened directly inside the next one of the stack, the last one in the
  root. -/
  chain : (b.openElements ++ [Document.root]).IsChain b.OpenedIn
  /-- All elements have started. -/
  starts : ∀ id < b.nodes.size, id ≠ Document.root → (b.node id).start < frontier
  /-- The start tags of open elements are complete, but for the one that is being read. -/
  openTag : ∀ id ∈ b.openElements, b.startTag ≠ some id →
    ∃ e, (b.node id).startTagEnd = some e ∧ (b.node id).start < e ∧ e ≤ frontier
  /-- No open element has met its end tag. -/
  unclosed : ∀ id ∈ b.openElements, (b.node id).endTag = none ∧ (b.node id).closed = false
  /-- The element whose start tag is being read is empty so far; if it is open, it is the innermost
  one. -/
  reading : ∀ id, b.startTag = some id → id < b.nodes.size ∧ id ≠ Document.root ∧
    (id ∈ b.openElements → b.openElements.head? = some id) ∧ (b.node id).startTagEnd = none ∧
    (b.node id).endTag = none ∧ (b.node id).stop = length ∧ (b.node id).children = #[]
  /-- All other elements are complete. -/
  settled : ∀ id < b.nodes.size, id ≠ Document.root → ¬ b.Pending id →
    (b.node id).InOrder ∧ (b.node id).stop ≤ frontier
  /-- Children were opened inside the node that names them. -/
  children : ∀ id < b.nodes.size, ∀ child ∈ (b.node id).children,
    b.OpenedIn child id ∧ (b.node id).start ≤ (b.node child).start
  /-- Children of elements come after the start tag. -/
  content : ∀ id < b.nodes.size, id ≠ Document.root → ∀ child ∈ (b.node id).children,
    ∃ e, (b.node id).startTagEnd = some e ∧ e ≤ (b.node child).start
  /-- A complete element has complete children only, and they end before its end tag. -/
  within : ∀ id < b.nodes.size, id ≠ Document.root → ¬ b.Pending id →
    ∀ child ∈ (b.node id).children,
      ¬ b.Pending child ∧ (b.node child).stop ≤ (b.node id).contentStop
  /-- Each child but the last one is complete and ends before the next one starts. -/
  ordered : ∀ id < b.nodes.size, (b.node id).children.toList.Pairwise fun child later =>
    ¬ b.Pending child ∧ (b.node child).stop ≤ (b.node later).start

variable {b b' : Builder} {length frontier : Nat} {id : NodeId}

namespace Nested

/-! ### The stack -/

/-- The stack is ordered, the root coming last. -/
theorem decreasing (h : b.Nested length frontier) :
    (b.openElements ++ [Document.root]).Pairwise (· > ·) :=
  (h.chain.imp fun _ _ opened => (opened.2.2 : _ > _)).pairwise

/-- An open element was opened in some node. -/
theorem exists_openedIn (h : b.Nested length frontier) (mem : id ∈ b.openElements) :
    ∃ parent, b.OpenedIn id parent := by
  -- The next one of the stack is its parent, or the root if it is the last one.
  obtain ⟨inner, outer, split⟩ := List.mem_iff_append.mp mem
  have chain := h.chain
  rw [split, List.append_assoc] at chain
  have below := chain.right_of_append
  cases outer with
  | nil => exact ⟨_, (List.isChain_cons_cons.mp below).1⟩
  | cons next outer => exact ⟨_, (List.isChain_cons_cons.mp below).1⟩

/-- An open element is an element of the array. -/
theorem lt_size (h : b.Nested length frontier) (mem : id ∈ b.openElements) : id < b.nodes.size :=
  (h.exists_openedIn mem).elim fun _ opened => opened.1

/-- The root is not open. -/
theorem ne_root (h : b.Nested length frontier) (mem : id ∈ b.openElements) : id ≠ Document.root :=
  (h.exists_openedIn mem).elim fun _ opened => opened.ne_root

/-- A pending element is an element of the array. -/
theorem pending_lt_size (h : b.Nested length frontier) (pending : b.Pending id) :
    id < b.nodes.size :=
  pending.elim h.lt_size fun reading => (h.reading id reading).1

/-- The root is not pending. -/
theorem not_pending_root (h : b.Nested length frontier) : ¬ b.Pending Document.root := by
  rintro (mem | reading)
  · exact h.ne_root mem rfl
  · exact (h.reading _ reading).2.1 rfl

/-- No node starts behind the frontier. -/
theorem start_le (h : b.Nested length frontier) (inside : id < b.nodes.size) :
    (b.node id).start ≤ frontier := by
  by_cases top : id = Document.root
  · rw [top, h.root.2.2.2.1]
    exact Nat.zero_le _
  · exact Nat.le_of_lt (h.starts id inside top)

/-- The innermost open element, or the root, is a node of the array. -/
theorem current_lt_size (h : b.Nested length frontier) : b.current < b.nodes.size := by
  unfold current
  cases split : b.openElements with
  | nil => exact h.root.1
  | cons top outer => exact h.lt_size (by simp [split])

/-- The innermost open element was opened last. -/
theorem le_current (h : b.Nested length frontier) (mem : id ∈ b.openElements) : id ≤ b.current := by
  have sorted := h.decreasing
  unfold current
  cases split : b.openElements with
  | nil => simp [split] at mem
  | cons top outer =>
    rw [split, List.cons_append] at sorted
    rw [split] at mem
    rcases List.mem_cons.mp mem with rfl | inside
    · exact Nat.le_refl _
    · exact Nat.le_of_lt ((List.pairwise_cons.mp sorted).1 _ (List.mem_append_left _ inside))

/-- The innermost open element is open, unless it is the root. -/
theorem current_mem (top : b.current ≠ Document.root) : b.current ∈ b.openElements := by
  unfold current at top ⊢
  cases split : b.openElements with
  | nil => simp [split] at top
  | cons => simp

/-- The innermost open element is the first node of the stack, which ends with the root. -/
theorem eq_current_of_mem_head? {top : NodeId}
    (mem : top ∈ (b.openElements ++ [Document.root]).head?) : top = b.current := by
  unfold current
  cases split : b.openElements with
  | nil => simpa [split] using mem.symm
  | cons => simpa [split, eq_comm] using mem

/-- An element that has been left is not open any more. -/
theorem not_mem_leave (h : b.Nested length frontier) (reading : b.startTag = some id) :
    id ∉ (b.leave id).openElements := by
  rw [openElements_leave]
  split
  · rename_i top
    have sorted := h.decreasing
    cases split : b.openElements with
    | nil => simp
    | cons first outer =>
      rw [split] at top
      obtain rfl : first = id := by simpa using top
      rw [split, List.cons_append] at sorted
      -- Further down the stack it would be smaller than itself.
      intro mem
      exact Nat.lt_irrefl _ ((List.pairwise_cons.mp sorted).1 _ (List.mem_append_left _ mem))
  · rename_i top
    exact fun mem => top ((h.reading id reading).2.2.1 mem)

end Nested

/-- Leaving an element keeps the lower part of the stack. -/
theorem leave_suffix (b : Builder) (id : NodeId) :
    (b.leave id).openElements <:+ b.openElements := by
  rw [openElements_leave]
  split
  · exact List.tail_suffix _
  · exact List.suffix_refl _

/-! ### The first builder -/

/-- The root alone is a tree. -/
theorem nested_start (length : Nat) : (Builder.start length).Nested length 0 where
  root := ⟨Nat.one_pos, rfl, rfl, rfl, rfl⟩
  chain := .singleton _
  starts := by
    intro id inside off_root
    exact absurd (Nat.lt_one_iff.mp inside) off_root
  openTag := by simp [Builder.start]
  unclosed := by simp [Builder.start]
  reading := by simp [Builder.start]
  settled := by
    intro id inside off_root
    exact absurd (Nat.lt_one_iff.mp inside) off_root
  children := by
    intro id inside
    obtain rfl := Nat.lt_one_iff.mp inside
    simp [Builder.start, node]
  content := by
    intro id inside off_root
    exact absurd (Nat.lt_one_iff.mp inside) off_root
  within := by
    intro id inside off_root
    exact absurd (Nat.lt_one_iff.mp inside) off_root
  ordered := by
    intro id inside
    obtain rfl := Nat.lt_one_iff.mp inside
    simp [Builder.start, node]

/-! ### Builders with the same tree -/

/-- The nodes of one builder are those of the other, with the same links between them. Ends, names and
marks may differ. -/
structure SameTree (b b' : Builder) : Prop where
  /-- No node is new. -/
  size : b'.nodes.size = b.nodes.size
  /-- Each node has the links that it had. -/
  links : ∀ id, (b.node id).SameLinks (b'.node id)

namespace SameTree

variable {frontier' : Nat}

theorem openedIn (same : b.SameTree b') {child parent : NodeId} (opened : b.OpenedIn child parent) :
    b'.OpenedIn child parent :=
  ⟨same.size ▸ opened.1, (same.links child).parent.trans opened.2.1, opened.2.2⟩

/-- Open elements that are the outer ones of the same tree are a chain from parent to child. -/
theorem chain (same : b.SameTree b') (h : b.Nested length frontier)
    (stack : b'.openElements <:+ b.openElements) :
    (b'.openElements ++ [Document.root]).IsChain b'.OpenedIn := by
  have lower : b'.openElements ++ [Document.root] <:+ b.openElements ++ [Document.root] := by
    obtain ⟨inner, split⟩ := stack
    exact ⟨inner, by rw [← List.append_assoc, split]⟩
  exact (h.chain.suffix lower).imp fun _ _ => same.openedIn

/-- Elements start where they did. -/
theorem starts (same : b.SameTree b') (h : b.Nested length frontier)
    (advance : frontier ≤ frontier') :
    ∀ id < b'.nodes.size, id ≠ Document.root → (b'.node id).start < frontier' := by
  intro id inside off_root
  rw [(same.links id).start]
  exact Nat.lt_of_lt_of_le (h.starts id (same.size ▸ inside) off_root) advance

/-- Children are where they were opened. -/
theorem children (same : b.SameTree b') (h : b.Nested length frontier) :
    ∀ id < b'.nodes.size, ∀ child ∈ (b'.node id).children,
      b'.OpenedIn child id ∧ (b'.node id).start ≤ (b'.node child).start := by
  intro id inside child mem
  rw [(same.links id).children] at mem
  obtain ⟨opened, after⟩ := h.children id (same.size ▸ inside) child mem
  rw [(same.links id).start, (same.links child).start]
  exact ⟨same.openedIn opened, after⟩

/-- Children come after the start tag. -/
theorem content (same : b.SameTree b') (h : b.Nested length frontier) :
    ∀ id < b'.nodes.size, id ≠ Document.root → ∀ child ∈ (b'.node id).children,
      ∃ e, (b'.node id).startTagEnd = some e ∧ e ≤ (b'.node child).start := by
  intro id inside off_root child mem
  rw [(same.links id).children] at mem
  obtain ⟨e, ends, after⟩ := h.content id (same.size ▸ inside) off_root child mem
  rw [(same.links child).start]
  exact ⟨e, (same.links id).startTagEnd e ends, after⟩

end SameTree

/-! ### Changes of pending elements -/

namespace Nested

/-- **Pending elements may change** as long as what they hold stays in place: those that are settled by
the change have to be complete, and so have their children. Everything else stays as it is. -/
theorem reshape {frontier' : Nat} (h : b.Nested length frontier) (advance : frontier ≤ frontier')
    (size : b'.nodes.size = b.nodes.size) (stack : b'.openElements <:+ b.openElements)
    (startTag : b'.startTag = none ∨ b'.startTag = b.startTag)
    (kept : ∀ id, ¬ b.Pending id → b'.node id = b.node id)
    (links : ∀ id, b.Pending id → (b.node id).SameLinks (b'.node id))
    (openTag : ∀ id ∈ b'.openElements, b'.startTag ≠ some id →
      ∃ e, (b'.node id).startTagEnd = some e ∧ (b'.node id).start < e ∧ e ≤ frontier')
    (unclosed : ∀ id ∈ b'.openElements, (b'.node id).endTag = none ∧ (b'.node id).closed = false)
    (reading : ∀ id, b'.startTag = some id →
      (id ∈ b'.openElements → b'.openElements.head? = some id) ∧ (b'.node id).startTagEnd = none ∧
      (b'.node id).endTag = none ∧ (b'.node id).stop = length)
    (settled : ∀ id, b.Pending id → ¬ b'.Pending id →
      (b'.node id).InOrder ∧ (b'.node id).stop ≤ frontier' ∧ ∀ child ∈ (b.node id).children,
        ¬ b'.Pending child ∧ (b'.node child).stop ≤ (b'.node id).contentStop) :
    b'.Nested length frontier' := by
  have was_read : ∀ id, b'.startTag = some id → b.startTag = some id := by
    intro id here
    rcases startTag with none_left | unchanged
    · simp [none_left] at here
    · exact unchanged ▸ here
  have fewer : ∀ id, b'.Pending id → b.Pending id := fun id =>
    Or.imp (fun mem => stack.subset mem) (was_read id)
  have same : b.SameTree b' := by
    refine ⟨size, fun id => ?_⟩
    by_cases pending : b.Pending id
    · exact links id pending
    · rw [kept id pending]
      exact Node.SameLinks.refl _
  refine ⟨?root, same.chain h stack, same.starts h advance, openTag, unclosed, ?reading, ?settled,
    same.children h, same.content h, ?within, ?ordered⟩
  case root =>
    rw [size, kept _ h.not_pending_root]
    exact h.root
  case reading =>
    intro id here
    obtain ⟨inside, off_root, -, -, -, -, childless⟩ := h.reading id (was_read id here)
    obtain ⟨innermost, no_end, no_endTag, stop⟩ := reading id here
    exact ⟨size ▸ inside, off_root, innermost, no_end, no_endTag, stop,
      (same.links id).children.trans childless⟩
  case settled =>
    intro id inside off_root done
    by_cases pending : b.Pending id
    · exact ⟨(settled id pending done).1, (settled id pending done).2.1⟩
    · rw [kept id pending]
      obtain ⟨in_order, bound⟩ := h.settled id (size ▸ inside) off_root pending
      exact ⟨in_order, Nat.le_trans bound advance⟩
  case within =>
    intro id inside off_root done child mem
    rw [(same.links id).children] at mem
    by_cases pending : b.Pending id
    · exact (settled id pending done).2.2 child mem
    · -- A complete element has complete children, and neither they nor it have changed.
      obtain ⟨complete, before⟩ := h.within id (size ▸ inside) off_root pending child mem
      rw [kept id pending, kept child complete]
      exact ⟨mt (fewer child) complete, before⟩
  case ordered =>
    intro id inside
    rw [(same.links id).children]
    refine (h.ordered id (size ▸ inside)).imp ?_
    rintro child later ⟨complete, before⟩
    -- The later child may be pending, but it starts where it did.
    rw [kept child complete, (same.links later).start]
    exact ⟨mt (fewer child) complete, before⟩

/-- Only the nodes and the stack matter, and what is settled stays so when the frontier moves on. -/
theorem move {frontier' : Nat} (h : b.Nested length frontier) (advance : frontier ≤ frontier')
    (nodes : b'.nodes = b.nodes) (stack : b'.openElements = b.openElements)
    (startTag : b'.startTag = b.startTag) : b'.Nested length frontier' := by
  have nodes' : b'.node = b.node := node_congr nodes
  have pending : b'.Pending = b.Pending := by
    funext id
    rw [Pending, Pending, stack, startTag]
  refine h.reshape advance (by rw [nodes]) (stack ▸ List.suffix_refl _) (.inr startTag)
    (fun id _ => by rw [nodes']) (fun id _ => nodes' ▸ .refl _) ?_ ?_ ?_
    (fun id before done => absurd (pending ▸ before) done)
  · intro id mem other
    rw [stack] at mem
    rw [startTag] at other
    obtain ⟨e, ends, after, bound⟩ := h.openTag id mem other
    rw [nodes']
    exact ⟨e, ends, after, Nat.le_trans bound advance⟩
  · rw [stack, nodes']
    exact h.unclosed
  · intro id here
    rw [startTag] at here
    obtain ⟨-, -, innermost, no_end, no_endTag, stop, -⟩ := h.reading id here
    rw [stack, nodes']
    exact ⟨innermost, no_end, no_endTag, stop⟩

/-- What is settled stays so when the frontier moves on. -/
theorem mono {frontier' : Nat} (h : b.Nested length frontier) (advance : frontier ≤ frontier') :
    b.Nested length frontier' :=
  h.move advance rfl rfl rfl

end Nested

end Builder

end MarkupAnalysis
