import MarkupAnalysis.Proofs.Document.Growth

/-! # Start tags keep the tree in order

* **`Builder.Nested.openElement`** — a new element.
* **`Builder.Nested.annotate`** — names, attributes and marks.
* **`Builder.Nested.finishStartTag`** — the end of a start tag.
* **`Builder.nested_nameElement`**, **`Builder.nested_closeStartTag`**, … — the operations. -/

namespace MarkupAnalysis

/-- An element without content is complete. -/
theorem Node.InOrder.of_empty {n : Node} {stop : Nat} (start : n.start < stop)
    (ends : n.stop = stop) (startTagEnd : n.startTagEnd.getD stop = stop)
    (no_endTag : n.endTag = none) : n.InOrder := by
  have contentStart : n.contentStart = stop := by
    rw [Node.contentStart, ends, startTagEnd]
  have contentStop : n.contentStop = stop := by
    simp [Node.contentStop, Node.endTagStart, no_endTag, ends]
  refine ⟨?_, ?_, ?_, ?_⟩
  · rwa [ends]
  · rw [contentStart]
    exact Nat.le_of_lt start
  · rw [contentStart, contentStop]
  · rw [contentStop, ends]

namespace Builder

variable {b b' : Builder} {length frontier : Nat} {id : NodeId}

namespace Nested

/-- The element whose start tag is being read stays on the stack, or it is left. -/
theorem stack_suffix (stack : b'.openElements = b.openElements ∨
    b'.openElements = (b.leave id).openElements) : b'.openElements <:+ b.openElements := by
  rcases stack with same | left
  · exact same ▸ List.suffix_refl _
  · exact left ▸ b.leave_suffix id

/-- An element that has been left is off the stack. -/
theorem not_mem_of_left (h : b.Nested length frontier) (reading : b.startTag = some id)
    (left : b'.openElements = (b.leave id).openElements) : id ∉ b'.openElements := by
  rw [left]
  exact h.not_mem_leave reading

/-- If the element whose start tag is being read stays on the stack, it is the innermost one. -/
theorem innermost (h : b.Nested length frontier) (reading : b.startTag = some id)
    (stack : b'.openElements = b.openElements ∨ b'.openElements = (b.leave id).openElements)
    (mem : id ∈ b'.openElements) : b'.openElements.head? = some id := by
  rcases stack with same | left
  · rw [same] at mem ⊢
    exact (h.reading id reading).2.2.1 mem
  · exact absurd mem (h.not_mem_of_left reading left)

/-- Only the element whose start tag is being read may leave the stack. -/
theorem mem_of_stack (stack : b'.openElements = b.openElements ∨
    b'.openElements = (b.leave id).openElements) {j : NodeId} (mem : j ∈ b.openElements)
    (other : j ≠ id) : j ∈ b'.openElements := by
  rcases stack with same | left
  · rwa [same]
  · rw [left, openElements_leave]
    split
    · rename_i top
      cases split : b.openElements with
      | nil => simp [split] at mem
      | cons first outer =>
        rw [split] at mem top
        obtain rfl : first = id := by simpa using top
        exact (List.mem_cons.mp mem).resolve_left other
    · exact mem

/-- **A change of names, attributes and marks** in the start tag that is being read. -/
theorem annotate {frontier' : Nat} (h : b.Nested length frontier) (advance : frontier ≤ frontier')
    (reading : b.startTag = some id) (change : Node → Node)
    (nodes : b'.nodes = (b.modify id change).nodes) (startTag : b'.startTag = b.startTag)
    (stack : b'.openElements = b.openElements ∨ b'.openElements = (b.leave id).openElements)
    (outline : ∀ n, (change n).outline = n.outline)
    (unclosed : id ∈ b'.openElements → (change (b.node id)).closed = false) :
    b'.Nested length frontier' := by
  have inside := (h.reading id reading).1
  have nodes' : b'.node = (b.modify id change).node := node_congr nodes
  have same (j : NodeId) : (b'.node j).outline = (b.node j).outline := by
    rw [nodes', node_modify inside]
    split
    · exact outline _
    · rfl
  -- An element that is left while its start tag is being read stays pending.
  have pending_iff (j : NodeId) : b'.Pending j ↔ b.Pending j := by
    constructor
    · rintro (mem | here)
      · exact .inl ((stack_suffix stack).subset mem)
      · exact .inr (startTag ▸ here)
    · rintro (mem | here)
      · by_cases own : j = id
        · exact .inr (own ▸ startTag.trans reading)
        · exact .inl (mem_of_stack stack mem own)
      · exact .inr (startTag.trans here)
  refine h.reshape advance (by rw [nodes, size_modify]) (stack_suffix stack) (.inr startTag) ?kept
    (fun j _ => .of_outline (same j)) ?openTag ?unclosed ?reading
    (fun j pending done => absurd ((pending_iff j).mpr pending) done)
  case kept =>
    intro j complete
    rw [nodes', node_modify_of_ne]
    rintro rfl
    exact complete (.inr reading)
  case openTag =>
    intro j mem other
    obtain ⟨e, ends, after, bound⟩ :=
      h.openTag j ((stack_suffix stack).subset mem) (startTag ▸ other)
    have links := Node.SameLinks.of_outline (same j)
    exact ⟨e, links.startTagEnd e ends, links.start ▸ after, Nat.le_trans bound advance⟩
  case unclosed =>
    intro j mem
    obtain ⟨no_endTag, still_open⟩ := h.unclosed j ((stack_suffix stack).subset mem)
    refine ⟨(congrArg Node.endTag (same j) :).trans no_endTag, ?_⟩
    rw [nodes', node_modify inside]
    split
    · rename_i own
      subst own
      exact unclosed mem
    · exact still_open
  case reading =>
    intro j here
    obtain rfl : id = j := Option.some.inj (reading.symm.trans (startTag ▸ here))
    obtain ⟨-, -, -, no_end, no_endTag, stop, -⟩ := h.reading id reading
    exact ⟨h.innermost reading stack, (congrArg Node.startTagEnd (same id) :).trans no_end,
      (congrArg Node.endTag (same id) :).trans no_endTag,
      (congrArg Node.stop (same id) :).trans stop⟩

/-- **The end of a start tag** settles the element, unless it stays on the stack; then the start tag has
to be complete. -/
theorem finishStartTag {frontier' : Nat} (h : b.Nested length frontier)
    (advance : frontier ≤ frontier') (reading : b.startTag = some id) (change : Node → Node)
    (nodes : b'.nodes = (b.modify id change).nodes) (startTag : b'.startTag = none)
    (stack : b'.openElements = b.openElements ∨ b'.openElements = (b.leave id).openElements)
    (links : ∀ n : Node, n.startTagEnd = none → n.SameLinks (change n))
    (endTag : ∀ n, (change n).endTag = n.endTag) (stop : ∀ n, (change n).stop = frontier')
    (startTagEnd : (change (b.node id)).startTagEnd.getD frontier' = frontier')
    (stays : id ∈ b'.openElements →
      (change (b.node id)).startTagEnd = some frontier' ∧ (change (b.node id)).closed = false) :
    b'.Nested length frontier' := by
  obtain ⟨inside, off_root, -, no_end, no_endTag, -, childless⟩ := h.reading id reading
  have start_lt := Nat.lt_of_lt_of_le (h.starts id inside off_root) advance
  have nodes' : b'.node = (b.modify id change).node := node_congr nodes
  have own : b'.node id = change (b.node id) := by rw [nodes', node_modify inside, if_pos rfl]
  have others (j : NodeId) (other : j ≠ id) : b'.node j = b.node j := by
    rw [nodes', node_modify_of_ne other]
  have links' := links _ no_end
  refine h.reshape advance (by rw [nodes, size_modify]) (stack_suffix stack) (.inl startTag)
    ?kept ?links ?openTag ?unclosed (by simp [startTag]) ?settled
  case kept =>
    intro j complete
    exact others j fun same => complete (.inr (same ▸ reading))
  case links =>
    intro j _
    by_cases same : j = id
    · subst same
      rw [own]
      exact links'
    · rw [others j same]
      exact .refl _
  case openTag =>
    intro j mem _
    by_cases same : j = id
    · subst same
      rw [own, links'.start]
      exact ⟨frontier', (stays mem).1, start_lt, Nat.le_refl _⟩
    · have before : b.startTag ≠ some j := fun here =>
        same (Option.some.inj (here.symm.trans reading))
      obtain ⟨e, ends, after, bound⟩ := h.openTag j ((stack_suffix stack).subset mem) before
      rw [others j same]
      exact ⟨e, ends, after, Nat.le_trans bound advance⟩
  case unclosed =>
    intro j mem
    obtain ⟨none_met, still_open⟩ := h.unclosed j ((stack_suffix stack).subset mem)
    by_cases same : j = id
    · subst same
      rw [own, endTag]
      exact ⟨none_met, (stays mem).2⟩
    · rw [others j same]
      exact ⟨none_met, still_open⟩
  case settled =>
    intro j pending done
    -- No other element leaves the stack.
    have same : j = id := by
      by_contra other
      rcases pending with mem | here
      · exact done (.inl (mem_of_stack stack mem other))
      · exact other (Option.some.inj (here.symm.trans reading))
    subst same
    have empty : (change (b.node j)).InOrder :=
      .of_empty (by rwa [links'.start]) (stop _) startTagEnd ((endTag _).trans no_endTag)
    rw [own, childless]
    exact ⟨empty, Nat.le_of_eq (stop _), by simp⟩

end Nested

/-! ## A new element -/

section opening

variable {start : Nat} {j child : NodeId}

/-- A new element is the last node. -/
theorem node_openElement_size (inside : b.current < b.nodes.size) :
    (b.openElement length start).node b.nodes.size = b.opened length start := by
  rw [node_openElement inside, if_pos rfl]

/-- The nodes that were there before change in their children at most. -/
theorem exists_node_openElement (length start : Nat) (inside : b.current < b.nodes.size)
    (here : j < b.nodes.size) :
    ∃ children, (b.openElement length start).node j = { b.node j with children } := by
  rw [node_openElement inside, if_neg (Nat.ne_of_lt here)]
  split
  · exact ⟨_, rfl⟩
  · exact ⟨_, rfl⟩

/-- The innermost open element has one more child. -/
theorem children_openElement (inside : b.current < b.nodes.size) (here : j < b.nodes.size) :
    ((b.openElement length start).node j).children =
      if j = b.current then (b.node j).children.push b.nodes.size else (b.node j).children := by
  rw [node_openElement inside, if_neg (Nat.ne_of_lt here)]
  split <;> rfl

/-- A child was there before, or it is the new element. -/
theorem mem_children_openElement (inside : b.current < b.nodes.size) (here : j < b.nodes.size)
    (mem : child ∈ ((b.openElement length start).node j).children) :
    child ∈ (b.node j).children ∨ j = b.current ∧ child = b.nodes.size := by
  rw [children_openElement inside here] at mem
  split at mem
  · rename_i top
    exact (Array.mem_push.mp mem).imp_right fun last => ⟨top, last⟩
  · exact .inl mem

/-- Elements start where they did. -/
theorem start_openElement (inside : b.current < b.nodes.size) (here : j < b.nodes.size) :
    ((b.openElement length start).node j).start = (b.node j).start := by
  obtain ⟨_, same⟩ := exists_node_openElement length start inside here
  rw [same]

/-- Elements end where they did. -/
theorem stop_openElement (inside : b.current < b.nodes.size) (here : j < b.nodes.size) :
    ((b.openElement length start).node j).stop = (b.node j).stop := by
  obtain ⟨_, same⟩ := exists_node_openElement length start inside here
  rw [same]

/-- A node is new, or it was there before. -/
theorem lt_size_openElement (here : j < (b.openElement length start).nodes.size) :
    j = b.nodes.size ∨ j < b.nodes.size := by
  rw [size_openElement] at here
  exact (Nat.lt_or_eq_of_le (Nat.le_of_lt_succ here)).symm

theorem OpenedIn.openElement (h : b.OpenedIn child j) (inside : b.current < b.nodes.size) :
    (b.openElement length start).OpenedIn child j := by
  obtain ⟨_, same⟩ := exists_node_openElement length start inside h.1
  refine ⟨?_, ?_, h.2.2⟩
  · rw [size_openElement]
    exact Nat.lt_succ_of_lt h.1
  · rw [same]
    exact h.2.1

/-- A new element is opened directly inside the innermost open one. -/
theorem openedIn_current (inside : b.current < b.nodes.size) :
    (b.openElement length start).OpenedIn b.nodes.size b.current := by
  refine ⟨?_, ?_, inside⟩
  · rw [size_openElement]
    exact Nat.lt_succ_self _
  · rw [node_openElement_size inside]
    rfl

/-- The new element is pending, and so is what was pending before. -/
theorem pending_openElement (none_read : b.startTag = none) :
    (b.openElement length start).Pending j ↔ j = b.nodes.size ∨ b.Pending j := by
  simp only [Pending, openElements_openElement, List.mem_cons, startTag_openElement, none_read,
    reduceCtorEq, or_false, Option.some.injEq, eq_comm (a := b.nodes.size)]
  tauto

/-- What is complete was there before. -/
theorem complete_openElement (none_read : b.startTag = none)
    (here : j < (b.openElement length start).nodes.size)
    (done : ¬ (b.openElement length start).Pending j) : j < b.nodes.size ∧ ¬ b.Pending j := by
  rw [pending_openElement none_read, not_or] at done
  exact ⟨(lt_size_openElement here).resolve_left done.1, done.2⟩

/-- What was complete before is complete. -/
theorem not_pending_openElement (none_read : b.startTag = none) (here : j < b.nodes.size)
    (complete : ¬ b.Pending j) : ¬ (b.openElement length start).Pending j := by
  rw [pending_openElement none_read, not_or]
  exact ⟨Nat.ne_of_lt here, complete⟩

end opening

namespace Nested

section opening

variable {start frontier' : Nat}

/-- The children of the innermost open element are complete: open elements were opened earlier. -/
theorem complete_of_mem_current (h : b.Nested length frontier) (none_read : b.startTag = none)
    {child : NodeId} (mem : child ∈ (b.node b.current).children) :
    ¬ b.Pending child ∧ (b.node child).stop ≤ frontier := by
  obtain ⟨opened, -⟩ := h.children b.current h.current_lt_size child mem
  have complete : ¬ b.Pending child := by
    rintro (still_open | here)
    · exact Nat.lt_irrefl _ (Nat.lt_of_lt_of_le opened.2.2 (h.le_current still_open))
    · simp [none_read] at here
  exact ⟨complete, (h.settled child opened.1 opened.ne_root complete).2⟩

/-- A new element starts inside its parent. -/
theorem children_openElement (h : b.Nested length start) :
    ∀ id < (b.openElement length start).nodes.size,
      ∀ child ∈ ((b.openElement length start).node id).children,
        (b.openElement length start).OpenedIn child id ∧
          ((b.openElement length start).node id).start ≤
            ((b.openElement length start).node child).start := by
  have inside := h.current_lt_size
  intro id here child mem
  rcases lt_size_openElement here with rfl | before
  · simp [node_openElement_size inside, opened] at mem
  · rw [start_openElement inside before]
    rcases mem_children_openElement inside before mem with known | ⟨rfl, rfl⟩
    · obtain ⟨opened, after⟩ := h.children id before child known
      rw [start_openElement inside opened.1]
      exact ⟨opened.openElement inside, after⟩
    · rw [node_openElement_size inside]
      exact ⟨openedIn_current inside, h.start_le before⟩

/-- A new element comes after the start tag of its parent. -/
theorem content_openElement (h : b.Nested length start) (none_read : b.startTag = none) :
    ∀ id < (b.openElement length start).nodes.size, id ≠ Document.root →
      ∀ child ∈ ((b.openElement length start).node id).children,
        ∃ e, ((b.openElement length start).node id).startTagEnd = some e ∧
          e ≤ ((b.openElement length start).node child).start := by
  have inside := h.current_lt_size
  intro id here off_root child mem
  rcases lt_size_openElement here with rfl | before
  · simp [node_openElement_size inside, opened] at mem
  · obtain ⟨_, same⟩ := exists_node_openElement length start inside before
    rcases mem_children_openElement inside before mem with known | ⟨rfl, rfl⟩
    · rw [same, start_openElement inside (h.children id before child known).1.1]
      exact h.content id before off_root child known
    · -- The parent is open, and no start tag is being read, so its own one is complete.
      obtain ⟨e, ends, -, bound⟩ := h.openTag _ (current_mem off_root) (by simp [none_read])
      rw [same, node_openElement_size inside]
      exact ⟨e, ends, bound⟩

/-- A new element is no child of a complete one. -/
theorem within_openElement (h : b.Nested length start) (none_read : b.startTag = none) :
    ∀ id < (b.openElement length start).nodes.size, id ≠ Document.root →
      ¬ (b.openElement length start).Pending id →
      ∀ child ∈ ((b.openElement length start).node id).children,
        ¬ (b.openElement length start).Pending child ∧
          ((b.openElement length start).node child).stop ≤
            ((b.openElement length start).node id).contentStop := by
  have inside := h.current_lt_size
  intro id here off_root done child mem
  obtain ⟨before, complete⟩ := complete_openElement none_read here done
  obtain ⟨_, same⟩ := exists_node_openElement length start inside before
  rcases mem_children_openElement inside before mem with known | ⟨rfl, -⟩
  · obtain ⟨child_complete, bound⟩ := h.within id before off_root complete child known
    have child_before := (h.children id before child known).1.1
    rw [stop_openElement inside child_before, same]
    exact ⟨not_pending_openElement none_read child_before child_complete, bound⟩
  · exact absurd (.inl (current_mem off_root)) complete

/-- A new element comes after all children of its parent. -/
theorem ordered_openElement (h : b.Nested length start) (none_read : b.startTag = none) :
    ∀ id < (b.openElement length start).nodes.size,
      ((b.openElement length start).node id).children.toList.Pairwise fun child later =>
        ¬ (b.openElement length start).Pending child ∧
          ((b.openElement length start).node child).stop ≤
            ((b.openElement length start).node later).start := by
  have inside := h.current_lt_size
  intro id here
  rcases lt_size_openElement here with rfl | before
  · simp [node_openElement_size inside, opened]
  · have known : (b.node id).children.toList.Pairwise fun child later =>
        ¬ (b.openElement length start).Pending child ∧
          ((b.openElement length start).node child).stop ≤
            ((b.openElement length start).node later).start := by
      refine (h.ordered id before).imp_of_mem ?_
      rintro child later mem mem' ⟨complete, apart⟩
      have first := (h.children id before child (by simpa using mem)).1.1
      have second := (h.children id before later (by simpa using mem')).1.1
      rw [stop_openElement inside first, start_openElement inside second]
      exact ⟨not_pending_openElement none_read first complete, apart⟩
    rw [Builder.children_openElement inside before]
    split
    · rename_i top
      rw [Array.toList_push]
      refine List.pairwise_append.mpr ⟨known, List.pairwise_singleton _ _, ?_⟩
      -- All earlier children of the parent end before the new element starts.
      intro child mem last same
      obtain rfl := List.mem_singleton.mp same
      have mem' : child ∈ (b.node b.current).children := top ▸ Array.mem_def.mpr mem
      have first := (h.children _ inside child mem').1.1
      obtain ⟨complete, bound⟩ := h.complete_of_mem_current none_read mem'
      rw [stop_openElement inside first, node_openElement_size inside]
      exact ⟨not_pending_openElement none_read first complete, bound⟩
    · exact known

/-- **A new element** at `start`, where everything so far is settled or open. -/
theorem openElement (h : b.Nested length start) (none_read : b.startTag = none)
    (advance : start < frontier') : (b.openElement length start).Nested length frontier' := by
  have inside := h.current_lt_size
  have old (j : NodeId) (here : j < b.nodes.size) :=
    exists_node_openElement length start inside here
  refine ⟨?root, ?chain, ?starts, ?openTag, ?unclosed, ?reading, ?settled, h.children_openElement,
    h.content_openElement none_read, h.within_openElement none_read, h.ordered_openElement none_read⟩
  case root =>
    obtain ⟨_, same⟩ := old _ h.root.1
    rw [size_openElement, same]
    exact ⟨Nat.lt_succ_of_lt h.root.1, h.root.2⟩
  case chain =>
    rw [openElements_openElement, List.cons_append]
    refine List.isChain_cons.mpr ⟨?_, h.chain.imp fun _ _ opened => opened.openElement inside⟩
    intro top mem
    rw [eq_current_of_mem_head? mem]
    exact openedIn_current inside
  case starts =>
    intro j here off_root
    rcases lt_size_openElement here with rfl | before
    · rw [node_openElement_size inside]
      exact advance
    · rw [start_openElement inside before]
      exact Nat.lt_trans (h.starts j before off_root) advance
  case openTag =>
    intro j mem other
    have before : j ∈ b.openElements := by
      rcases List.mem_cons.mp mem with rfl | before
      · exact absurd rfl other
      · exact before
    obtain ⟨e, ends, after, bound⟩ := h.openTag j before (by simp [none_read])
    obtain ⟨_, same⟩ := old j (h.lt_size before)
    rw [same]
    exact ⟨e, ends, after, Nat.le_trans bound (Nat.le_of_lt advance)⟩
  case unclosed =>
    intro j mem
    rcases List.mem_cons.mp mem with rfl | before
    · rw [node_openElement_size inside]
      exact ⟨rfl, rfl⟩
    · obtain ⟨_, same⟩ := old j (h.lt_size before)
      rw [same]
      exact h.unclosed j before
  case reading =>
    intro j here
    obtain rfl : b.nodes.size = j := Option.some.inj here
    have fresh : (b.openElement length start).OpenedIn b.nodes.size b.current :=
      openedIn_current inside
    rw [node_openElement_size inside]
    exact ⟨fresh.1, fresh.ne_root, fun _ => rfl, rfl, rfl, rfl, rfl⟩
  case settled =>
    intro j here off_root done
    -- The new element is open, so what is settled is an old one.
    obtain ⟨before, complete⟩ := complete_openElement none_read here done
    obtain ⟨in_order, bound⟩ := h.settled j before off_root complete
    obtain ⟨_, same⟩ := old j before
    rw [same]
    exact ⟨⟨in_order.1, in_order.2, in_order.3, in_order.4⟩,
      Nat.le_trans bound (Nat.le_of_lt advance)⟩

end opening

end Nested

/-! ## The operations -/

/-- What leaving makes of the stack depends on the stack alone. -/
theorem openElements_leave_congr (h : b'.openElements = b.openElements) :
    (b'.leave id).openElements = (b.leave id).openElements := by
  rw [openElements_leave, openElements_leave, h]

/-- The name of a start tag. -/
theorem nested_nameElement (v : Vocabulary) {token : Token} {frontier' : Nat}
    (h : b.Nested length frontier) (advance : frontier ≤ frontier') :
    (b.nameElement v token).Nested length frontier' := by
  unfold nameElement
  cases reading : b.startTag with
  | none => exact h.mono advance
  | some id =>
    dsimp only
    split
    · -- A void element leaves the stack, so it may be closed.
      refine h.annotate advance reading _ (nodes_leave _) (startTag_leave _)
        (.inr (openElements_leave_congr rfl)) ?_ ?_
      · exact fun _ => rfl
      · intro mem
        exact absurd mem (h.not_mem_of_left reading (openElements_leave_congr rfl))
    · rename_i not_void
      refine h.annotate advance reading _ rfl rfl (.inl rfl) ?_ ?_
      · exact fun _ => rfl
      · intro mem
        simp [(h.unclosed id mem).2, not_void]

/-- The name of an attribute. -/
theorem nested_addAttribute {token : Token} {frontier' : Nat} (h : b.Nested length frontier)
    (advance : frontier ≤ frontier') : (b.addAttribute token).Nested length frontier' := by
  unfold addAttribute
  cases reading : b.startTag with
  | none => exact h.mono advance
  | some id =>
    dsimp only
    refine h.annotate advance reading _ rfl rfl (.inl rfl) ?_ ?_
    · exact fun _ => rfl
    · exact fun mem => (h.unclosed id mem).2

/-- The value of an attribute. -/
theorem nested_addValue {token : Token} {frontier' : Nat} (h : b.Nested length frontier)
    (advance : frontier ≤ frontier') : (b.addValue token).Nested length frontier' := by
  unfold addValue
  cases reading : b.startTag with
  | none => exact h.mono advance
  | some id =>
    dsimp only
    refine h.annotate advance reading _ rfl rfl (.inl rfl) ?_ ?_
    · exact fun _ => rfl
    · exact fun mem => (h.unclosed id mem).2

/-- **A start tag that ends together with its element.** -/
theorem nested_finishAndLeave {stop : Nat} (h : b.Nested length frontier)
    (advance : frontier ≤ stop) (reading : b.startTag = some id) (change : Node → Node)
    (links : ∀ n : Node, n.startTagEnd = none → n.SameLinks (change n))
    (endTag : ∀ n, (change n).endTag = n.endTag) (ends : ∀ n, (change n).stop = stop)
    (startTagEnd : (change (b.node id)).startTagEnd.getD stop = stop) :
    let b' := ({ b with startTag := none }.modify id change).leave id
    b'.startTag = none ∧ b'.Nested length stop := by
  intro b'
  have stack : b'.openElements = (b.leave id).openElements :=
    openElements_leave_congr rfl
  have none_read : b'.startTag = none := startTag_leave _
  refine ⟨none_read, h.finishStartTag advance reading change (nodes_leave _) none_read (.inr stack) links
    endTag ends startTagEnd fun mem => ?_⟩
  exact absurd mem (h.not_mem_of_left reading stack)

/-- The `>` of a start tag. -/
theorem nested_closeStartTag {token : Token} (h : b.Nested length frontier)
    (advance : frontier ≤ token.span.stop) :
    (b.closeStartTag token).startTag = none ∧
      (b.closeStartTag token).Nested length token.span.stop := by
  unfold closeStartTag
  cases reading : b.startTag with
  | none => exact ⟨reading, h.mono advance⟩
  | some id =>
    have no_end := (h.reading id reading).2.2.2.1
    dsimp only
    -- The tag was interrupted, it has no name, or it is followed by content.
    split_ifs with interrupted nameless
    · exact nested_finishAndLeave h advance reading _ (fun _ _ => ⟨rfl, rfl, rfl, fun _ e => e⟩)
        (fun _ => rfl) (fun _ => rfl) (by simp [no_end])
    · exact nested_finishAndLeave h advance reading _
        (fun _ none_yet => ⟨rfl, rfl, rfl, fun _ e => by simp [none_yet] at e⟩)
        (fun _ => rfl) (fun _ => rfl) rfl
    · exact ⟨rfl, h.finishStartTag advance reading _ rfl rfl (.inl rfl)
        (fun _ none_yet => ⟨rfl, rfl, rfl, fun _ e => by simp [none_yet] at e⟩)
        (fun _ => rfl) (fun _ => rfl) rfl fun mem => ⟨rfl, (h.unclosed id mem).2⟩⟩

/-- The `/>` of a start tag. -/
theorem nested_selfCloseElement {stop : Nat} (h : b.Nested length frontier)
    (advance : frontier ≤ stop) :
    (b.selfCloseElement stop).startTag = none ∧ (b.selfCloseElement stop).Nested length stop := by
  unfold selfCloseElement
  cases reading : b.startTag with
  | none => exact ⟨reading, h.mono advance⟩
  | some id =>
    exact nested_finishAndLeave h advance reading _
      (fun _ none_yet => ⟨rfl, rfl, rfl, fun _ e => by simp [none_yet] at e⟩)
      (fun _ => rfl) (fun _ => rfl) rfl

end Builder

end MarkupAnalysis
