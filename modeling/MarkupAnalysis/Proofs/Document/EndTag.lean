import MarkupAnalysis.Proofs.Document.StartTag

/-! # End tags keep the tree in order

* **`Builder.Nested.endElement`** — an end tag that is matched.
* **`Builder.JustEnded`** — the element that it has closed, until its bracket.
* **`Builder.Nested.closeEndTag`** — the bracket of an end tag.
* **`Builder.Stands`**, **`Builder.stands_take`** — the invariant by modes, kept by every token. -/

namespace MarkupAnalysis

/-! ## Ends that move -/

/-- The content of an element with an end tag does not depend on where the end tag ends. -/
theorem Node.contentStop_of_endTag {n : Node} {endTag : EndTag} (met : n.endTag = some endTag)
    (stop : Nat) : { n with stop }.contentStop = n.contentStop := by
  simp [Node.contentStop, Node.endTagStart, met]

/-- The end of an element with both tags may move on. -/
theorem Node.InOrder.withStop {n : Node} (h : n.InOrder) {e : Nat} (ends : n.startTagEnd = some e)
    {endTag : EndTag} (met : n.endTag = some endTag) {stop : Nat} (later : n.stop ≤ stop) :
    { n with stop }.InOrder := by
  have contentStart : { n with stop }.contentStart = n.contentStart := by
    simp [Node.contentStart, ends]
  have contentStop := Node.contentStop_of_endTag met stop
  refine ⟨Nat.lt_of_lt_of_le h.start_lt_stop later, ?_, ?_, ?_⟩
  · rw [contentStart]
    exact h.start_le
  · rw [contentStart, contentStop]
    exact h.content_le
  · rw [contentStop]
    exact Nat.le_trans h.le_stop later

namespace Builder

variable {b b' : Builder} {length frontier : Nat} {id : NodeId}

namespace Nested

section matched

variable {inner outer : List NodeId}

/-- The part of the stack that an end tag takes off has nothing in common with the rest. -/
theorem split_apart (h : b.Nested length frontier) (split : b.openElements = inner ++ id :: outer) :
    id ∉ inner ∧ ∀ j, j ∈ inner ∨ j = id → j ∉ outer := by
  have sorted : (inner ++ id :: outer).Pairwise (· > ·) :=
    split ▸ h.decreasing.sublist (List.sublist_append_left _ _)
  obtain ⟨-, lower, across⟩ := List.pairwise_append.mp sorted
  refine ⟨fun mem => Nat.lt_irrefl _ (across id mem id List.mem_cons_self), ?_⟩
  rintro j (mem | rfl) below
  · exact Nat.lt_irrefl _ (across j mem j (List.mem_cons_of_mem _ below))
  · exact Nat.lt_irrefl _ ((List.pairwise_cons.mp lower).1 j below)

/-- What was opened later than an element that an end tag takes off is taken off as well. -/
theorem mem_inner_of_lt (h : b.Nested length frontier)
    (split : b.openElements = inner ++ id :: outer) {j later : NodeId} (here : j ∈ inner ∨ j = id)
    (mem : later ∈ b.openElements) (after : j < later) : later ∈ inner := by
  have sorted : (inner ++ id :: outer).Pairwise (· > ·) :=
    split ▸ h.decreasing.sublist (List.sublist_append_left _ _)
  obtain ⟨-, lower, across⟩ := List.pairwise_append.mp sorted
  -- The rest of the stack was opened before all that is taken off.
  have below : ∀ x ∈ id :: outer, x ≤ j := by
    intro x mem
    rcases here with in_inner | rfl
    · exact Nat.le_of_lt (across j in_inner x mem)
    · rcases List.mem_cons.mp mem with rfl | out
      · exact Nat.le_refl _
      · exact Nat.le_of_lt ((List.pairwise_cons.mp lower).1 x out)
  rw [split] at mem
  rcases List.mem_append.mp mem with done | out
  · exact done
  · exact absurd (below later out) (Nat.not_le.mpr after)

/-- An open element with a complete start tag is complete once it is cut off. -/
theorem inOrder_cut (h : b.Nested length frontier) (mem : id ∈ b.openElements)
    (other : b.startTag ≠ some id) :
    (cut frontier (b.node id)).InOrder ∧ (cut frontier (b.node id)).contentStop = frontier := by
  obtain ⟨e, ends, after, bound⟩ := h.openTag id mem other
  have no_endTag := (h.unclosed id mem).1
  have contentStart : (cut frontier (b.node id)).contentStart = e := by
    simp [Node.contentStart, cut, ends]
  have contentStop : (cut frontier (b.node id)).contentStop = frontier := by
    simp [Node.contentStop, Node.endTagStart, cut, no_endTag]
  refine ⟨⟨Nat.lt_of_lt_of_le after bound, ?_, ?_, Nat.le_of_eq contentStop⟩, contentStop⟩
  · rw [contentStart]
    exact Nat.le_of_lt after
  · rwa [contentStart, contentStop]

/-- An open element with a complete start tag is complete once an end tag closes it. -/
theorem inOrder_closeWith {nameSpan : Span} (h : b.Nested length frontier)
    (mem : id ∈ b.openElements) (other : b.startTag ≠ some id) (advance : frontier ≤ nameSpan.stop) :
    (closeWith frontier nameSpan (b.node id)).InOrder := by
  obtain ⟨e, ends, after, bound⟩ := h.openTag id mem other
  have contentStart : (closeWith frontier nameSpan (b.node id)).contentStart = e := by
    simp [Node.contentStart, closeWith, ends]
  refine ⟨Nat.lt_of_lt_of_le after (Nat.le_trans bound advance), ?_, ?_, advance⟩
  · rw [contentStart]
    exact Nat.le_of_lt after
  · rw [contentStart]
    exact bound

/-- The nodes after an end tag that is matched. -/
theorem node_endElement {nameSpan : Span} (h : b.Nested length frontier)
    (split : b.openElements = inner ++ id :: outer)
    (nodes : b'.nodes = ((b.cutOff inner frontier).modify id (closeWith frontier nameSpan)).nodes)
    (j : NodeId) :
    b'.node j = if j = id then closeWith frontier nameSpan (b.node j)
      else if j ∈ inner then cut frontier (b.node j) else b.node j := by
  have still_open : ∀ i ∈ inner, i ∈ b.openElements := fun i mem => by simp [split, mem]
  have id_open : id ∈ b.openElements := by simp [split]
  rw [node_congr nodes]
  exact node_closeWith (fun i mem => h.lt_size (still_open i mem)) (h.lt_size id_open)
    (h.split_apart split).1 j

/-- Children of an element that an end tag takes off end before its `</`: they were complete, or the
end tag takes them off as well. -/
theorem children_endElement {nameSpan : Span} (h : b.Nested length frontier)
    (none_read : b.startTag = none) (split : b.openElements = inner ++ id :: outer)
    (nodes : b'.nodes = ((b.cutOff inner frontier).modify id (closeWith frontier nameSpan)).nodes)
    {j child : NodeId} (here : j ∈ inner ∨ j = id) (mem : child ∈ (b.node j).children) :
    child ∉ outer ∧ (b'.node child).stop ≤ frontier := by
  obtain ⟨id_not_inner, not_outer⟩ := h.split_apart split
  have j_open : j ∈ b.openElements := by
    rw [split]
    rcases here with in_inner | rfl
    · exact List.mem_append_left _ in_inner
    · exact List.mem_append_right _ List.mem_cons_self
  obtain ⟨opened, -⟩ := h.children j (h.lt_size j_open) child mem
  rw [h.node_endElement split nodes]
  by_cases still_open : child ∈ b.openElements
  · have in_inner := h.mem_inner_of_lt split here still_open opened.2.2
    rw [if_neg fun same : child = id => id_not_inner (same ▸ in_inner), if_pos in_inner]
    exact ⟨not_outer child (.inl in_inner), Nat.le_refl _⟩
  · have complete : ¬ b.Pending child := by simp [Pending, still_open, none_read]
    rw [split] at still_open
    simp only [List.mem_append, List.mem_cons, not_or] at still_open
    rw [if_neg still_open.2.1, if_neg still_open.1]
    exact ⟨still_open.2.2, (h.settled child opened.1 opened.ne_root complete).2⟩

/-- **An end tag that is matched** settles the elements from the innermost open one to the one that it
closes. -/
theorem endElement {nameSpan : Span} (h : b.Nested length frontier) (none_read : b.startTag = none)
    (split : b.openElements = inner ++ id :: outer) (advance : frontier ≤ nameSpan.stop)
    (nodes : b'.nodes = ((b.cutOff inner frontier).modify id (closeWith frontier nameSpan)).nodes)
    (stack : b'.openElements = outer) (startTag : b'.startTag = b.startTag) :
    b'.Nested length nameSpan.stop := by
  obtain ⟨-, not_outer⟩ := h.split_apart split
  have node' := h.node_endElement split nodes
  have not_read (j : NodeId) : b.startTag ≠ some j := by simp [none_read]
  have pending_iff (j : NodeId) : b'.Pending j ↔ j ∈ outer := by
    simp [Pending, stack, startTag, none_read]
  have open_iff (j : NodeId) : j ∈ b.openElements ↔ (j ∈ inner ∨ j = id) ∨ j ∈ outer := by
    simp [split, or_assoc]
  -- Only the element that is closed and what is open inside it change.
  have node_other (j : NodeId) (outside : ¬ (j ∈ inner ∨ j = id)) : b'.node j = b.node j := by
    rw [node', if_neg fun same => outside (.inr same), if_neg fun mem => outside (.inl mem)]
  have outer_node : ∀ j ∈ b'.openElements, j ∈ b.openElements ∧ b'.node j = b.node j := by
    intro j mem
    rw [stack] at mem
    exact ⟨(open_iff j).mpr (.inr mem), node_other j fun here => not_outer j here mem⟩
  refine h.reshape advance (by simp [nodes]) ⟨inner ++ [id], by simp [stack, split]⟩ (.inr startTag)
    ?kept ?links ?openTag ?unclosed (by simp [startTag, none_read]) ?settled
  case kept =>
    intro j complete
    exact node_other j fun here => complete (.inl ((open_iff j).mpr (.inl here)))
  case links =>
    intro j _
    rw [node']
    split_ifs
    · exact ⟨rfl, rfl, rfl, fun _ e => e⟩
    · exact ⟨rfl, rfl, rfl, fun _ e => e⟩
    · exact .refl _
  case openTag =>
    intro j mem _
    obtain ⟨still_open, same⟩ := outer_node j mem
    obtain ⟨e, ends, after, bound⟩ := h.openTag j still_open (not_read j)
    rw [same]
    exact ⟨e, ends, after, Nat.le_trans bound advance⟩
  case unclosed =>
    intro j mem
    obtain ⟨still_open, same⟩ := outer_node j mem
    rw [same]
    exact h.unclosed j still_open
  case settled =>
    intro j pending done
    -- What becomes settled here has been open, and is not farther out than the closed element.
    have j_open : j ∈ b.openElements := pending.resolve_right (not_read j)
    have here := ((open_iff j).mp j_open).resolve_right (mt (pending_iff j).mpr done)
    have children : ∀ child ∈ (b.node j).children,
        ¬ b'.Pending child ∧ (b'.node child).stop ≤ frontier := by
      intro child mem
      obtain ⟨not_left, bound⟩ := h.children_endElement none_read split nodes here mem
      exact ⟨mt (pending_iff child).mp not_left, bound⟩
    rw [node']
    split_ifs with same in_inner
    · exact ⟨h.inOrder_closeWith j_open (not_read j) advance, Nat.le_refl _, children⟩
    · obtain ⟨in_order, contentStop⟩ := h.inOrder_cut j_open (not_read j)
      refine ⟨in_order, advance, ?_⟩
      rwa [contentStop]
    · exact absurd here (by simp [same, in_inner])

end matched

end Nested

/-- The element that the end tag being read has closed: it is complete up to the end tag's name, and
nothing starts after it. -/
structure JustEnded (b : Builder) (id : NodeId) : Prop where
  /-- It is an element of the array. -/
  inside : id < b.nodes.size
  /-- It is not the root. -/
  ne_root : id ≠ Document.root
  /-- It has been taken off the stack. -/
  settled : ¬ b.Pending id
  /-- The innermost open element is its parent. -/
  parent : (b.node id).parent = some b.current
  /-- Its start tag was complete. -/
  startTagEnd : ∃ e, (b.node id).startTagEnd = some e
  /-- It has an end tag. -/
  endTag : ∃ e, (b.node id).endTag = some e
  /-- Nothing starts after it. -/
  last : ∀ j < b.nodes.size, (b.node j).start < (b.node id).stop

namespace Nested

/-- The element that a matched end tag closes has just ended. -/
theorem justEnded {inner outer : List NodeId} {nameSpan : Span}
    (h : b.Nested length frontier) (none_read : b.startTag = none)
    (split : b.openElements = inner ++ id :: outer) (advance : frontier < nameSpan.stop)
    (nodes : b'.nodes = ((b.cutOff inner frontier).modify id (closeWith frontier nameSpan)).nodes)
    (stack : b'.openElements = outer) (startTag : b'.startTag = b.startTag) : b'.JustEnded id := by
  have id_open : id ∈ b.openElements := by simp [split]
  obtain ⟨-, not_outer⟩ := h.split_apart split
  have node' := h.node_endElement split nodes
  have own : b'.node id = closeWith frontier nameSpan (b.node id) := by rw [node', if_pos rfl]
  have size : b'.nodes.size = b.nodes.size := by simp [nodes]
  refine ⟨size ▸ h.lt_size id_open, h.ne_root id_open, ?settled, ?parent, ?startTagEnd, ?endTag, ?last⟩
  case settled =>
    simp only [Pending, stack, startTag, none_read, reduceCtorEq, or_false]
    exact not_outer id (.inr rfl)
  case parent =>
    -- What is left of the stack begins with the element that it was opened in.
    have chain := h.chain
    rw [split, List.append_assoc] at chain
    have below := chain.right_of_append
    rw [own, current, stack]
    cases outer with
    | nil => exact (List.isChain_cons_cons.mp below).1.2.1
    | cons => exact (List.isChain_cons_cons.mp below).1.2.1
  case startTagEnd =>
    obtain ⟨e, ends, -⟩ := h.openTag id id_open (by simp [none_read])
    rw [own]
    exact ⟨e, ends⟩
  case endTag =>
    rw [own]
    exact ⟨⟨frontier, nameSpan⟩, rfl⟩
  case last =>
    intro j here
    have same_start : (b'.node j).start = (b.node j).start := by
      rw [node']
      split_ifs <;> rfl
    rw [own, same_start]
    show (b.node j).start < nameSpan.stop
    exact Nat.lt_of_le_of_lt (h.start_le (size ▸ here)) advance

/-- The element that has just ended is a child of the innermost open one, so of no complete one. -/
theorem not_mem_children_of_justEnded (h : b.Nested length frontier) (ended : b.JustEnded id)
    {j : NodeId} (inside : j < b.nodes.size) (off_root : j ≠ Document.root)
    (complete : ¬ b.Pending j) : id ∉ (b.node j).children := by
  intro mem
  obtain ⟨opened, -⟩ := h.children j inside id mem
  obtain rfl : j = b.current := Option.some.inj (opened.2.1.symm.trans ended.parent)
  exact complete (.inl (current_mem off_root))

/-- **The bracket of an end tag** moves the end of the element that has just ended. -/
theorem closeEndTag {frontier' : Nat} (h : b.Nested length frontier) (ended : b.JustEnded id)
    (none_read : b.startTag = none) (advance : frontier ≤ frontier')
    (nodes : b'.nodes = b.nodes.modify id fun n => { n with stop := frontier' })
    (stack : b'.openElements = b.openElements) (startTag : b'.startTag = b.startTag) :
    b'.Nested length frontier' := by
  obtain ⟨e, ends⟩ := ended.startTagEnd
  obtain ⟨endTag, met⟩ := ended.endTag
  have nodes' : b'.node = (b.modify id fun n => { n with stop := frontier' }).node := node_congr nodes
  have own : b'.node id = { b.node id with stop := frontier' } := by
    rw [nodes', node_modify ended.inside, if_pos rfl]
  have others (j : NodeId) (other : j ≠ id) : b'.node j = b.node j := by
    rw [nodes', node_modify_of_ne other]
  -- The content of the element ends before its end tag, wherever that ends.
  have contentStop (j : NodeId) : (b'.node j).contentStop = (b.node j).contentStop := by
    by_cases same : j = id
    · subst same
      rw [own, Node.contentStop_of_endTag met]
    · rw [others j same]
  have same : b.SameTree b' := by
    refine ⟨by rw [nodes, Array.size_modify], fun j => ?_⟩
    by_cases same : j = id
    · subst same
      rw [own]
      exact ⟨rfl, rfl, rfl, fun _ e => e⟩
    · rw [others j same]
      exact .refl _
  have pending_iff (j : NodeId) : b'.Pending j ↔ b.Pending j := by simp [Pending, stack, startTag]
  have open_node : ∀ j ∈ b'.openElements, j ∈ b.openElements ∧ b'.node j = b.node j := by
    intro j mem
    rw [stack] at mem
    exact ⟨mem, others j fun same => ended.settled (.inl (same ▸ mem))⟩
  refine ⟨?root, same.chain h (stack ▸ List.suffix_refl _), same.starts h advance, ?openTag, ?unclosed,
    by simp [startTag, none_read], ?settled, same.children h, same.content h, ?within, ?ordered⟩
  case root =>
    rw [same.size, others _ ended.ne_root.symm]
    exact h.root
  case openTag =>
    intro j mem other
    obtain ⟨still_open, same⟩ := open_node j mem
    obtain ⟨e, ends, after, bound⟩ := h.openTag j still_open (startTag ▸ other)
    rw [same]
    exact ⟨e, ends, after, Nat.le_trans bound advance⟩
  case unclosed =>
    intro j mem
    obtain ⟨still_open, same⟩ := open_node j mem
    rw [same]
    exact h.unclosed j still_open
  case settled =>
    intro j here off_root done
    obtain ⟨in_order, bound⟩ :=
      h.settled j (same.size ▸ here) off_root (mt (pending_iff j).mpr done)
    have later := Nat.le_trans bound advance
    by_cases own_place : j = id
    · subst own_place
      rw [own]
      exact ⟨in_order.withStop ends met later, Nat.le_refl _⟩
    · rw [others j own_place]
      exact ⟨in_order, later⟩
  case within =>
    intro j here off_root done child mem
    rw [(same.links j).children] at mem
    have complete := mt (pending_iff j).mpr done
    obtain ⟨child_complete, bound⟩ := h.within j (same.size ▸ here) off_root complete child mem
    -- The element that has just ended belongs to an open one.
    have other : child ≠ id := by
      rintro rfl
      exact h.not_mem_children_of_justEnded ended (same.size ▸ here) off_root complete mem
    rw [others child other, contentStop]
    exact ⟨mt (pending_iff child).mp child_complete, bound⟩
  case ordered =>
    intro j here
    rw [(same.links j).children]
    refine (h.ordered j (same.size ▸ here)).imp_of_mem ?_
    rintro child later mem mem' ⟨complete, apart⟩
    have known := (h.children j (same.size ▸ here) later (by simpa using mem')).1.1
    -- Nothing starts after the element that has just ended: no child comes later than it.
    have other : child ≠ id := by
      rintro rfl
      exact absurd apart (Nat.not_le.mpr (ended.last later known))
    rw [others child other, (same.links later).start]
    exact ⟨mt (pending_iff child).mp complete, apart⟩

end Nested

/-! ## Every token -/

/-- **The state between two tokens**, by the mode that the next one is read in. While an end tag is
being read, everything settled lies before its `</`. -/
def Stands (length : Nat) (mode : Mode) (position : Nat) (b : Builder) : Prop :=
  match mode with
  | .startTagOpened | .startTag | .attributeName | .attributeValue => b.Nested length position
  | .endTagOpened => b.startTag = none ∧ b.ended = none ∧
      ∃ start, b.endTagStart = some start ∧ start < position ∧ b.Nested length start
  | .endTag => b.startTag = none ∧ (∀ id, b.ended = some id → b.JustEnded id) ∧
      b.Nested length position
  | .content | .embeddedContent | .comment | .doctype =>
      b.startTag = none ∧ b.Nested length position

theorem stands_of_inStartTag {m : Mode} (inside : m.inStartTag) (position : Nat) :
    b.Stands length m position ↔ b.Nested length position := by
  cases m <;> first | rfl | simp [Mode.inStartTag] at inside

theorem stands_of_betweenTags {m : Mode} (outside : m.betweenTags) (position : Nat) :
    b.Stands length m position ↔ b.startTag = none ∧ b.Nested length position := by
  cases m <;> first | rfl | simp [Mode.betweenTags] at outside

/-- The name of an end tag. -/
theorem stands_endElement (v : Vocabulary) {token : Token} {position : Nat}
    (h : b.Stands length .endTagOpened position) (advance : position ≤ token.span.stop) :
    (b.endElement v token).Stands length .endTag token.span.stop := by
  obtain ⟨none_read, none_ended, start, opening, before, nested⟩ := h
  have start_lt : start < token.span.stop := Nat.lt_of_lt_of_le before advance
  have start_le := Nat.le_of_lt start_lt
  rcases endElement_cases v b token with stray | ⟨start', inner, id, outer, opening', closes, taken⟩
  · rw [stray]
    exact ⟨none_read, by simp [none_ended], nested.mono start_le⟩
  · obtain rfl : start = start' := Option.some.inj (opening.symm.trans opening')
    have startTag : ((b.cutOff inner start).modify id (closeWith start token.span)).startTag =
        b.startTag := startTag_cutOff inner start
    rw [taken]
    refine ⟨startTag.trans none_read, ?_,
      nested.endElement none_read closes.split start_le rfl rfl startTag⟩
    intro j here
    obtain rfl : id = j := Option.some.inj here
    exact nested.justEnded none_read closes.split start_lt rfl rfl startTag

/-- The bracket of an end tag. -/
theorem stands_closeEndTag {m : Mode} (inside : m.inEndTag) {position stop : Nat}
    (h : b.Stands length m position) (advance : position ≤ stop) :
    (b.closeEndTag stop).Stands length .content stop := by
  unfold closeEndTag
  cases m with
  | endTagOpened =>
    obtain ⟨none_read, none_ended, start, -, before, nested⟩ := h
    rw [none_ended]
    exact ⟨none_read, nested.mono (Nat.le_trans (Nat.le_of_lt before) advance)⟩
  | endTag =>
    obtain ⟨none_read, ended, nested⟩ := h
    cases here : b.ended with
    | none => exact ⟨none_read, nested.mono advance⟩
    | some id =>
      exact ⟨none_read, nested.closeEndTag (ended id here) none_read advance rfl rfl rfl⟩
  | _ => simp [Mode.inEndTag] at inside

/-- **Every token keeps the invariant.** -/
theorem stands_take (v : Vocabulary) {m m' : Mode} {token : Token} {position : Nat}
    (h : b.Stands length m position) (reads : m.Reads token.kind m')
    (start : token.span.start = position) (advance : position ≤ token.span.stop)
    (moved : token.kind ≠ .startTagClose → token.kind ≠ .endTagClose →
      position < token.span.stop) :
    (b.take v length token).Stands length m' token.span.stop := by
  unfold take
  generalize token.kind = kind at reads moved
  cases reads with
  | text outside =>
    obtain ⟨none_read, nested⟩ := (stands_of_betweenTags outside position).mp h
    exact ⟨none_read, nested.mono advance⟩
  | commentOpens outside =>
    obtain ⟨none_read, nested⟩ := (stands_of_betweenTags outside position).mp h
    exact ⟨none_read, nested.move advance rfl rfl rfl⟩
  | declarationOpens outside =>
    obtain ⟨none_read, nested⟩ := (stands_of_betweenTags outside position).mp h
    exact ⟨none_read, nested.mono advance⟩
  | body | declarationText | declarationEnds => exact ⟨h.1, h.2.mono advance⟩
  | commentText => exact ⟨h.1, h.2.move advance rfl rfl rfl⟩
  | commentEnds =>
    exact ⟨(startTag_endComment _ _).trans h.1, h.2.move advance (nodes_endComment _ _)
      (openElements_endComment _ _) (startTag_endComment _ _)⟩
  | startTagOpens outside =>
    -- The position itself is the start of the new element.
    obtain ⟨none_read, nested⟩ := (stands_of_betweenTags outside position).mp h
    exact start ▸ nested.openElement none_read (moved (by simp) (by simp))
  | startTagName => exact nested_nameElement v h advance
  | startTagBlank inside =>
    rw [stands_of_inStartTag inside] at h ⊢
    exact h.mono advance
  | startTagJunk inside => exact ((stands_of_inStartTag inside position).mp h).mono advance
  | attributeOpens inside =>
    refine nested_addAttribute ((stands_of_inStartTag ?_ position).mp h) advance
    rcases inside with rfl | rfl <;> rfl
  | assignment => exact h.mono advance
  | value => exact nested_addValue h advance
  | startTagEnds inside | startTagEndsBeforeBody inside =>
    exact nested_closeStartTag ((stands_of_inStartTag inside position).mp h) advance
  | elementEnds inside _ =>
    exact nested_selfCloseElement ((stands_of_inStartTag inside position).mp h) advance
  | endTagOpens outside =>
    -- The frontier stays at the `</` until the name says which elements end there.
    obtain ⟨none_read, nested⟩ := (stands_of_betweenTags outside position).mp h
    exact ⟨rfl, rfl, position, congrArg some start, moved (by simp) (by simp),
      nested.move (Nat.le_refl _) rfl rfl none_read.symm⟩
  | endTagName => exact stands_endElement v h advance
  | endTagBlank inside =>
    cases m with
    | endTagOpened =>
      obtain ⟨none_read, none_ended, start, opening, before, nested⟩ := h
      exact ⟨none_read, none_ended, start, opening, Nat.lt_of_lt_of_le before advance, nested⟩
    | endTag => exact ⟨h.1, h.2.1, h.2.2.mono advance⟩
    | _ => simp [Mode.inEndTag] at inside
  | endTagJunk =>
    obtain ⟨none_read, none_ended, start, -, before, nested⟩ := h
    exact ⟨none_read, by simp [none_ended],
      nested.mono (Nat.le_trans (Nat.le_of_lt before) advance)⟩
  | endTagGivenUp => exact ⟨h.1, h.2.2.mono advance⟩
  | endTagEnds inside => exact stands_closeEndTag inside h advance

end Builder

/-! ## Passages -/

/-- **A passage keeps the invariant.** -/
theorem Tokenizer.Passes.stands {v : Vocabulary} {length : Nat} {s s' : Tokenizer}
    {passed : List Token} {b : Builder} (h : s.Passes passed s')
    (first : b.Stands length s.mode s.position) :
    (passed.foldl (Builder.take v length) b).Stands length s'.mode s'.position :=
  h.foldl (P := fun s (b : Builder) => b.Stands length s.mode s.position)
    (fun _ _ some_ahead here => Builder.stands_take v here (Tokenizer.reads some_ahead) rfl
      Tokenizer.position_le_rest (Tokenizer.position_lt_rest some_ahead)) first

/-- **The state after some of the tokens of a text.** -/
theorem Document.stands_built {v : Vocabulary} {t : Text} {s : Tokenizer} {passed : List Token}
    (h : (scanner v t).Passes passed s) :
    (built v t passed).Stands t.byteLength s.mode s.position := by
  refine h.stands ?_
  rw [scanner_eq]
  exact ⟨rfl, Builder.nested_start t.byteLength⟩

end MarkupAnalysis
