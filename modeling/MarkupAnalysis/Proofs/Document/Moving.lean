import MarkupAnalysis.Proofs.Document.Nesting

/-! # Documents of tokens that have moved

Two lists of tokens that differ in offsets, and in the names of some elements, give documents that differ
in just that. The lengths of the two texts do not matter before the texts end: they stand in for the ends
of elements that are still to come.

* **`Node.moved`**, **`Comment.moved`** — nodes and comments with other offsets and names.
* **`Token.Moves`** — tokens with other offsets.
* **`Builder.Moves`** — what the builder makes of such tokens.
* **`Builder.Moves.take`**, **`Builder.Moves.finish`** — one token, and the end of the text. -/

namespace MarkupAnalysis

/-! ## Other offsets -/

section moved

variable (σ : Nat → Nat)

/-- The span between the new places of its ends. -/
def Span.moved (s : Span) : Span := ⟨σ s.start, σ s.stop⟩

/-- The value of an attribute in its new place. -/
def AttributeValue.moved (value : AttributeValue) : AttributeValue :=
  { value with span := value.span.moved σ }

/-- An attribute in its new place. -/
def Attribute.moved (a : Attribute) : Attribute :=
  { a with nameSpan := a.nameSpan.moved σ, value := a.value.map (·.moved σ) }

/-- The name of an element in its new place, and with its new spelling. -/
def TagName.moved (respell : Text → Text) (name : TagName) : TagName :=
  ⟨respell name.text, name.span.moved σ⟩

/-- An end tag in its new place. -/
def EndTag.moved (e : EndTag) : EndTag := ⟨σ e.start, e.nameSpan.moved σ⟩

/-- A comment in its new place. -/
def Comment.moved (c : Comment) : Comment := ⟨c.span.moved σ, c.content.moved σ⟩

/-- **A node in its new place**, and with the new spelling of its name. -/
def Node.moved (respell : Text → Text) (n : Node) : Node :=
  { n with
    start := σ n.start
    stop := σ n.stop
    name := n.name.map (·.moved σ respell)
    startTagEnd := n.startTagEnd.map σ
    endTag := n.endTag.map (·.moved σ)
    attributes := n.attributes.map (·.moved σ) }

end moved

/-- The tag of a node in its new place. -/
theorem Node.tag_moved (σ : Nat → Nat) (respell : Text → Text) (n : Node) :
    (n.moved σ respell).tag = n.tag.map respell := by
  rw [tag, tag, moved, Option.map_map, Option.map_map]
  rfl

/-- Where nothing moves, a node stays as it is. -/
@[simp] theorem Node.moved_id (n : Node) : n.moved id id = n := by
  have same (a : Attribute) : a.moved id = a := by
    cases a
    simp only [Attribute.moved, AttributeValue.moved, Span.moved, id_eq, Option.map_id_fun']
  cases n
  simp only [Node.moved, TagName.moved, EndTag.moved, Span.moved, same, id_eq, Option.map_id_fun',
    Option.map_id_fun, Array.map_id_fun']

/-- A token in its new place. Its text may be another one. -/
structure Token.Moves (σ : Nat → Nat) (token token' : Token) : Prop where
  /-- The kind is the same. -/
  kind : token'.kind = token.kind
  /-- Both ends move. -/
  span : token'.span = token.span.moved σ
  /-- An empty token stays empty, and no other one becomes empty. -/
  isEmpty : token'.span.isEmpty = token.span.isEmpty

namespace Builder

/-! ## Builders -/

/-- What builders of tokens that have moved have in common apart from their nodes. -/
structure Aligned (σ : Nat → Nat) (b b' : Builder) : Prop where
  openElements : b'.openElements = b.openElements
  startTag : b'.startTag = b.startTag
  ended : b'.ended = b.ended
  endTagStart : b'.endTagStart = b.endTagStart.map σ
  comments : b'.comments = b.comments.map (·.moved σ)
  commentStart : b'.commentStart = b.commentStart.map σ
  commentContent : b'.commentContent = b.commentContent.map (·.moved σ)

/-- **Builders of tokens that have moved.** As long as the end of an element is to come, the length of the
text stands for it. -/
structure Moves (σ : Nat → Nat) (respell : NodeId → Text → Text) (b b' : Builder) : Prop extends
    Aligned σ b b' where
  /-- There are as many nodes. -/
  size : b'.nodes.size = b.nodes.size
  /-- All but the end of each node has moved. -/
  node : ∀ id < b.nodes.size, ∃ stop, b'.node id = { (b.node id).moved σ (respell id) with stop }
  /-- The end of each element has moved, if it is not to come. -/
  stop : ∀ id < b.nodes.size, id ≠ Document.root → ¬ b.Pending id →
    (b'.node id).stop = σ (b.node id).stop

variable {σ : Nat → Nat} {respell : NodeId → Text → Text} {b b' c c' : Builder} {id : NodeId}
  {length length' frontier : Nat} {token token' : Token} {v : Vocabulary}

namespace Aligned

theorem modify (h : b.Aligned σ b') (id : NodeId) (change change' : Node → Node) :
    (b.modify id change).Aligned σ (b'.modify id change') :=
  ⟨h.openElements, h.startTag, h.ended, h.endTagStart, h.comments, h.commentStart, h.commentContent⟩

theorem leave (h : b.Aligned σ b') (id : NodeId) : (b.leave id).Aligned σ (b'.leave id) := by
  unfold Builder.leave
  rw [h.openElements]
  split
  · exact ⟨rfl, h.startTag, h.ended, h.endTagStart, h.comments, h.commentStart, h.commentContent⟩
  · exact h

theorem cutOff (h : b.Aligned σ b') (ids : List NodeId) (stop stop' : Nat) :
    (b.cutOff ids stop).Aligned σ (b'.cutOff ids stop') := by
  induction ids generalizing b b' with
  | nil => exact h
  | cons id ids ih => exact ih (h.modify id _ _)

/-- A start tag has been read. -/
theorem endStartTag (h : b.Aligned σ b') :
    { b with startTag := none }.Aligned σ { b' with startTag := none } :=
  ⟨h.openElements, rfl, h.ended, h.endTagStart, h.comments, h.commentStart, h.commentContent⟩

/-- An end tag has closed an element. -/
theorem endElement (h : b.Aligned σ b') (outer : List NodeId) (ended : Option NodeId) :
    { b with openElements := outer, ended }.Aligned σ { b' with openElements := outer, ended } :=
  ⟨rfl, h.startTag, rfl, h.endTagStart, h.comments, h.commentStart, h.commentContent⟩

end Aligned

namespace Moves

/-- What matters of two builders are their nodes and what they have in common. -/
theorem of_nodes (h : b.Moves σ respell b') (aligned : c.Aligned σ c') (nodes : c.nodes = b.nodes)
    (nodes' : c'.nodes = b'.nodes) (pending : ∀ id, b.Pending id → c.Pending id) :
    c.Moves σ respell c' := by
  refine ⟨aligned, ?_, ?_, ?_⟩
  · rw [nodes, nodes']
    exact h.size
  · rw [nodes, node_congr nodes, node_congr nodes']
    exact h.node
  · rw [nodes, node_congr nodes, node_congr nodes']
    exact fun id inside off_root done => h.stop id inside off_root (mt (pending id) done)

/-- **A change of one element** on both sides. -/
theorem modify (h : b.Moves σ respell b') (inside : id < b.nodes.size) {change change' : Node → Node}
    (aligned : c.Aligned σ c') (nodes : c.nodes = (b.modify id change).nodes)
    (nodes' : c'.nodes = (b'.modify id change').nodes)
    (own : ∀ stop, ∃ stop', change' { (b.node id).moved σ (respell id) with stop } =
      { (change (b.node id)).moved σ (respell id) with stop := stop' })
    (ends : ¬ c.Pending id → (change' (b'.node id)).stop = σ (change (b.node id)).stop)
    (pending : ∀ j, j ≠ id → b.Pending j → c.Pending j) : c.Moves σ respell c' := by
  have node : ∀ j, c.node j = if j = id then change (b.node j) else b.node j := by
    intro j
    rw [node_congr nodes]
    exact node_modify inside change j
  have node' : ∀ j, c'.node j = if j = id then change' (b'.node j) else b'.node j := by
    intro j
    rw [node_congr nodes']
    exact node_modify (h.size ▸ inside) change' j
  have size : c.nodes.size = b.nodes.size := by rw [nodes, size_modify]
  refine ⟨aligned, ?size, ?node, ?stop⟩
  case size =>
    rw [size, nodes', size_modify]
    exact h.size
  case node =>
    intro j here
    rw [node, node']
    split
    · rename_i same
      subst same
      obtain ⟨stop, moved⟩ := h.node j inside
      rw [moved]
      exact own stop
    · exact h.node j (size ▸ here)
  case stop =>
    intro j here off_root done
    rw [node, node']
    split
    · rename_i same
      subst same
      exact ends done
    · rename_i other
      exact h.stop j (size ▸ here) off_root (mt (pending j other) done)

/-! ## Start tags -/

/-- A new element. -/
theorem openElement (h : b.Moves σ respell b') (nested : b.Nested length frontier)
    (none_read : b.startTag = none) (start length' : Nat) :
    (b.openElement length start).Moves σ respell (b'.openElement length' (σ start)) := by
  have inside := nested.current_lt_size
  have current : b'.current = b.current := by
    unfold current
    rw [h.openElements]
  have inside' : b'.current < b'.nodes.size := by
    rw [current, h.size]
    exact inside
  refine ⟨?aligned, ?size, ?node, ?stop⟩
  case aligned =>
    refine ⟨?_, ?_, h.ended, h.endTagStart, h.comments, h.commentStart, h.commentContent⟩
    · rw [openElements_openElement, openElements_openElement, h.size, h.openElements]
    · rw [startTag_openElement, startTag_openElement, h.size]
  case size => rw [size_openElement, size_openElement, h.size]
  case node =>
    intro j here
    rw [node_openElement inside, node_openElement inside', current, h.size]
    -- The new element, the one around it, and the others.
    split_ifs with fresh top
    · refine ⟨length', ?_⟩
      simp [opened, current, Node.moved]
    · obtain ⟨stop, moved⟩ := h.node j (top ▸ inside)
      rw [moved]
      exact ⟨stop, rfl⟩
    · exact h.node j ((lt_size_openElement here).resolve_left fresh)
  case stop =>
    intro j here off_root done
    obtain ⟨before, complete⟩ := complete_openElement none_read here done
    rw [stop_openElement inside before, stop_openElement inside' (h.size ▸ before)]
    exact h.stop j before off_root complete

/-- **A change in the start tag** that is being read: the start tag goes on, or the element gets its end
or is left. -/
theorem editStartTag (h : b.Moves σ respell b') (nested : b.Nested length frontier)
    (reading : b.startTag = some id) {change change' : Node → Node} (aligned : c.Aligned σ c')
    (nodes : c.nodes = (b.modify id change).nodes) (nodes' : c'.nodes = (b'.modify id change').nodes)
    (own : ∀ stop, ∃ stop', change' { (b.node id).moved σ (respell id) with stop } =
      { (change (b.node id)).moved σ (respell id) with stop := stop' })
    (ends : c.startTag = some id ∨ ∀ n n', (change' n').stop = σ (change n).stop)
    (stack : c.openElements = b.openElements ∨ c.openElements = (b.leave id).openElements) :
    c.Moves σ respell c' := by
  refine h.modify (nested.reading id reading).1 aligned nodes nodes' own ?_ ?_
  · intro done
    -- While the start tag is still being read, the end of its element is to come.
    rcases ends with still_read | ends
    · exact absurd (.inr still_read) done
    · exact ends _ _
  · rintro j other (mem | same)
    · exact .inl (Nested.mem_of_stack stack mem other)
    · exact absurd (Option.some.inj (same.symm.trans reading)) other

/-- The name of a start tag, which may be spelled in another way. -/
theorem nameElement (h : b.Moves σ respell b') (nested : b.Nested length frontier)
    (moves : token.Moves σ token')
    (name : ∀ id, b.startTag = some id → token'.text = respell id token.text)
    (void : v.isVoid token'.text = v.isVoid token.text) :
    (b.nameElement v token).Moves σ respell (b'.nameElement v token') := by
  unfold Builder.nameElement
  rw [h.startTag]
  cases reading : b.startTag with
  | none => exact h
  | some id =>
    have own (stop : Nat) : ∃ stop',
        ({ (b.node id).moved σ (respell id) with
            stop
            name := some ⟨token'.text, token'.span⟩
            closed := (b.node id).closed || v.isVoid token'.text } : Node) =
          { { b.node id with
                name := some ⟨token.text, token.span⟩
                closed := (b.node id).closed || v.isVoid token.text }.moved σ (respell id) with
            stop := stop' } := by
      rw [void, moves.span, name id reading]
      exact ⟨stop, rfl⟩
    dsimp only
    -- Both names are void or neither is, so that the element is left on both sides or on neither.
    rw [void] at *
    split
    · exact h.editStartTag nested reading ((h.toAligned.modify id _ _).leave id) (nodes_leave _)
        (nodes_leave _) own (.inl ((startTag_leave _).trans reading)) (.inr (openElements_leave_congr rfl))
    · exact h.editStartTag nested reading (h.toAligned.modify id _ _) rfl rfl own (.inl reading) (.inl rfl)

/-- The name of an attribute. -/
theorem addAttribute (h : b.Moves σ respell b') (nested : b.Nested length frontier)
    (moves : token.Moves σ token') (text : token'.text = token.text) :
    (b.addAttribute token).Moves σ respell (b'.addAttribute token') := by
  unfold Builder.addAttribute
  rw [h.startTag]
  cases reading : b.startTag with
  | none => exact h
  | some id =>
    refine h.editStartTag nested reading (h.toAligned.modify id _ _) rfl rfl ?_ (.inl reading) (.inl rfl)
    intro stop
    refine ⟨stop, ?_⟩
    simp only [Node.moved, Attribute.moved, Array.map_push, text, moves.span, Option.map_none]

/-- A change of one entry, before or after a change of all entries. -/
theorem modify_map {α β : Type} {f : α → β} {change : α → α} {change' : β → β}
    (comm : ∀ a, change' (f a) = f (change a)) (entries : Array α) (i : Nat) :
    (entries.map f).modify i change' = (entries.modify i change).map f := by
  apply Array.ext_getElem?
  intro j
  rw [Array.getElem?_map, Array.getElem?_modify, Array.getElem?_modify, Array.getElem?_map]
  split
  · cases entries[j]? with
    | none => rfl
    | some a => exact congrArg some (comm a)
  · rfl

/-- The value of an attribute. -/
theorem addValue (h : b.Moves σ respell b') (nested : b.Nested length frontier)
    (moves : token.Moves σ token') (text : token'.text = token.text) :
    (b.addValue token).Moves σ respell (b'.addValue token') := by
  have given (a : Attribute) :
      giveValue token' (a.moved σ) = (giveValue token a).moved σ := by
    unfold giveValue
    rw [text, moves.span]
    simp only [Attribute.moved]
    cases a.value <;> rfl
  unfold Builder.addValue
  rw [h.startTag]
  cases reading : b.startTag with
  | none => exact h
  | some id =>
    refine h.editStartTag nested reading (h.toAligned.modify id _ _) rfl rfl ?_ (.inl reading) (.inl rfl)
    intro stop
    refine ⟨stop, ?_⟩
    simp only [Node.moved, Array.size_map, modify_map given]

/-- The `>` of a start tag, or its interruption. -/
theorem closeStartTag (h : b.Moves σ respell b') (nested : b.Nested length frontier)
    (moves : token.Moves σ token') :
    (b.closeStartTag token).Moves σ respell (b'.closeStartTag token') := by
  unfold Builder.closeStartTag
  rw [h.startTag]
  cases reading : b.startTag with
  | none => exact h
  | some id =>
    have inside := (nested.reading id reading).1
    have aligned := h.toAligned.endStartTag
    have stop : token'.span.stop = σ token.span.stop := by
      rw [moves.span]
      rfl
    -- Both sides take the same branch: a token is empty or an element has no name on both or on neither.
    have nameless : b'.nodes[id]?.any (·.name.isNone) = b.nodes[id]?.any (·.name.isNone) := by
      rw [Bool.eq_iff_iff, nameless_iff inside, nameless_iff (h.size ▸ inside)]
      obtain ⟨stop, moved⟩ := h.node id inside
      rw [moved]
      exact Option.map_eq_none_iff
    dsimp only
    rw [moves.isEmpty, nameless, stop]
    split_ifs
    · exact h.editStartTag nested reading ((aligned.modify id _ _).leave id) (nodes_leave _)
        (nodes_leave _) (fun _ => ⟨_, rfl⟩) (.inr fun _ _ => rfl) (.inr (openElements_leave_congr rfl))
    · exact h.editStartTag nested reading ((aligned.modify id _ _).leave id) (nodes_leave _)
        (nodes_leave _) (fun _ => ⟨_, rfl⟩) (.inr fun _ _ => rfl) (.inr (openElements_leave_congr rfl))
    · exact h.editStartTag nested reading (aligned.modify id _ _) rfl rfl (fun _ => ⟨_, rfl⟩)
        (.inr fun _ _ => rfl) (.inl rfl)

/-- The `/>` of a start tag. -/
theorem selfCloseElement (h : b.Moves σ respell b') (nested : b.Nested length frontier) (stop : Nat) :
    (b.selfCloseElement stop).Moves σ respell (b'.selfCloseElement (σ stop)) := by
  unfold Builder.selfCloseElement
  rw [h.startTag]
  cases reading : b.startTag with
  | none => exact h
  | some id =>
    exact h.editStartTag nested reading ((h.toAligned.endStartTag.modify id _ _).leave id)
      (nodes_leave _) (nodes_leave _) (fun _ => ⟨_, rfl⟩) (.inr fun _ _ => rfl)
      (.inr (openElements_leave_congr rfl))

/-! ## End tags -/

/-- An end tag opens. -/
theorem openEndTag (h : b.Moves σ respell b') (none_read : b.startTag = none) (start : Nat) :
    (b.openEndTag start).Moves σ respell (b'.openEndTag (σ start)) := by
  refine h.of_nodes ?_ rfl rfl ?_
  · exact ⟨h.openElements, rfl, rfl, rfl, h.comments, h.commentStart, h.commentContent⟩
  · rintro id (mem | reading)
    · exact .inl mem
    · exact absurd (none_read.symm.trans reading) (by simp)

/-- An end tag closes an element. -/
theorem closeElement {inner outer : List NodeId} (h : b.Moves σ respell b')
    (nested : b.Nested length frontier) (none_read : b.startTag = none) (moves : token.Moves σ token')
    (split : b.openElements = inner ++ id :: outer) (start : Nat) :
    Moves σ respell
      { (b.cutOff inner start).modify id (closeWith start token.span) with
        openElements := outer, ended := some id }
      { (b'.cutOff inner (σ start)).modify id (closeWith (σ start) token'.span) with
        openElements := outer, ended := some id } := by
  have known : ∀ i ∈ inner, i < b.nodes.size := fun i mem => nested.lt_size (by simp [split, mem])
  have inside : id < b.nodes.size := nested.lt_size (by simp [split])
  have apart := (nested.split_apart split).1
  have node := @node_closeWith b start token.span id inner known inside apart
  have node' := @node_closeWith b' (σ start) token'.span id inner
    (fun i mem => h.size ▸ known i mem) (h.size ▸ inside) apart
  refine ⟨((h.toAligned.cutOff inner _ _).modify id _ _).endElement outer _, ?size, ?node, ?stop⟩
  case size =>
    show ((b'.cutOff inner _).modify id _).nodes.size = ((b.cutOff inner _).modify id _).nodes.size
    rw [size_modify, size_modify, size_cutOff, size_cutOff]
    exact h.size
  case node =>
    intro j here
    have before : j < b.nodes.size := by simpa using here
    obtain ⟨stop, moved⟩ := h.node j before
    show ∃ stop, ((b'.cutOff inner _).modify id _).node j =
      { (((b.cutOff inner _).modify id _).node j).moved σ (respell j) with stop }
    rw [node, node', moved, moves.span]
    split_ifs
    · exact ⟨_, rfl⟩
    · exact ⟨_, rfl⟩
    · exact ⟨stop, rfl⟩
  case stop =>
    intro j here off_root done
    have before : j < b.nodes.size := by simpa using here
    show (((b'.cutOff inner _).modify id _).node j).stop =
      σ (((b.cutOff inner _).modify id _).node j).stop
    rw [node, node', moves.span]
    split_ifs with same in_inner
    · rfl
    · rfl
    · refine h.stop j before off_root ?_
      -- What is still open was open before.
      rintro (mem | reading)
      · rw [split] at mem
        rcases List.mem_append.mp mem with inside | outside
        · exact in_inner inside
        · exact done (.inl ((List.mem_cons.mp outside).resolve_left same))
      · exact absurd (none_read.symm.trans reading) (by simp)

/-- **The name of an end tag**, if the same element answers to it on both sides. -/
theorem endElement (h : b.Moves σ respell b') (nested : b.Nested length frontier)
    (none_read : b.startTag = none) (moves : token.Moves σ token')
    (closes : ∀ inner id outer, b.Closes v token inner id outer → b'.Closes v token' inner id outer)
    (stray : (∀ i ∈ b.openElements, ¬ b.Answers v token i) →
      ∀ i ∈ b.openElements, ¬ b'.Answers v token' i) :
    (b.endElement v token).Moves σ respell (b'.endElement v token') := by
  cases opening : b.endTagStart with
  | none =>
    have opening' : b'.endTagStart = none := by rw [h.endTagStart, opening, Option.map_none]
    have same : b.endElement v token = b := by simp only [Builder.endElement, opening]
    have same' : b'.endElement v token' = b' := by simp only [Builder.endElement, opening']
    rw [same, same']
    exact h
  | some start =>
    have opening' : b'.endTagStart = some (σ start) := by rw [h.endTagStart, opening, Option.map_some]
    by_cases some_answers : ∃ i ∈ b.openElements, b.Answers v token i
    · obtain ⟨inner, id, outer, here⟩ := exists_closes some_answers
      have here' := closes inner id outer here
      rw [endElement_of_closes opening here, endElement_of_closes opening' here']
      exact h.closeElement nested none_read moves here.split start
    · have none_answers : ∀ i ∈ b.openElements, ¬ b.Answers v token i :=
        fun i mem answers => some_answers ⟨i, mem, answers⟩
      rw [endElement_of_stray none_answers, endElement_of_stray]
      · exact h
      · rw [h.openElements]
        exact stray none_answers

/-- The bracket of an end tag. -/
theorem closeEndTag (h : b.Moves σ respell b') (known : ∀ id, b.ended = some id → b.JustEnded id)
    (stop : Nat) : (b.closeEndTag stop).Moves σ respell (b'.closeEndTag (σ stop)) := by
  unfold Builder.closeEndTag
  rw [h.ended]
  cases ended : b.ended with
  | none => exact h
  | some id =>
    refine h.modify (known id ended).inside ?_ rfl rfl (fun _ => ⟨_, rfl⟩) (fun _ => rfl)
      (fun _ _ pending => pending)
    exact ⟨h.openElements, h.startTag, rfl, h.endTagStart, h.comments, h.commentStart, h.commentContent⟩

/-! ## Comments -/

/-- A comment ends, or the text does. -/
theorem endComment (h : b.Moves σ respell b') (contentStop stop : Nat) :
    (b.endComment contentStop stop).Moves σ respell (b'.endComment (σ contentStop) (σ stop)) := by
  refine h.of_nodes ?_ (nodes_endComment _ _) (nodes_endComment _ _) ?_
  · unfold Builder.endComment
    rw [h.commentStart]
    cases opening : b.commentStart with
    | none => exact h.toAligned
    | some start =>
      refine ⟨h.openElements, h.startTag, h.ended, h.endTagStart, ?_, rfl, rfl⟩
      dsimp only [Option.map_some]
      rw [h.comments, h.commentContent, Array.map_push]
      cases b.commentContent <;> rfl
  · intro id pending
    rw [Pending, openElements_endComment, startTag_endComment]
    exact pending

/-! ## Every token -/

/-- The tags differ in their spelling only. -/
theorem tag_eq (h : b.Moves σ respell b') (inside : id < b.nodes.size) :
    (b'.node id).tag = (b.node id).tag.map (respell id) := by
  obtain ⟨stop, moved⟩ := h.node id inside
  rw [moved]
  exact (b.node id).tag_moved σ (respell id)

/-- **The spelling of names** on both sides of a token. -/
structure Spells (v : Vocabulary) (respell : NodeId → Text → Text) (b b' : Builder)
    (token token' : Token) : Prop where
  /-- The name of a start tag is spelled as the name of its element. -/
  startTag : token.kind = .startTag →
    (∀ id, b.startTag = some id → token'.text = respell id token.text) ∧
      v.isVoid token'.text = v.isVoid token.text
  /-- To the name of an end tag the same element answers. -/
  endTag : token.kind = .endTag →
    (∀ inner id outer, b.Closes v token inner id outer → b'.Closes v token' inner id outer) ∧
      ((∀ i ∈ b.openElements, ¬ b.Answers v token i) →
        ∀ i ∈ b.openElements, ¬ b'.Answers v token' i)
  /-- Attributes are spelled as they were. -/
  attributes : token.kind = .attributeName ∨ token.kind = .attributeValue → token'.text = token.text

/-- Where no tag is spelled in another way, the same elements answer to a name. -/
theorem spells_same (h : b.Moves σ (fun _ tag => tag) b') (nested : b.Nested length frontier)
    (text : token'.text = token.text) : Spells v (fun _ tag => tag) b b' token token' := by
  have answers_iff : ∀ i ∈ b.openElements, b'.Answers v token' i ↔ b.Answers v token i := by
    intro i mem
    rw [Answers, Answers, h.tag_eq (nested.lt_size mem), Option.map_id_fun', id_eq, text]
  refine ⟨fun _ => ⟨fun _ _ => text, by rw [text]⟩, fun _ => ⟨?_, ?_⟩, fun _ => text⟩
  · intro inner id outer closes
    have still_open : ∀ i ∈ inner ++ id :: outer, i ∈ b.openElements := fun i mem => closes.split ▸ mem
    refine ⟨h.openElements.trans closes.split, fun i mem => ?_, ?_⟩
    · rw [answers_iff i (still_open i (List.mem_append_left _ mem))]
      exact closes.passed i mem
    · rw [answers_iff id (still_open id (by simp))]
      exact closes.answers
  · intro stray i mem
    rw [answers_iff i mem]
    exact stray i mem

/-- **Every token** of one text, and the token that it has become in the other one. -/
theorem take {m m' : Mode} {position : Nat} (h : b.Moves σ respell b')
    (stands : b.Stands length m position) (reads : m.Reads token.kind m')
    (moves : token.Moves σ token') (spells : Spells v respell b b' token token') (length' : Nat) :
    (b.take v length token).Moves σ respell (b'.take v length' token') := by
  obtain ⟨frontier, -, nested⟩ := stands.exists_nested
  obtain ⟨start, stop⟩ : token'.span.start = σ token.span.start ∧
      token'.span.stop = σ token.span.stop := by
    rw [moves.span]
    exact ⟨rfl, rfl⟩
  -- Tokens of comments change no element.
  have same_nodes {c c' : Builder} (aligned : c.Aligned σ c') (nodes : c.nodes = b.nodes)
      (nodes' : c'.nodes = b'.nodes) (stack : c.openElements = b.openElements)
      (startTag : c.startTag = b.startTag) : c.Moves σ respell c' := by
    refine h.of_nodes aligned nodes nodes' fun id pending => ?_
    rwa [Pending, stack, startTag]
  unfold Builder.take
  rw [moves.kind, start, stop]
  generalize kind : token.kind = k at reads
  cases reads with
  | text | declarationOpens | body | declarationText | declarationEnds | startTagBlank
  | startTagJunk | assignment | endTagBlank | endTagJunk | endTagGivenUp =>
    exact h
  | commentOpens =>
    exact same_nodes ⟨h.openElements, h.startTag, h.ended, h.endTagStart, h.comments, rfl, rfl⟩ rfl rfl
      rfl rfl
  | commentText =>
    refine same_nodes ⟨h.openElements, h.startTag, h.ended, h.endTagStart, h.comments, h.commentStart,
      ?_⟩ rfl rfl rfl rfl
    exact congrArg some moves.span
  | commentEnds => exact h.endComment _ _
  | startTagOpens outside =>
    exact h.openElement nested ((stands_of_betweenTags outside position).mp stands).1 _ length'
  | startTagName =>
    obtain ⟨name, void⟩ := spells.startTag kind
    exact h.nameElement nested moves name void
  | attributeOpens => exact h.addAttribute nested moves (spells.attributes (.inl kind))
  | value => exact h.addValue nested moves (spells.attributes (.inr kind))
  | startTagEnds | startTagEndsBeforeBody => exact h.closeStartTag nested moves
  | elementEnds => exact h.selfCloseElement nested _
  | endTagOpens outside =>
    exact h.openEndTag ((stands_of_betweenTags outside position).mp stands).1 _
  | endTagName =>
    obtain ⟨closes, stray⟩ := spells.endTag kind
    exact h.endElement nested stands.1 moves closes stray
  | endTagEnds inside =>
    refine h.closeEndTag ?_ _
    cases m with
    | endTagOpened => simp [stands.2.1]
    | endTag => exact stands.2.1
    | _ => simp [Mode.inEndTag] at inside

/-! ## The end of the text -/

/-- **At the end of the text** all nodes have moved, with the ends of the elements that were open. -/
theorem finish (h : b.Moves σ respell b') (nested : b.Nested length frontier) {frontier' : Nat}
    (nested' : b'.Nested (σ length) frontier') :
    ∀ id < b.nodes.size, (b'.cutOff b'.openElements (σ length)).node id =
      ((b.cutOff b.openElements length).node id).moved σ (respell id) := by
  intro id inside
  obtain ⟨stop, moved⟩ := h.node id inside
  rw [node_cutOff fun _ => nested.lt_size, node_cutOff fun _ => nested'.lt_size, h.openElements]
  split
  · rw [moved]
    rfl
  · rename_i not_open
    have same_stop : (b'.node id).stop = σ (b.node id).stop := by
      by_cases top : id = Document.root
      · rw [top, nested.root.2.2.2.2, nested'.root.2.2.2.2]
      · by_cases reading : b.startTag = some id
        · rw [(nested.reading id reading).2.2.2.2.2.1,
            (nested'.reading id (h.startTag.trans reading)).2.2.2.2.2.1]
        · exact h.stop id inside top (not_or.mpr ⟨not_open, reading⟩)
    rw [moved] at same_stop ⊢
    rw [show stop = σ (b.node id).stop from same_stop]
    rfl

end Moves

/-- Before the first token there is the root alone, and its end does not matter. -/
theorem moves_start (length length' : Nat) (zero : σ 0 = 0) :
    (Builder.start length).Moves σ respell (Builder.start length') := by
  refine ⟨⟨rfl, rfl, rfl, rfl, ?_, rfl, rfl⟩, rfl, ?_, ?_⟩
  · simp [Builder.start]
  · intro id inside
    obtain rfl := Nat.lt_one_iff.mp inside
    exact ⟨length', by simp [Builder.start, node, Node.moved, zero]⟩
  · intro id inside off_root
    exact absurd (Nat.lt_one_iff.mp inside) off_root

end Builder

end MarkupAnalysis
