import MarkupAnalysis.Proofs.Document.Order
import MarkupAnalysis.Proofs.Document.Recovery

/-! # Marks of elements

What the fields of an element say about each other: whether it is closed, whether it may have an end tag,
and whether it may have children.

* **`Node.isVoid`** — the element's tag is a void one.
* **`Node.Marked`** — the fields of an element fit together.
* **`Builder.Marked`**, **`Builder.marked_take`** — they do so between two tokens, whatever comes next.
* **`Document.Marks`**, **`parse_marks`** — they do so in every tree, and `unclosed` lists what it should. -/

namespace MarkupAnalysis

/-! ## The fields of an element -/

namespace Node

/-- Whether the element has a void tag. -/
def isVoid (v : Vocabulary) (n : Node) : Bool := n.tag.any v.isVoid

/-- **The fields of an element fit together.** -/
structure Marked (v : Vocabulary) (n : Node) : Prop where
  /-- An element is closed by its void tag, by its `/>` or by an end tag. -/
  closed : n.closed = true ↔ n.isVoid v = true ∨ n.selfClosing = true ∨ n.endTag.isSome
  /-- An element with an end tag has a complete start tag, which leaves room for content. -/
  endTag : n.endTag.isSome → n.startTagEnd.isSome ∧ n.isVoid v = false ∧ n.selfClosing = false
  /-- An element without room for content has no children. -/
  childless : n.isVoid v = true ∨ n.selfClosing = true ∨ n.name = none ∨ n.startTagEnd = none →
    n.children = #[]

variable {v : Vocabulary} {n : Node}

/-- What is not closed is neither void nor self-closing. -/
theorem Marked.not_void (h : n.Marked v) (open_element : n.closed = false) :
    n.isVoid v = false ∧ n.selfClosing = false := by
  have := mt h.closed.mpr (by simp [open_element])
  simp only [not_or, Bool.not_eq_true] at this
  exact ⟨this.1, this.2.1⟩

end Node

/-! ## Between two tokens -/

namespace Builder

variable {v : Vocabulary} {b b' : Builder} {m m' : Mode} {length frontier : Nat} {id : NodeId}

/-- **The marks between two tokens**, by the mode that the next one is read in. -/
structure Marked (v : Vocabulary) (m : Mode) (b : Builder) : Prop where
  /-- The fields of all elements fit together. -/
  nodes : ∀ id < b.nodes.size, id ≠ Document.root → (b.node id).Marked v
  /-- Open elements have a name, but for the one whose start tag is being read. -/
  named : ∀ id ∈ b.openElements, b.startTag ≠ some id → (b.node id).name ≠ none
  /-- The element whose start tag is being read is not self-closing, and it has no name before the name
  has been read. -/
  reading : ∀ id, b.startTag = some id →
    (b.node id).selfClosing = false ∧ (m = .startTagOpened → (b.node id).name = none)

namespace Marked

/-- Only the nodes, the stack and the start tag matter. -/
theorem move (h : b.Marked v m) (nodes : b'.nodes = b.nodes)
    (stack : b'.openElements = b.openElements) (startTag : b'.startTag = b.startTag)
    (mode : m' = .startTagOpened → m = .startTagOpened) : b'.Marked v m' := by
  have node : b'.node = b.node := node_congr nodes
  refine ⟨?_, ?_, ?_⟩
  · rw [nodes, node]
    exact h.nodes
  · rw [stack, startTag, node]
    exact h.named
  · rw [startTag, node]
    exact fun id reading => ⟨(h.reading id reading).1, fun opened => (h.reading id reading).2 (mode opened)⟩

/-- **A change of one element**, after which its fields fit together. -/
theorem modify (h : b.Marked v m) {change : Node → Node} (inside : id < b.nodes.size)
    (nodes : b'.nodes = (b.modify id change).nodes)
    (own : (b.node id).Marked v → (change (b.node id)).Marked v)
    (stack : b'.openElements ⊆ b.openElements)
    (startTag : b'.startTag = b.startTag ∨ b'.startTag = none ∧ b.startTag = some id)
    (stays : id ∈ b'.openElements → b'.startTag ≠ some id → (change (b.node id)).name ≠ none)
    (still : b'.startTag = some id → (change (b.node id)).selfClosing = false)
    (mode : m' ≠ .startTagOpened) : b'.Marked v m' := by
  have node' (j : NodeId) : b'.node j = if j = id then change (b.node j) else b.node j := by
    rw [node_congr nodes]
    exact node_modify inside change j
  refine ⟨?nodes, ?named, ?reading⟩
  case nodes =>
    intro j here off_root
    rw [nodes, size_modify] at here
    rw [node']
    split
    · rename_i same
      subst same
      exact own (h.nodes j here off_root)
    · exact h.nodes j here off_root
  case named =>
    intro j mem other
    rw [node']
    split
    · rename_i same
      subst same
      exact stays mem other
    · rename_i apart
      refine h.named j (stack mem) ?_
      rcases startTag with same | ⟨-, reading⟩
      · rwa [← same]
      · rw [reading]
        exact fun same => apart (Option.some.inj same).symm
  case reading =>
    intro j here
    refine ⟨?_, fun opened => absurd opened mode⟩
    rw [node']
    split
    · rename_i same
      subst same
      exact still here
    · rcases startTag with same | ⟨none_read, -⟩
      · exact (h.reading j (same ▸ here)).1
      · rw [none_read] at here
        cases here

/-- A new element. -/
theorem openElement (h : b.Marked v m) (nested : b.Nested length frontier)
    (none_read : b.startTag = none) (start : Nat) :
    (b.openElement length start).Marked v .startTagOpened := by
  have inside := nested.current_lt_size
  refine ⟨?nodes, ?named, ?reading⟩
  case nodes =>
    intro j here off_root
    rw [node_openElement inside]
    split_ifs with fresh top
    · exact ⟨by simp [opened, Node.isVoid, Node.tag], by simp [opened], fun _ => rfl⟩
    · subst top
      have mem := Nested.current_mem off_root
      have known := h.nodes b.current inside off_root
      -- The innermost open element has room for content.
      obtain ⟨e, ends, -⟩ := nested.openTag _ mem (by simp [none_read])
      have named := h.named _ mem (by simp [none_read])
      obtain ⟨not_void, not_selfClosing⟩ := known.not_void (nested.unclosed _ mem).2
      refine ⟨known.closed, known.endTag, fun no_room => ?_⟩
      rcases no_room with void | selfClosing | nameless | unfinished
      · exact absurd (not_void.symm.trans void) (by simp)
      · exact absurd (not_selfClosing.symm.trans selfClosing) (by simp)
      · exact absurd nameless named
      · exact absurd (ends.symm.trans unfinished) (by simp)
    · exact h.nodes j ((lt_size_openElement here).resolve_left fresh) off_root
  case named =>
    intro j mem other
    have before : j ∈ b.openElements := by
      rcases List.mem_cons.mp mem with rfl | before
      · exact absurd rfl other
      · exact before
    obtain ⟨_, same⟩ := exists_node_openElement length start inside (nested.lt_size before)
    rw [same]
    exact h.named j before (by simp [none_read])
  case reading =>
    intro j here
    obtain rfl : b.nodes.size = j := Option.some.inj here
    rw [node_openElement_size inside]
    exact ⟨rfl, fun _ => rfl⟩

/-- The name of the start tag. -/
theorem nameElement (h : b.Marked v .startTagOpened) (nested : b.Nested length frontier)
    (token : Token) : (b.nameElement v token).Marked v .startTag := by
  unfold Builder.nameElement
  cases reading : b.startTag with
  | none => exact h.move rfl rfl rfl (by simp)
  | some id =>
    obtain ⟨inside, -, -, -, no_endTag, -, childless⟩ := nested.reading id reading
    obtain ⟨not_selfClosing, nameless⟩ := h.reading id reading
    have own (known : (b.node id).Marked v) :
        Node.Marked v { b.node id with
          name := some ⟨token.text, token.span⟩
          closed := (b.node id).closed || v.isVoid token.text } := by
      -- Before its name an element is not closed.
      have not_closed : (b.node id).closed = false := by
        rw [← Bool.not_eq_true, known.closed]
        simp [Node.isVoid, Node.tag, nameless rfl, not_selfClosing, no_endTag]
      refine ⟨?_, ?_, fun _ => childless⟩
      · simp [not_closed, Node.isVoid, Node.tag, not_selfClosing, no_endTag]
      · simp [no_endTag]
    dsimp only
    split
    · refine h.modify inside (nodes_leave _) own (leave_suffix _ id).subset
        (.inl (startTag_leave _)) ?_ ?_ (by simp)
      · exact fun _ _ => by simp
      · exact fun _ => not_selfClosing
    · refine h.modify inside rfl own (List.Subset.refl _) (.inl rfl) ?_ ?_ (by simp)
      · exact fun _ _ => by simp
      · exact fun _ => not_selfClosing

/-- A change of the attributes of the start tag. -/
theorem attributes (h : b.Marked v m) (nested : b.Nested length frontier) (reading : b.startTag = some id)
    {change : Node → Node} (marks : ∀ n : Node, n.Marked v → (change n).Marked v)
    (selfClosing : ∀ n, (change n).selfClosing = n.selfClosing) (mode : m' ≠ .startTagOpened) :
    (b.modify id change).Marked v m' := by
  obtain ⟨inside, -⟩ := nested.reading id reading
  refine h.modify inside rfl (marks _) (List.Subset.refl _) (.inl rfl) ?_ ?_ mode
  · exact fun _ other => absurd reading other
  · intro _
    rw [selfClosing]
    exact (h.reading id reading).1

theorem addAttribute (h : b.Marked v m) (nested : b.Nested length frontier) (token : Token)
    (mode : m' ≠ .startTagOpened) : (b.addAttribute token).Marked v m' := by
  unfold Builder.addAttribute
  cases reading : b.startTag with
  | none => exact h.move rfl rfl rfl fun opened => absurd opened mode
  | some id =>
    exact h.attributes nested reading (fun _ known => ⟨known.closed, known.endTag, known.childless⟩)
      (fun _ => rfl) mode

theorem addValue (h : b.Marked v m) (nested : b.Nested length frontier) (token : Token)
    (mode : m' ≠ .startTagOpened) : (b.addValue token).Marked v m' := by
  unfold Builder.addValue
  cases reading : b.startTag with
  | none => exact h.move rfl rfl rfl fun opened => absurd opened mode
  | some id =>
    exact h.attributes nested reading (fun _ known => ⟨known.closed, known.endTag, known.childless⟩)
      (fun _ => rfl) mode

/-- **The end of a start tag.** The element leaves the stack unless it has a name. -/
theorem finishStartTag (h : b.Marked v m) (nested : b.Nested length frontier)
    (reading : b.startTag = some id) {change : Node → Node}
    (nodes : b'.nodes = (b.modify id change).nodes) (startTag : b'.startTag = none)
    (own : (b.node id).Marked v → (b.node id).endTag = none → (b.node id).children = #[] →
      (change (b.node id)).Marked v)
    (stack : b'.openElements = (b.leave id).openElements ∨
      b'.openElements = b.openElements ∧ (change (b.node id)).name ≠ none)
    (mode : m' ≠ .startTagOpened) : b'.Marked v m' := by
  obtain ⟨inside, -, -, -, no_endTag, -, childless⟩ := nested.reading id reading
  refine h.modify inside nodes (fun known => own known no_endTag childless) ?_
    (.inr ⟨startTag, reading⟩) ?_ (by simp [startTag]) mode
  · rcases stack with left | ⟨stays, -⟩
    · exact left ▸ (leave_suffix b id).subset
    · exact stays ▸ List.Subset.refl _
  · intro mem _
    rcases stack with left | ⟨-, named⟩
    · exact absurd mem (nested.not_mem_of_left reading left)
    · exact named

/-- The `>` of a start tag, or its interruption. -/
theorem closeStartTag (h : b.Marked v m) (nested : b.Nested length frontier) (token : Token)
    (mode : m' ≠ .startTagOpened) : (b.closeStartTag token).Marked v m' := by
  unfold Builder.closeStartTag
  cases reading : b.startTag with
  | none => exact h.move rfl rfl rfl fun opened => absurd opened mode
  | some id =>
    obtain ⟨inside, -⟩ := nested.reading id reading
    dsimp only
    split_ifs with interrupted nameless
    · exact h.finishStartTag nested reading (nodes_leave _) (startTag_leave _)
        (fun known _ _ => ⟨known.closed, known.endTag, known.childless⟩)
        (.inl (openElements_leave_congr rfl)) mode
    · exact h.finishStartTag nested reading (nodes_leave _) (startTag_leave _)
        (fun known no_endTag childless => ⟨known.closed, by simp [no_endTag], fun _ => childless⟩)
        (.inl (openElements_leave_congr rfl)) mode
    · exact h.finishStartTag nested reading rfl rfl
        (fun known no_endTag childless => ⟨known.closed, by simp [no_endTag], fun _ => childless⟩)
        (.inr ⟨rfl, mt (nameless_iff inside).mpr nameless⟩) mode

/-- The `/>` of a start tag. -/
theorem selfCloseElement (h : b.Marked v m) (nested : b.Nested length frontier) (stop : Nat)
    (mode : m' ≠ .startTagOpened) : (b.selfCloseElement stop).Marked v m' := by
  unfold Builder.selfCloseElement
  cases reading : b.startTag with
  | none => exact h.move rfl rfl rfl fun opened => absurd opened mode
  | some id =>
    exact h.finishStartTag nested reading (nodes_leave _) (startTag_leave _)
      (fun _ no_endTag childless => ⟨by simp, by simp [no_endTag], fun _ => childless⟩)
      (.inl (openElements_leave_congr rfl)) mode

/-- An open element that is cut off keeps its marks: it was not closed before. -/
theorem cut (h : b.Marked v m) (nested : b.Nested length frontier) (mem : id ∈ b.openElements)
    (stop : Nat) : (Builder.cut stop (b.node id)).Marked v := by
  have known := h.nodes id (nested.lt_size mem) (nested.ne_root mem)
  have not_closed := (nested.unclosed id mem).2
  refine ⟨?_, known.endTag, known.childless⟩
  have same : (Builder.cut stop (b.node id)).closed = (b.node id).closed := not_closed.symm
  rw [same]
  exact known.closed

/-- The name of an end tag. -/
theorem endElement (h : b.Marked v m) (nested : b.Nested length frontier)
    (none_read : b.startTag = none) (token : Token) (mode : m' ≠ .startTagOpened) :
    (b.endElement v token).Marked v m' := by
  rcases endElement_cases v b token with stray | ⟨start, inner, id, outer, -, closes, taken⟩
  · rw [stray]
    exact h.move rfl rfl rfl fun opened => absurd opened mode
  · have still_open : ∀ i ∈ inner, i ∈ b.openElements := fun i mem => by simp [closes.split, mem]
    have id_open : id ∈ b.openElements := by simp [closes.split]
    have startTag : (b.endElement v token).startTag = none := by
      rw [taken]
      exact (startTag_cutOff _ _).trans none_read
    have node' (j : NodeId) : (b.endElement v token).node j =
        if j = id then closeWith start token.span (b.node j)
        else if j ∈ inner then Builder.cut start (b.node j) else b.node j := by
      rw [taken]
      exact node_closeWith (fun i mem => nested.lt_size (still_open i mem)) (nested.lt_size id_open)
        (nested.split_apart closes.split).1 j
    refine ⟨?nodes, ?named, by simp [startTag]⟩
    case nodes =>
      intro j here off_root
      have before : j < b.nodes.size := by simpa [taken] using here
      rw [node']
      split_ifs with same in_inner
      · subst same
        -- The element that is closed had a complete start tag and a name.
        obtain ⟨e, ends, -⟩ := nested.openTag j id_open (by simp [none_read])
        have named := h.named j id_open (by simp [none_read])
        obtain ⟨not_void, not_selfClosing⟩ :=
          (h.nodes j before off_root).not_void (nested.unclosed j id_open).2
        have same_void : (closeWith start token.span (b.node j)).isVoid v = false := not_void
        refine ⟨by simp [closeWith], ?_, ?_⟩
        · exact fun _ => ⟨by simp [closeWith, ends], same_void, not_selfClosing⟩
        · rintro (void | selfClosing | nameless | unfinished)
          · exact absurd (same_void.symm.trans void) (by simp)
          · exact absurd (not_selfClosing.symm.trans selfClosing) (by simp)
          · exact absurd nameless named
          · exact absurd (ends.symm.trans unfinished) (by simp)
      · exact h.cut nested (still_open j in_inner) start
      · exact h.nodes j before off_root
    case named =>
      intro j mem _
      have before : j ∈ b.openElements := by
        rw [taken] at mem
        rw [closes.split]
        exact List.mem_append_right _ (List.mem_cons_of_mem _ mem)
      have name : ((b.endElement v token).node j).name = (b.node j).name := by
        rw [node']
        split_ifs <;> rfl
      rw [name]
      exact h.named j before (by simp [none_read])

/-- The bracket of an end tag. -/
theorem closeEndTag (h : b.Marked v m) (known : ∀ id, b.ended = some id → b.JustEnded id)
    (none_read : b.startTag = none) (stop : Nat) (mode : m' ≠ .startTagOpened) :
    (b.closeEndTag stop).Marked v m' := by
  unfold Builder.closeEndTag
  cases ended : b.ended with
  | none => exact h.move rfl rfl rfl fun opened => absurd opened mode
  | some id =>
    have just_ended := known id ended
    refine h.modify just_ended.inside rfl (fun known => ⟨known.closed, known.endTag, known.childless⟩)
      (List.Subset.refl _) (.inl rfl) ?_ ?_ mode
    · exact fun mem _ => absurd (.inl mem) just_ended.settled
    · intro reading
      exact absurd (none_read.symm.trans reading) (by simp)

end Marked

/-- **Every token keeps the marks.** -/
theorem marked_take {token : Token} {position : Nat} (h : b.Marked v m)
    (stands : b.Stands length m position) (reads : m.Reads token.kind m') :
    (b.take v length token).Marked v m' := by
  obtain ⟨frontier, -, nested⟩ := stands.exists_nested
  unfold take
  generalize token.kind = kind at reads
  cases reads with
  | text | commentOpens | declarationOpens | body | declarationText | declarationEnds | commentText
  | startTagJunk | assignment | endTagBlank | endTagJunk | endTagGivenUp =>
    exact h.move rfl rfl rfl (by simp_all [Mode.inEndTag])
  | startTagBlank => exact h.move rfl rfl rfl id
  | commentEnds =>
    exact h.move (nodes_endComment _ _) (openElements_endComment _ _) (startTag_endComment _ _) (by simp)
  | startTagOpens outside =>
    exact h.openElement nested ((stands_of_betweenTags outside position).mp stands).1 token.span.start
  | startTagName => exact h.nameElement nested token
  | attributeOpens => exact h.addAttribute nested token (by simp)
  | value => exact h.addValue nested token (by simp)
  | startTagEnds | startTagEndsBeforeBody => exact h.closeStartTag nested token (by simp)
  | elementEnds => exact h.selfCloseElement nested token.span.stop (by simp)
  | endTagOpens outside =>
    have none_read := ((stands_of_betweenTags outside position).mp stands).1
    exact h.move rfl rfl none_read.symm (by simp)
  | endTagName => exact h.endElement nested stands.1 token (by simp)
  | endTagEnds inside =>
    cases m with
    | endTagOpened =>
      exact h.closeEndTag (by simp [stands.2.1]) stands.1 token.span.stop (by simp)
    | endTag => exact h.closeEndTag stands.2.1 stands.1 token.span.stop (by simp)
    | _ => simp [Mode.inEndTag] at inside

/-- Before the first token there is no element. -/
theorem marked_start (length : Nat) : (Builder.start length).Marked v .content where
  nodes := by
    intro id inside off_root
    exact absurd (Nat.lt_one_iff.mp inside) off_root
  named := by simp [Builder.start]
  reading := by simp [Builder.start]

/-- At the end of the text open elements are cut off. -/
theorem Marked.finish (h : b.Marked v m) (nested : b.Nested length frontier) :
    ∀ id < b.nodes.size, id ≠ Document.root →
      ((b.cutOff b.openElements length).node id).Marked v := by
  intro id inside off_root
  rw [node_cutOff fun _ => nested.lt_size]
  split
  · rename_i mem
    exact h.cut nested mem length
  · exact h.nodes id inside off_root

end Builder

/-! ## Whole texts -/

namespace Document

/-- The marks after some of the tokens of a text. -/
theorem marked_built {v : Vocabulary} {t : Text} {s : Tokenizer} {passed : List Token}
    (h : (scanner v t).Passes passed s) : (built v t passed).Marked v s.mode := by
  refine h.along (P := fun passed s => (built v t passed).Marked v s.mode) ?_ ?_
  · rw [scanner_eq]
    exact Builder.marked_start t.byteLength
  · intro passed s passes some_ahead so_far
    rw [built_concat]
    exact Builder.marked_take so_far (stands_built passes) (Tokenizer.reads some_ahead)

/-- **The marks of a tree**: what the fields of its elements say, and which elements are unclosed. -/
structure Marks (v : Vocabulary) (d : Document) : Prop where
  /-- The fields of all elements fit together. -/
  element : ∀ id < d.nodes.size, id ≠ root → (d.node id).Marked v
  /-- The end tag is there with its name or not at all. -/
  endTag : ∀ id < d.nodes.size, id ≠ root →
    ((d.node id).endNameSpan.isSome ↔ (d.node id).endTagStart.isSome)
  /-- Unclosed are the elements that could have an end tag and have none, in their order. -/
  unclosed : d.unclosed = (List.range' 1 (d.nodes.size - 1)).filter fun id =>
    !(d.node id).isVoid v && !(d.node id).selfClosing && !(d.node id).hasEndTag

end Document

open Document

/-- **The marks of every text fit together.** -/
theorem parse_marks (v : Vocabulary) (t : Text) : (parse v t).Marks v := by
  have element : ∀ id < (parse v t).nodes.size, id ≠ root → ((parse v t).node id).Marked v := by
    obtain ⟨passed, s, passes, -, -, last⟩ := exists_built v t
    obtain ⟨frontier, -, nested⟩ := exists_nested_built v t
    have marked : (built v t (tokensOf v t)).Marked v .content := by
      rw [last]
      exact (marked_built passes).move (Builder.nodes_endComment _ _)
        (Builder.openElements_endComment _ _) (Builder.startTag_endComment _ _) (by simp)
    intro id inside off_root
    refine marked.finish nested id ?_ off_root
    rwa [parse_eq, Builder.finish, Builder.size_cutOff] at inside
  refine ⟨element, ?_, ?_⟩
  · intro id _ _
    rw [Node.endNameSpan, Node.endTagStart, Option.isSome_map, Option.isSome_map]
  · rw [unclosed, elements_parse]
    refine List.filter_congr fun id mem => ?_
    obtain ⟨first, last⟩ := List.mem_range'_1.mp mem
    have known := (element id (by omega) (by unfold root; omega)).closed
    have hasEndTag : ((parse v t).node id).hasEndTag = ((parse v t).node id).endTag.isSome := rfl
    rw [hasEndTag, Bool.eq_iff_iff]
    simp only [Bool.not_eq_true', Bool.and_eq_true]
    rw [← Bool.not_eq_true, known]
    simp [and_assoc]

end MarkupAnalysis
