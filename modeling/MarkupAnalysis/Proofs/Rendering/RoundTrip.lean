import MarkupAnalysis.Proofs.Document.Nesting
import MarkupAnalysis.Proofs.Rendering.Feeding

/-! # Parsing undoes rendering

The tree of a rendered forest is the tree of the forest.

* **`Forest.Grafts`** — what reading the text of a forest does to the tree, whatever comes after it.
* **`Forest.Grafts.text`**, **`Forest.Grafts.element`**, … — one lemma for each kind of forest.
* **`Forest.closed_of_mem_nodes`** — all elements of a forest are closed.
* **`parse_render`** — the tree of a rendered forest. -/

namespace MarkupAnalysis

open Text Tokenizer Builder

namespace Builder

/-- Children are adopted one after the other. -/
theorem adopt_adopt (ids more : List NodeId) (n : Node) :
    adopt more (adopt ids n) = adopt (ids ++ more) n := by
  simp [adopt]

/-- To adopt no one changes nothing. -/
theorem adopt_nil (n : Node) : adopt [] n = n := by simp [adopt]

end Builder

namespace Forest

/-- There is a node for each element. -/
theorem length_nodes (f : Forest) (parent first : NodeId) (position : Nat) :
    (f.nodes parent first position).length = f.size := by
  induction f generalizing parent first position with
  | nil => rfl
  | element tag attributes children next children_ih next_ih =>
    simp [nodes, size, children_ih, next_ih]
    omega
  | void tag attributes next ih =>
    simp [nodes, size, ih]
    omega
  | text run next ih => exact ih _ _ _
  | comment body next ih => exact ih _ _ _

/-- All elements of a forest are closed. -/
theorem closed_of_mem_nodes {f : Forest} {parent first : NodeId} {position : Nat} {n : Node}
    (mem : n ∈ f.nodes parent first position) : n.closed = true := by
  induction f generalizing parent first position with
  | nil => simp [nodes] at mem
  | element tag attributes children next children_ih next_ih =>
    rcases List.mem_cons.mp mem with rfl | inside
    · rfl
    · rcases List.mem_append.mp inside with child | later
      · exact children_ih child
      · exact next_ih later
  | void tag attributes next ih =>
    rcases List.mem_cons.mp mem with rfl | later
    · rfl
    · exact ih later
  | text run next ih => exact ih mem
  | comment body next ih => exact ih mem

end Forest

/-! ## Reading a forest back -/

namespace Forest

/-- **Reading the text of a forest grafts it** onto the innermost open element, whatever comes after it:
its outermost elements become the last children of that element, and all its elements follow the nodes so
far. -/
def Grafts (v : Vocabulary) (length : Nat) (f : Forest) : Prop :=
  ∀ (before after : List Node) (n : Node) (stack : List NodeId) (comments : List Comment)
    (endTagStart : Option Nat) (memory : TagMemory) (position : Nat) (rest : Text),
    stack.headD Document.root = before.length →
    ∃ memory' endTagStart',
      (facing v .content memory position (f.render ++ rest)).feed length
          (steady (before ++ n :: after) stack comments endTagStart) =
        (facing v .content memory' (position + f.render.byteLength) rest).feed length
          (steady
            (before ++ adopt (f.roots (before ++ n :: after).length) n ::
              (after ++ f.nodes before.length (before ++ n :: after).length position))
            stack (comments ++ f.comments position) endTagStart')

variable {v : Vocabulary} {length : Nat} {children next : Forest}

theorem grafts_nil : nil.Grafts v length := by
  intro before after n stack comments endTagStart memory position rest _
  exact ⟨memory, endTagStart, by simp [render, roots, nodes, Forest.comments, adopt_nil]⟩

/-- A text, and what comes next. -/
theorem Grafts.text (h : next.Grafts v length) {run : Text} (no_tag : '<' ∉ run) :
    (Forest.text run next).Grafts v length := by
  intro before after n stack comments endTagStart memory position rest top
  obtain ⟨memory', endTagStart', fed⟩ :=
    h before after n stack comments endTagStart memory (position + run.byteLength) rest top
  refine ⟨memory', endTagStart', ?_⟩
  rw [render, List.append_assoc, feed_text no_tag, fed, byteLength_append, Nat.add_assoc]
  rfl

/-- A comment, and what comes next. -/
theorem Grafts.comment (h : next.Grafts v length) {body : Text}
    (chars : ¬ "-->".toList <:+: body) : (Forest.comment body next).Grafts v length := by
  intro before after n stack comments endTagStart memory position rest top
  obtain ⟨memory', endTagStart', fed⟩ := h before after n stack
    (comments ++ [⟨⟨position, position + (renderComment body).byteLength⟩,
      ⟨position + 4, position + 4 + body.byteLength⟩⟩]) endTagStart memory
    (position + (renderComment body).byteLength) rest top
  refine ⟨memory', endTagStart', ?_⟩
  rw [render, List.append_assoc, feed_comment chars, fed, byteLength_append, Nat.add_assoc,
    List.append_assoc]
  rfl

/-- A void element, and what comes next. -/
theorem Grafts.void (h : next.Grafts v length) {tag : Text} {attributes : List PlainAttribute}
    (wf : StartTagWellFormed v tag attributes) (is_void : v.isVoid tag = true) :
    (Forest.void tag attributes next).Grafts v length := by
  intro before after n stack comments endTagStart memory position rest top
  obtain ⟨memory₁, started⟩ := feed_startTag length after n comments endTagStart wf top memory
    position (next.render ++ rest)
  rw [is_void, if_pos rfl, List.append_assoc, List.cons_append] at started
  set id := (before ++ n :: after).length
  set node : Node := { startedNode before.length position tag attributes with closed := true }
  have size : (before ++ adopt [id] n :: (after ++ [node])).length = id + 1 := by
    simp [id]
    omega
  obtain ⟨memory', endTagStart', fed⟩ := h before (after ++ [node]) (adopt [id] n) stack comments
    endTagStart memory₁ (position + (renderStartTag tag attributes).byteLength) rest top
  refine ⟨memory', endTagStart', ?_⟩
  rw [size, adopt_adopt, List.append_assoc] at fed
  rw [render, List.append_assoc, started, fed, byteLength_append, Nat.add_assoc]
  rfl

/-- **An element**: its start tag opens it, its children are grafted onto it, and its end tag closes
it. -/
theorem Grafts.feed_element (h : children.Grafts v length) {tag : Text}
    {attributes : List PlainAttribute} (wf : StartTagWellFormed v tag attributes)
    (not_void : v.isVoid tag = false) (reflexive : v.tagNamesMatch tag tag = true)
    (before after : List Node) (n : Node) (stack : List NodeId) (comments : List Comment)
    (endTagStart : Option Nat) (memory : TagMemory) (position : Nat) (rest : Text)
    (top : stack.headD Document.root = before.length) :
    let id := (before ++ n :: after).length
    let content := position + (renderStartTag tag attributes).byteLength
    let endTag := content + children.render.byteLength
    let node := endedNode (startedNode before.length position tag attributes)
      (children.roots (id + 1)) endTag tag
    ∃ memory',
      (facing v .content memory position (renderStartTag tag attributes ++
            (children.render ++ (renderEndTag tag ++ rest)))).feed length
          (steady (before ++ n :: after) stack comments endTagStart) =
        (facing v .content memory' (endTag + (renderEndTag tag).byteLength) rest).feed length
          (steady
            (before ++ adopt [id] n :: (after ++ node :: children.nodes id (id + 1) content)) stack
            (comments ++ children.comments content) (some endTag)) := by
  intro id content endTag node
  obtain ⟨memory₁, started⟩ := feed_startTag length after n comments endTagStart wf top memory
    position (children.render ++ (renderEndTag tag ++ rest))
  rw [not_void, if_neg Bool.false_ne_true] at started
  set opened := before ++ adopt [id] n :: after
  have opened_length : opened.length = id := by simp [opened, id]
  set node₁ := startedNode before.length position tag attributes
  -- The children, inside the element.
  obtain ⟨memory₂, endTagStart₂, inside⟩ := h opened [] node₁ (id :: stack) comments endTagStart
    memory₁ content (renderEndTag tag ++ rest) opened_length.symm
  have size : (opened ++ [node₁]).length = id + 1 := by simp [opened_length]
  rw [size, opened_length, List.nil_append] at inside
  -- The end tag, which closes the element.
  have ended := feed_endTag length opened (children.nodes id (id + 1) content) stack
    (comments ++ children.comments content) endTagStart₂ (n := adopt (children.roots (id + 1)) node₁)
    wf.name rfl reflexive memory₂ endTag rest
  have closed : endedNode (adopt (children.roots (id + 1)) node₁)
      (adopt (children.roots (id + 1)) node₁).children.toList endTag tag = node := by
    simp [node, endedNode, adopt, node₁, startedNode]
  have around : opened ++ node :: children.nodes id (id + 1) content =
      before ++ adopt [id] n :: (after ++ node :: children.nodes id (id + 1) content) := by
    simp [opened]
  rw [closed, opened_length, around] at ended
  exact ⟨memory₂, (started.trans inside).trans ended⟩

/-- An element, and what comes next inside the same one. -/
theorem Grafts.element (h : children.Grafts v length) (later : next.Grafts v length) {tag : Text}
    {attributes : List PlainAttribute} (wf : StartTagWellFormed v tag attributes)
    (not_void : v.isVoid tag = false) (reflexive : v.tagNamesMatch tag tag = true) :
    (Forest.element tag attributes children next).Grafts v length := by
  intro before after n stack comments endTagStart memory position rest top
  obtain ⟨memory₁, first⟩ := h.feed_element wf not_void reflexive before after n stack comments
    endTagStart memory position (next.render ++ rest) top
  set id := (before ++ n :: after).length
  set content := position + (renderStartTag tag attributes).byteLength
  set endTag := content + children.render.byteLength
  set elements := endedNode (startedNode before.length position tag attributes)
    (children.roots (id + 1)) endTag tag :: children.nodes id (id + 1) content with elements_eq
  obtain ⟨memory₂, endTagStart₂, others⟩ := later before (after ++ elements) (adopt [id] n) stack
    (comments ++ children.comments content) (some endTag) memory₁
    (endTag + (renderEndTag tag).byteLength) rest top
  have size : (before ++ adopt [id] n :: (after ++ elements)).length = id + 1 + children.size := by
    simp [id, elements_eq, length_nodes]
    omega
  rw [size, adopt_adopt, List.append_assoc, List.append_assoc] at others
  have whole : (Forest.element tag attributes children next).render ++ rest =
      renderStartTag tag attributes ++
        (children.render ++ (renderEndTag tag ++ (next.render ++ rest))) := by
    simp [render]
  have stop : position + (Forest.element tag attributes children next).render.byteLength =
      endTag + (renderEndTag tag).byteLength + next.render.byteLength := by
    simp only [render, byteLength_append, endTag, content]
    omega
  refine ⟨memory₂, endTagStart₂, ?_⟩
  rw [whole, stop]
  exact first.trans others

/-- **Every forest that can be read back is grafted.** -/
theorem WellFormed.grafts {f : Forest} (wf : f.WellFormed v)
    (reflexive : ∀ name, v.tagNamesMatch name name = true) : f.Grafts v length := by
  induction f with
  | nil => exact grafts_nil
  | element tag attributes children next children_ih next_ih =>
    obtain ⟨tag_wf, not_void, children_wf, next_wf⟩ := wf
    exact (children_ih children_wf).element (next_ih next_wf) tag_wf not_void (reflexive tag)
  | void tag attributes next ih =>
    obtain ⟨tag_wf, is_void, next_wf⟩ := wf
    exact (ih next_wf).void tag_wf is_void
  | text run next ih =>
    obtain ⟨no_tag, next_wf⟩ := wf
    exact (ih next_wf).text no_tag
  | comment body next ih =>
    obtain ⟨chars, next_wf⟩ := wf
    exact (ih next_wf).comment chars

end Forest

/-- A document is what the builder makes of the whole text. -/
theorem parse_eq_feed (v : Vocabulary) (t : Text) :
    Document.parse v t =
      ((facing v .content {} 0 t).feed t.byteLength
        (steady [{ start := 0, stop := t.byteLength, closed := true }] [] [] none)).finish
        t.byteLength := by
  have tokens : Document.tokensOf v t = (facing v .content {} 0 t).tokens :=
    congrArg Tokenizer.tokens (Document.scanner_eq v t)
  rw [Document.parse, tokens]
  rfl

/-- At the end of the text nothing is left to do. -/
theorem feed_nil {v : Vocabulary} {length : Nat} (memory : TagMemory) (position : Nat)
    (nodes : List Node) (stack : List NodeId) (comments : List Comment) (endTagStart : Option Nat) :
    (facing v .content memory position []).feed length (steady nodes stack comments endTagStart) =
      steady nodes stack comments endTagStart := by
  rw [feed, tokens_of_ahead_eq_nil rfl]
  rfl

/-- **Parsing undoes rendering**: the tree of a rendered forest is the tree of the forest, and all its
elements are closed. -/
theorem parse_render (v : Vocabulary) (f : Forest) (wf : f.WellFormed v)
    (reflexive : ∀ name, v.tagNamesMatch name name = true) :
    Document.parse v f.render = f.document ∧
      (∀ n ∈ (Document.parse v f.render).nodes, n.closed = true) ∧
      (Document.parse v f.render).unclosed = [] := by
  have parsed : Document.parse v f.render = f.document := by
    have grafts : f.Grafts v f.render.byteLength := wf.grafts reflexive
    obtain ⟨memory, endTagStart, fed⟩ := grafts [] []
      { start := 0, stop := f.render.byteLength, closed := true } [] [] none {} 0 [] rfl
    rw [List.append_nil, feed_nil] at fed
    rw [parse_eq_feed]
    refine (congrArg (Builder.finish f.render.byteLength) fed).trans ?_
    simp [Builder.finish, cutOff, steady, Forest.document, adopt]
    rfl
  have closed : ∀ n ∈ (Document.parse v f.render).nodes, n.closed = true := by
    rw [parsed]
    intro n mem
    -- The root is closed as well.
    rcases List.mem_cons.mp (Array.mem_def.mp mem) with rfl | element
    · rfl
    · exact Forest.closed_of_mem_nodes element
  exact ⟨parsed, closed, (Document.wellFormed_parse v f.render).unclosed_eq_nil closed⟩

/-! ## A paragraph -/

/-- A vocabulary with line breaks. -/
def lineBreaks : Vocabulary := { Vocabulary.empty with isVoid := fun tag => tag == "br".toList }

/-- A paragraph with two attributes, a text, a line break and a comment. -/
def paragraph : Forest :=
  .element "p".toList [⟨"id".toList, some "a>".toList⟩, ⟨"hidden".toList, none⟩]
    (.text "x\n".toList (.void "br".toList [] (.comment "-c-".toList .nil))) .nil

/-- The tree of the paragraph. -/
theorem parse_render_paragraph :
    paragraph.WellFormed lineBreaks ∧ (∀ name, lineBreaks.tagNamesMatch name name = true) ∧
      Document.parse lineBreaks paragraph.render = paragraph.document ∧
      (∀ n ∈ (Document.parse lineBreaks paragraph.render).nodes, n.closed = true) ∧
      (Document.parse lineBreaks paragraph.render).unclosed = [] := by
  have outer : StartTagWellFormed lineBreaks "p".toList
      [⟨"id".toList, some "a>".toList⟩, ⟨"hidden".toList, none⟩] := by
    refine ⟨⟨'p', [], rfl, rfl, List.all_eq_true.mp rfl⟩, rfl, ?_⟩
    rw [List.forall_mem_cons, List.forall_mem_singleton]
    exact ⟨⟨by simp, List.all_eq_true.mp rfl, fun value same => Option.some.inj same ▸ by decide⟩,
      ⟨by simp, List.all_eq_true.mp rfl, fun value same => by cases same⟩⟩
  have inner : StartTagWellFormed lineBreaks "br".toList [] :=
    ⟨⟨'b', ['r'], rfl, rfl, List.all_eq_true.mp rfl⟩, rfl, by simp⟩
  have wf : paragraph.WellFormed lineBreaks :=
    ⟨outer, rfl, ⟨by decide, inner, rfl, by decide, trivial⟩, trivial⟩
  have reflexive : ∀ name, lineBreaks.tagNamesMatch name name = true := equalsIgnoringCase_self
  exact ⟨wf, reflexive, parse_render lineBreaks paragraph wf reflexive⟩

end MarkupAnalysis
