import Mathlib.Logic.Relation
import MarkupAnalysis.Proofs.Document.Nesting

/-! # Document order

The array holds the elements in the order of their start tags, and a walk through the tree meets them in
the same order: each new element is the last child of the innermost open one, which is the last child of
the next one of the stack, and so on.

* **`Node.links`**, **`Builder.settles_take`** — only the `<` of a start tag changes the links between nodes.
* **`Builder.starts_foldl`** — each `<` of a start tag starts an element, and nothing else does.
* **`Spans`** — the nodes of a list and all that is inside them follow each other in the array.
* **`Spans.grow`** — a new last node keeps the order.
* **`Document.elements_parse`** — a walk through the tree of a text goes through the array. -/

namespace MarkupAnalysis

/-! ## Links -/

/-- What links a node to the others, and where it starts. -/
def Node.links (n : Node) : Nat × Option NodeId × Array NodeId := (n.start, n.parent, n.children)

namespace Builder

variable {b : Builder} {v : Vocabulary} {length : Nat}

/-- The links of all nodes. -/
def links (b : Builder) : Array (Nat × Option NodeId × Array NodeId) := b.nodes.map Node.links

/-- Builders with the same array have the same links. -/
theorem links_congr {b' : Builder} (h : b'.nodes = b.nodes) : b'.links = b.links := by
  rw [links, links, h]

/-- A change of one node that keeps what is read off it keeps it for all nodes. -/
theorem map_modify {α : Type} (part : Node → α) {change : Node → Node}
    (keeps : ∀ n, part (change n) = part n) (nodes : Array Node) (id : NodeId) :
    (nodes.modify id change).map part = nodes.map part := by
  apply Array.ext_getElem?
  intro i
  rw [Array.getElem?_map, Array.getElem?_map, Array.getElem?_modify]
  split
  · cases nodes[i]? with
    | none => rfl
    | some n => exact congrArg some (keeps n)
  · rfl

theorem links_modify {change : Node → Node} (keeps : ∀ n, (change n).links = n.links) (id : NodeId) :
    (b.modify id change).links = b.links :=
  map_modify Node.links keeps b.nodes id

theorem links_cutOff (ids : List NodeId) (stop : Nat) : (b.cutOff ids stop).links = b.links := by
  induction ids generalizing b with
  | nil => rfl
  | cons id ids ih =>
    refine Eq.trans ih (links_modify ?_ id)
    exact fun _ => rfl

/-- What a token does to nodes, if it does not open a start tag: it keeps their links, and elements may
leave the stack. -/
structure Settles (b b' : Builder) : Prop where
  /-- The links stay. -/
  links : b'.links = b.links
  /-- The lower part of the stack stays. -/
  stack : b'.openElements <:+ b.openElements

theorem Settles.refl (b : Builder) : b.Settles b := ⟨rfl, List.suffix_refl _⟩

/-- A change of the element whose start tag is being read, which may leave the stack. -/
theorem settles_modify {b' : Builder} {change : Node → Node} {id : NodeId}
    (nodes : b'.nodes = (b.modify id change).nodes) (stack : b'.openElements <:+ b.openElements)
    (keeps : ∀ n, (change n).links = n.links) : b.Settles b' :=
  ⟨(links_congr nodes).trans (links_modify keeps id), stack⟩

theorem settles_nameElement (token : Token) : b.Settles (b.nameElement v token) := by
  unfold nameElement
  cases b.startTag with
  | none => exact .refl b
  | some id =>
    dsimp only
    split
    · exact settles_modify (nodes_leave _) (leave_suffix _ id) fun _ => rfl
    · exact settles_modify rfl (List.suffix_refl _) fun _ => rfl

theorem settles_addAttribute (token : Token) : b.Settles (b.addAttribute token) := by
  unfold addAttribute
  cases b.startTag with
  | none => exact .refl b
  | some id => exact settles_modify rfl (List.suffix_refl _) fun _ => rfl

theorem settles_addValue (token : Token) : b.Settles (b.addValue token) := by
  unfold addValue
  cases b.startTag with
  | none => exact .refl b
  | some id => exact settles_modify rfl (List.suffix_refl _) fun _ => rfl

theorem settles_closeStartTag (token : Token) : b.Settles (b.closeStartTag token) := by
  unfold closeStartTag
  cases b.startTag with
  | none => exact .refl b
  | some id =>
    dsimp only
    split_ifs
    · exact settles_modify (nodes_leave _) (leave_suffix _ id) fun _ => rfl
    · exact settles_modify (nodes_leave _) (leave_suffix _ id) fun _ => rfl
    · exact settles_modify rfl (List.suffix_refl _) fun _ => rfl

theorem settles_selfCloseElement (stop : Nat) : b.Settles (b.selfCloseElement stop) := by
  unfold selfCloseElement
  cases b.startTag with
  | none => exact .refl b
  | some id => exact settles_modify (nodes_leave _) (leave_suffix _ id) fun _ => rfl

theorem settles_endElement (token : Token) : b.Settles (b.endElement v token) := by
  rcases endElement_cases v b token with stray | ⟨start, inner, id, outer, -, closes, taken⟩
  · rw [stray]
    exact .refl b
  · have nodes : (b.endElement v token).nodes =
        ((b.cutOff inner start).modify id (closeWith start token.span)).nodes := by rw [taken]
    refine ⟨(links_congr nodes).trans ((links_modify ?_ id).trans (links_cutOff inner start)), ?_⟩
    · exact fun _ => rfl
    · rw [taken, closes.split]
      exact ⟨inner ++ [id], by simp⟩

theorem settles_closeEndTag (stop : Nat) : b.Settles (b.closeEndTag stop) := by
  unfold closeEndTag
  cases b.ended with
  | none => exact .refl b
  | some id => exact settles_modify rfl (List.suffix_refl _) fun _ => rfl

theorem settles_endComment (contentStop stop : Nat) : b.Settles (b.endComment contentStop stop) :=
  ⟨links_congr (nodes_endComment _ _), [], openElements_endComment _ _⟩

/-- **Only the `<` of a start tag changes the links between nodes**, or puts an element on the stack. -/
theorem settles_take (v : Vocabulary) (length : Nat) {token : Token}
    (other : token.kind ≠ .startTagOpen) : b.Settles (b.take v length token) := by
  unfold take
  cases kind : token.kind with
  | startTagOpen => exact absurd kind other
  | startTag => exact settles_nameElement token
  | startTagClose => exact settles_closeStartTag token
  | startTagSelfClose => exact settles_selfCloseElement token.span.stop
  | attributeName => exact settles_addAttribute token
  | attributeValue => exact settles_addValue token
  | endTag => exact settles_endElement token
  | endTagClose => exact settles_closeEndTag token.span.stop
  | endComment | eof => exact settles_endComment token.span.start token.span.stop
  | _ => exact ⟨rfl, List.suffix_refl _⟩

/-! ## Where elements start -/

/-- The offsets at which the nodes start. -/
def starts (b : Builder) : List Nat := (b.links.map (·.1)).toList

theorem starts_eq (b : Builder) : b.starts = b.nodes.toList.map (·.start) := by
  simp [starts, links, Node.links, Function.comp_def]

/-- A new element starts at its `<`. -/
theorem starts_openElement (start : Nat) :
    (b.openElement length start).starts = b.starts ++ [start] := by
  let adopt (n : Node) : Node := { n with children := n.children.push b.nodes.size }
  have keeps (n : Node) : (adopt n).start = n.start := rfl
  have parent := map_modify (·.start) keeps (b.nodes.push (b.opened length start)) b.current
  have pushed := congrArg Array.toList parent
  rw [Array.toList_map, Array.toList_map, Array.toList_push, List.map_append] at pushed
  rw [starts_eq, starts_eq]
  exact pushed

/-- **Each `<` of a start tag starts an element**, and nothing else does. -/
theorem starts_foldl (v : Vocabulary) (length : Nat) (tokens : List Token) :
    (tokens.foldl (take v length) b).starts =
      b.starts ++ (tokens.filter (·.kind = .startTagOpen)).map (·.span.start) := by
  induction tokens generalizing b with
  | nil => simp
  | cons token tokens ih =>
    rw [List.foldl_cons, ih]
    by_cases opens : token.kind = .startTagOpen
    · have taken : b.take v length token = b.openElement length token.span.start := by
        rw [take, opens]
      rw [taken, starts_openElement, List.filter_cons_of_pos (by simpa using opens), List.map_cons,
        List.append_assoc, List.singleton_append]
    · rw [List.filter_cons_of_neg (by simpa using opens), starts, starts,
        (settles_take v length opens).links]

end Builder

/-! ## Nodes that follow each other -/

/-- **The nodes of the list and all that is inside them** are `first`, …, `last - 1`, each node before what
is inside it. -/
inductive Spans (children : Nat → List Nat) : Nat → List Nat → Nat → Prop
  /-- No nodes. -/
  | nil (first : Nat) : Spans children first [] first
  /-- A node, all that is inside it, and the others. -/
  | cons {first next last : Nat} {others : List Nat}
      (inside : Spans children (first + 1) (children first) next)
      (after : Spans children next others last) : Spans children first (first :: others) last

namespace Spans

variable {children children' : Nat → List Nat} {first last : Nat} {nodes : List Nat}

theorem le (h : Spans children first nodes last) : first ≤ last := by
  induction h with
  | nil => exact Nat.le_refl _
  | cons _ _ inside after => exact Nat.le_trans (Nat.le_of_succ_le inside) after

theorem append {later : List Nat} {stop : Nat} (h : Spans children first nodes last)
    (h' : Spans children last later stop) : Spans children first (nodes ++ later) stop := by
  induction h with
  | nil => exact h'
  | cons inside _ _ ih => exact .cons inside (ih h')

/-- Where a list is cut, one part ends and the other one begins. -/
theorem split {later : List Nat} (h : Spans children first (nodes ++ later) last) :
    ∃ next, Spans children first nodes next ∧ Spans children next later last := by
  induction nodes generalizing first with
  | nil => exact ⟨first, .nil first, h⟩
  | cons node nodes ih =>
    cases h with
    | cons inside after =>
      obtain ⟨next, before, behind⟩ := ih after
      exact ⟨next, .cons inside before, behind⟩

/-- Only the nodes between the first and the last one matter. -/
theorem congr (h : Spans children first nodes last)
    (same : ∀ id, first ≤ id → id < last → children' id = children id) :
    Spans children' first nodes last := by
  induction h with
  | nil first => exact .nil first
  | @cons first next last _ inside after ih ih' =>
    have forward := inside.le
    have bound := after.le
    refine .cons ?_ (ih' fun id lower upper => same id (by omega) upper)
    rw [same first (Nat.le_refl _) (by omega)]
    exact ih fun id lower upper => same id (by omega) (by omega)

/-- One node is a child of another, and the last one. -/
def LastChild (children : Nat → List Nat) (parent child : Nat) : Prop :=
  (children parent).getLast? = some child

/-- **A new last node**: it becomes the last child of a node that is reached from the first one by last
children only. -/
theorem grow {id current size : Nat} (reached : Relation.ReflTransGen (LastChild children) id current)
    (h : Spans children (id + 1) (children id) size)
    (parent : children' current = children current ++ [size]) (leaf : children' size = [])
    (others : ∀ j < size, j ≠ current → children' j = children j) :
    Spans children' (id + 1) (children' id) (size + 1) ∧ id ≤ current := by
  have new_node : Spans children' size [size] (size + 1) := by
    refine .cons ?_ (.nil _)
    rw [leaf]
    exact .nil _
  -- From the node down to the parent of the new one.
  induction reached using Relation.ReflTransGen.head_induction_on with
  | refl =>
    rw [parent]
    refine ⟨append (h.congr fun j lower upper => others j upper ?_) new_node, Nat.le_refl _⟩
    exact Nat.ne_of_gt lower
  | @head id child last _ ih =>
    obtain ⟨init, split⟩ := List.getLast?_eq_some_iff.mp last
    rw [split] at h
    obtain ⟨next, before, behind⟩ := h.split
    -- The last child spans all that comes after the other children.
    cases behind with
    | cons inside after =>
      cases after
      obtain ⟨grown, below⟩ := ih inside
      have beyond := before.le
      have inside_le := inside.le
      have before' : Spans children' (id + 1) init child :=
        before.congr fun j _ upper => others j (by omega) (by omega)
      rw [others id (by omega) (by omega), split]
      exact ⟨before'.append (.cons grown (.nil _)), by omega⟩

end Spans

/-- **A walk** through nodes that follow each other. -/
theorem Document.preorderWithin_eq_range' {d : Document} {first last steps : Nat}
    {nodes : List Nat} (h : Spans d.children first nodes last) (enough : last - first ≤ steps) :
    d.preorderWithin steps nodes = List.range' first (last - first) := by
  induction steps generalizing first nodes with
  | zero =>
    rw [Nat.le_zero.mp enough]
    rfl
  | succ steps ih =>
    cases h with
    | nil => simp [preorderWithin]
    | cons inside after =>
      have forward := inside.le
      have bound := after.le
      have count : last - first = last - (first + 1) + 1 := by omega
      rw [preorderWithin, ih (inside.append after) (by omega), count, List.range'_succ]

/-! ## The tree of a text -/

namespace Builder

variable {b b' : Builder} {length frontier : Nat}

/-- The children of a node. -/
def children (b : Builder) (id : NodeId) : List NodeId := (b.node id).children.toList

/-- **The elements are in document order**, and each open element is the last child of the next one of the
stack. -/
structure Ordered (b : Builder) : Prop where
  spans : Spans b.children (Document.root + 1) (b.children Document.root) b.nodes.size
  stack : (b.openElements ++ [Document.root]).IsChain fun child parent =>
    Spans.LastChild b.children parent child

theorem children_congr (h : b'.links = b.links) : b'.children = b.children := by
  funext id
  have entry : (b'.links[id]?).map (·.2.2) = (b.links[id]?).map (·.2.2) := by rw [h]
  simp only [links, Array.getElem?_map, Option.map_map, Function.comp_def, Node.links] at entry
  have defaults : (default : Node).children = #[] := rfl
  unfold children node
  cases first : b'.nodes[id]? with
  | none => cases second : b.nodes[id]? <;> simp_all
  | some n => cases second : b.nodes[id]? <;> simp_all

namespace Ordered

/-- Tokens that keep the links keep the order. -/
theorem settles (h : b.Ordered) (settles : b.Settles b') : b'.Ordered := by
  have children := children_congr settles.links
  have size : b'.nodes.size = b.nodes.size := by
    simpa [links] using congrArg Array.size settles.links
  refine ⟨?_, ?_⟩
  · rw [children, size]
    exact h.spans
  · rw [children]
    obtain ⟨inner, split⟩ := settles.stack
    exact h.stack.suffix ⟨inner, by rw [← List.append_assoc, split]⟩

/-- The innermost open element is reached from the root by last children. -/
theorem reached (h : b.Ordered) :
    Relation.ReflTransGen (Spans.LastChild b.children) Document.root b.current := by
  have stack := h.stack
  unfold current
  generalize b.openElements = open_elements at stack
  induction open_elements with
  | nil => exact .refl
  | cons first outer ih =>
    rw [List.cons_append] at stack
    have up : outer.headD Document.root ∈ (outer ++ [Document.root]).head? := by
      cases outer <;> simp
    exact (ih stack.tail).tail ((List.isChain_cons.mp stack).1 _ up)

/-- A new element comes last. -/
theorem openElement (h : b.Ordered) (nested : b.Nested length frontier) (start : Nat) :
    (b.openElement length start).Ordered := by
  have inside := nested.current_lt_size
  have children (j : NodeId) : (b.openElement length start).children j =
      if j = b.nodes.size then [] else if j = b.current then b.children j ++ [b.nodes.size]
      else b.children j := by
    unfold Builder.children
    rw [node_openElement inside]
    split_ifs
    · rfl
    · simp
    · rfl
  have parent : (b.openElement length start).children b.current =
      b.children b.current ++ [b.nodes.size] := by
    rw [children, if_neg (Nat.ne_of_lt inside), if_pos rfl]
  have others : ∀ j < b.nodes.size, j ≠ b.current →
      (b.openElement length start).children j = b.children j := by
    intro j known other
    rw [children, if_neg (Nat.ne_of_lt known), if_neg other]
  refine ⟨?spans, ?stack⟩
  case spans =>
    rw [size_openElement]
    exact (Spans.grow h.reached h.spans parent (by rw [children, if_pos rfl]) others).1
  case stack =>
    have decreasing := nested.decreasing
    have stack := h.stack
    rw [openElements_openElement, List.cons_append]
    refine List.isChain_cons.mpr ⟨?_, ?_⟩
    · intro top mem
      rw [Nested.eq_current_of_mem_head? mem, Spans.LastChild, parent, List.getLast?_concat]
    · -- The children of the nodes below the innermost open element stay as they are.
      refine stack.imp_of_mem_tail_imp fun child above _ mem last => ?_
      have below : above < b.current := by
        unfold current
        cases split : b.openElements with
        | nil => simp [split] at mem
        | cons first outer =>
          rw [split, List.cons_append] at decreasing mem
          exact (List.pairwise_cons.mp decreasing).1 above mem
      rw [Spans.LastChild, others above (Nat.lt_trans below inside) (Nat.ne_of_lt below)]
      exact last

end Ordered

/-- The root alone is in document order. -/
theorem ordered_start (length : Nat) : (Builder.start length).Ordered :=
  ⟨.nil 1, .singleton _⟩

end Builder

/-- **The elements of a text are in document order** after any of its tokens. -/
theorem Document.ordered_built {v : Vocabulary} {t : Text} {s : Tokenizer} {passed : List Token}
    (h : (scanner v t).Passes passed s) : (built v t passed).Ordered := by
  refine h.along (P := fun passed _ => (built v t passed).Ordered)
    (Builder.ordered_start t.byteLength) ?_
  intro passed s passes _ ordered
  obtain ⟨frontier, -, nested⟩ := (stands_built passes).exists_nested
  rw [built, List.foldl_append]
  show ((built v t passed).take v t.byteLength s.token).Ordered
  by_cases opens : s.token.kind = .startTagOpen
  · rw [Builder.take, opens]
    exact ordered.openElement nested _
  · exact ordered.settles (Builder.settles_take v t.byteLength opens)

/-- The links in the tree of a text are those that the builder has made. -/
theorem Document.links_parse (v : Vocabulary) (t : Text) :
    (parse v t).nodes.map Node.links = (built v t (tokensOf v t)).links :=
  Builder.links_cutOff _ _

/-- After all tokens the elements are in document order. -/
theorem Document.ordered_tokensOf (v : Vocabulary) (t : Text) :
    (built v t (tokensOf v t)).Ordered := by
  obtain ⟨passed, s, passes, -, -, last⟩ := exists_built v t
  rw [last]
  exact (ordered_built passes).settles (Builder.settles_endComment _ _)

/-- **In the tree of a text all nodes follow each other**: the root, and all that is inside it. -/
theorem Document.spans_parse (v : Vocabulary) (t : Text) :
    Spans (parse v t).children (root + 1) ((parse v t).children root) (parse v t).nodes.size := by
  let done : Builder := { nodes := (parse v t).nodes }
  have same : done.children = (built v t (tokensOf v t)).children :=
    Builder.children_congr (links_parse v t)
  have size : (parse v t).nodes.size = (built v t (tokensOf v t)).nodes.size :=
    Builder.size_cutOff _ _
  show Spans done.children _ (done.children root) _
  rw [same, size]
  exact (ordered_tokensOf v t).spans

/-- **A walk through the tree of a text goes through the array.** -/
theorem Document.elements_parse (v : Vocabulary) (t : Text) :
    (parse v t).elements = List.range' 1 ((parse v t).nodes.size - 1) :=
  preorderWithin_eq_range' (spans_parse v t) (Nat.sub_le _ _)

/-- **The elements of a text start where its start tags open.** -/
theorem Document.starts_parse (v : Vocabulary) (t : Text) :
    (parse v t).nodes.toList.map (·.start) =
      0 :: ((tokensOf v t).filter (·.kind = .startTagOpen)).map (·.span.start) := by
  have all := Builder.starts_foldl (b := blank t) v t.byteLength (tokensOf v t)
  have root_alone : (blank t).starts = [0] := Builder.starts_eq _
  rw [root_alone, Builder.starts, ← built, ← links_parse] at all
  simpa [Node.links, Function.comp_def] using all

end MarkupAnalysis
