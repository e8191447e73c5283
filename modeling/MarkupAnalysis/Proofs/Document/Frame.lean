import MarkupAnalysis.Proofs.Document.Growth

/-! # What tokens leave alone

Elements that have been left do not change any more, but for one thing: the bracket of an end tag moves
the end of the element that the end tag has closed. And no token but the name of an end tag gives an
element its end tag.

* **`Builder.Past`** — the elements that have been left.
* **`Builder.Rests`** — what later tokens may do to them.
* **`Builder.EditsStartTag`** — what the tokens of a start tag may do.
* **`Builder.Past.node_take`** — the one token that changes an element that has been left.
* **`Builder.rests_take`**, **`Builder.rests_foldl`** — one token, and any number of them.
* **`Builder.Closes`** — an end tag meets the innermost open element of its name.
* **`Builder.endTag_take`** — where end tags come from. -/

namespace MarkupAnalysis

namespace Builder

variable {b b' b'' : Builder} {id : NodeId}

/-! ## Nodes that a change does not reach -/

/-- A change of one node keeps what it keeps in every node. -/
theorem node_modify_keeps {α : Type} (part : Node → α) {change : Node → Node}
    (keeps : ∀ n, part (change n) = part n) (id j : NodeId) :
    part ((b.modify id change).node j) = part (b.node j) := by
  by_cases inside : id < b.nodes.size
  · rw [node_modify inside]
    split
    · exact keeps _
    · rfl
  · -- Where there is no node, nothing changes.
    have outside : b.nodes.modify id change = b.nodes := by
      apply Array.ext_getElem?
      intro i
      rw [Array.getElem?_modify]
      split
      · rename_i same
        subst same
        simp [inside]
      · rfl
    exact congrArg part (congrFun (node_congr outside) j)

/-- Elements that are not named are not cut off. -/
theorem node_cutOff_of_not_mem {ids : List NodeId} {j : NodeId} (other : j ∉ ids) (stop : Nat) :
    (b.cutOff ids stop).node j = b.node j := by
  induction ids generalizing b with
  | nil => rfl
  | cons id ids ih =>
    obtain ⟨first, later⟩ := not_or.mp (mt List.mem_cons.mpr other)
    exact (ih later).trans (node_modify_of_ne first _)

/-- Cutting elements off keeps what their ends and their marks do not tell. -/
theorem node_cutOff_keeps {α : Type} (part : Node → α) {stop : Nat}
    (keeps : ∀ n, part (cut stop n) = part n) (ids : List NodeId) (j : NodeId) :
    part ((b.cutOff ids stop).node j) = part (b.node j) := by
  induction ids generalizing b with
  | nil => rfl
  | cons id ids ih => exact ih.trans (node_modify_keeps part keeps id j)

/-- Cutting elements off keeps their end tags. -/
theorem endTag_cutOff (ids : List NodeId) (stop : Nat) (j : NodeId) :
    ((b.cutOff ids stop).node j).endTag = (b.node j).endTag :=
  node_cutOff_keeps Node.endTag (fun _ => rfl) ids j

/-- A new element changes its parent only. -/
theorem node_openElement_of_ne {length start : Nat} {j : NodeId} (known : j < b.nodes.size)
    (other : j ≠ b.current) : (b.openElement length start).node j = b.node j := by
  unfold node
  simp only [openElement]
  rw [Array.getElem?_modify, if_neg (Ne.symm other), Array.getElem?_push, if_neg (Nat.ne_of_lt known)]

/-- A new element keeps what children do not tell, and what it does not have yet itself. -/
theorem node_openElement_keeps {α : Type} (part : Node → α) {length start : Nat}
    (fresh : part (b.opened length start) = part default)
    (keeps : ∀ n children, part { n with children } = part n) (j : NodeId) :
    part ((b.openElement length start).node j) = part (b.node j) := by
  let pushed : Builder := { nodes := b.nodes.push (b.opened length start) }
  have same : (b.openElement length start).node =
      (pushed.modify b.current fun n => { n with children := n.children.push b.nodes.size }).node :=
    node_congr rfl
  rw [same, node_modify_keeps part (fun n => keeps n _), node, node, Array.getElem?_push]
  split
  · rename_i here
    subst here
    rw [Array.getElem?_eq_none (Nat.le_refl _)]
    exact fresh
  · rfl

/-- A new element has no end tag, and its parent keeps its own. -/
theorem endTag_openElement (length start : Nat) (j : NodeId) :
    ((b.openElement length start).node j).endTag = (b.node j).endTag :=
  node_openElement_keeps Node.endTag rfl (fun _ _ => rfl) j

/-! ## Start tags -/

/-- **What the tokens of a start tag may do**: they change the element whose start tag is being read, but
for its end tag, and they may leave it. -/
inductive EditsStartTag (b : Builder) : Builder → Prop
  /-- There is no such element. -/
  | nothing : EditsStartTag b b
  /-- The element changes. -/
  | element {b' : Builder} (id : NodeId) (change : Node → Node) (reading : b.startTag = some id)
      (nodes : b'.nodes = (b.modify id change).nodes) (keeps : ∀ n, (change n).endTag = n.endTag)
      (stack : b'.openElements ⊆ b.openElements)
      (startTag : b'.startTag = none ∨ b'.startTag = b.startTag) (ended : b'.ended = b.ended) :
      EditsStartTag b b'

theorem edits_nameElement (v : Vocabulary) (token : Token) :
    b.EditsStartTag (b.nameElement v token) := by
  unfold nameElement
  cases reading : b.startTag with
  | none => exact .nothing
  | some id =>
    dsimp only
    split
    · exact .element id _ reading (nodes_leave _) (fun _ => rfl) (leave_suffix _ id).subset
        (.inr (startTag_leave _)) (ended_leave _)
    · exact .element id _ reading rfl (fun _ => rfl) (List.Subset.refl _) (.inr rfl) rfl

theorem edits_addAttribute (token : Token) : b.EditsStartTag (b.addAttribute token) := by
  unfold addAttribute
  cases reading : b.startTag with
  | none => exact .nothing
  | some id =>
    dsimp only
    exact .element id _ reading rfl (fun _ => rfl) (List.Subset.refl _) (.inr rfl) rfl

theorem edits_addValue (token : Token) : b.EditsStartTag (b.addValue token) := by
  unfold addValue
  cases reading : b.startTag with
  | none => exact .nothing
  | some id =>
    dsimp only
    exact .element id _ reading rfl (fun _ => rfl) (List.Subset.refl _) (.inr rfl) rfl

theorem edits_closeStartTag (token : Token) : b.EditsStartTag (b.closeStartTag token) := by
  unfold closeStartTag
  cases reading : b.startTag with
  | none => exact .nothing
  | some id =>
    dsimp only
    split_ifs
    · exact .element id _ reading (nodes_leave _) (fun _ => rfl) (leave_suffix _ id).subset
        (.inl (startTag_leave _)) (ended_leave _)
    · exact .element id _ reading (nodes_leave _) (fun _ => rfl) (leave_suffix _ id).subset
        (.inl (startTag_leave _)) (ended_leave _)
    · exact .element id _ reading rfl (fun _ => rfl) (List.Subset.refl _) (.inl rfl) rfl

theorem edits_selfCloseElement (stop : Nat) : b.EditsStartTag (b.selfCloseElement stop) := by
  unfold selfCloseElement
  cases reading : b.startTag with
  | none => exact .nothing
  | some id =>
    exact .element id _ reading (nodes_leave _) (fun _ => rfl) (leave_suffix _ id).subset
      (.inl (startTag_leave _)) (ended_leave _)

/-! ## Elements that have been left -/

/-- An element that has been left: it is not pending. -/
structure Past (b : Builder) (id : NodeId) : Prop where
  /-- It is an element of the array. -/
  known : id < b.nodes.size
  /-- It is not the root. -/
  off_root : id ≠ Document.root
  /-- Its end is not to come. -/
  left : ¬ b.Pending id

/-- **An element that has been left stays as it is.** Only the one that the end tag being read has closed
may move its end. -/
structure Rests (b b' : Builder) (id : NodeId) : Prop where
  /-- It is still past. -/
  past : b'.Past id
  /-- All but its end is as it was. -/
  node : ∃ stop, b'.node id = { b.node id with stop }
  /-- If it has not just been closed, its end is as it was. -/
  still : b.ended ≠ some id → b'.ended ≠ some id ∧ b'.node id = b.node id

namespace Rests

theorem refl (past : b.Past id) : b.Rests b id := ⟨past, ⟨_, rfl⟩, fun other => ⟨other, rfl⟩⟩

theorem trans (h : b.Rests b' id) (h' : b'.Rests b'' id) : b.Rests b'' id := by
  obtain ⟨stop, node⟩ := h.node
  obtain ⟨stop', node'⟩ := h'.node
  refine ⟨h'.past, ⟨stop', by rw [node', node]⟩, fun other => ?_⟩
  obtain ⟨other', same⟩ := h.still other
  obtain ⟨other'', same'⟩ := h'.still other'
  exact ⟨other'', same'.trans same⟩

/-- A change that does not reach the element, and opens new elements only. -/
theorem of_node (past : b.Past id) (node : b'.node id = b.node id)
    (size : b.nodes.size ≤ b'.nodes.size)
    (stack : ∀ j ∈ b'.openElements, j ∈ b.openElements ∨ b.nodes.size ≤ j)
    (startTag : ∀ j, b'.startTag = some j → b.startTag = some j ∨ b.nodes.size ≤ j)
    (ended : b.ended ≠ some id → b'.ended ≠ some id) : b.Rests b' id := by
  refine ⟨⟨Nat.lt_of_lt_of_le past.known size, past.off_root, ?_⟩, ⟨_, node⟩,
    fun other => ⟨ended other, node⟩⟩
  have not_fresh : ¬ b.nodes.size ≤ id := Nat.not_le.mpr past.known
  rintro (mem | reading)
  · exact past.left (.inl ((stack id mem).resolve_right not_fresh))
  · exact past.left (.inr ((startTag id reading).resolve_right not_fresh))

end Rests

namespace Past

/-- A new element changes its parent only, and that is open or the root. -/
theorem node_openElement (past : b.Past id) (length start : Nat) :
    (b.openElement length start).node id = b.node id := by
  refine node_openElement_of_ne past.known ?_
  rintro rfl
  exact past.left (.inl (Nested.current_mem past.off_root))

/-- The start tag that is being read is not its own. -/
theorem node_of_editsStartTag (past : b.Past id) (edits : b.EditsStartTag b') :
    b'.node id = b.node id := by
  cases edits with
  | nothing => rfl
  | element own change reading nodes =>
    rw [node_congr nodes]
    refine node_modify_of_ne ?_ change
    rintro rfl
    exact past.left (.inr reading)

/-- An end tag reaches open elements only. -/
theorem node_endElement (past : b.Past id) (v : Vocabulary) (token : Token) :
    (b.endElement v token).node id = b.node id := by
  rcases endElement_cases v b token with stray | ⟨start, inner, own, outer, -, closes, taken⟩
  · rw [stray]
  · have not_open : id ∉ inner ++ own :: outer := closes.split ▸ fun mem => past.left (.inl mem)
    have other : id ≠ own := by
      rintro rfl
      exact not_open (by simp)
    rw [taken]
    exact (node_modify_of_ne other _).trans
      (node_cutOff_of_not_mem (fun mem => not_open (List.mem_append_left _ mem)) start)

/-- **Only the bracket of an end tag changes an element that has been left.** -/
theorem node_take (past : b.Past id) (v : Vocabulary) (length : Nat) {token : Token}
    (other : token.kind ≠ .endTagClose) : (b.take v length token).node id = b.node id := by
  unfold take
  generalize token.kind = kind at other
  cases kind with
  | startTagOpen => exact past.node_openElement length token.span.start
  | startTag => exact past.node_of_editsStartTag (edits_nameElement v token)
  | startTagClose => exact past.node_of_editsStartTag (edits_closeStartTag token)
  | startTagSelfClose => exact past.node_of_editsStartTag (edits_selfCloseElement token.span.stop)
  | attributeName => exact past.node_of_editsStartTag (edits_addAttribute token)
  | attributeValue => exact past.node_of_editsStartTag (edits_addValue token)
  | endTag => exact past.node_endElement v token
  | endTagClose => exact absurd rfl other
  | endComment | eof => exact congrFun (node_congr (nodes_endComment _ _)) id
  | _ => rfl

/-- A new element. -/
theorem rests_openElement (past : b.Past id) (length start : Nat) :
    b.Rests (b.openElement length start) id := by
  refine .of_node past (past.node_openElement length start) ?_ ?_ ?_ fun h => h
  · rw [size_openElement]
    exact Nat.le_succ _
  · intro j mem
    rcases List.mem_cons.mp mem with rfl | before
    · exact .inr (Nat.le_refl _)
    · exact .inl before
  · intro j reading
    exact .inr (Nat.le_of_eq (Option.some.inj reading))

/-- A token of a start tag. -/
theorem rests_of_editsStartTag (past : b.Past id) (edits : b.EditsStartTag b') : b.Rests b' id := by
  have node := past.node_of_editsStartTag edits
  cases edits with
  | nothing => exact .refl past
  | element own change reading nodes keeps stack startTag ended =>
    refine .of_node past node ?_ (fun j mem => .inl (stack mem)) ?_ (by rw [ended]; exact fun h => h)
    · rw [nodes, size_modify]
    · rintro j here
      rcases startTag with none_left | same
      · simp [none_left] at here
      · exact .inl (same ▸ here)

/-- The name of an end tag. -/
theorem rests_endElement (past : b.Past id) (v : Vocabulary) (token : Token) :
    b.Rests (b.endElement v token) id := by
  have node := past.node_endElement v token
  rcases endElement_cases v b token with stray | ⟨start, inner, own, outer, -, closes, taken⟩
  · rw [stray]
    exact .refl past
  · have other : id ≠ own := by
      rintro rfl
      exact past.left (.inl (by simp [closes.split]))
    rw [taken] at node ⊢
    refine .of_node past node ?_ ?_ ?_ (fun _ same => other (Option.some.inj same).symm)
    · exact Nat.le_of_eq ((size_modify _ _).trans (size_cutOff _ _)).symm
    · intro j mem
      rw [closes.split]
      exact .inl (List.mem_append_right _ (List.mem_cons_of_mem _ mem))
    · intro j reading
      exact .inl ((startTag_cutOff _ _).symm.trans reading)

/-- The bracket of an end tag. -/
theorem rests_closeEndTag (past : b.Past id) (stop : Nat) : b.Rests (b.closeEndTag stop) id := by
  unfold closeEndTag
  cases ended : b.ended with
  | none => exact .refl past
  | some own =>
    refine ⟨⟨?_, past.off_root, past.left⟩, ?_, fun other => ⟨by simp, ?_⟩⟩
    · rw [size_modify]
      exact past.known
    · by_cases same : id = own
      · -- This is the one case in which an end moves.
        refine ⟨stop, ?_⟩
        rw [node_modify (same ▸ past.known), if_pos same]
        rfl
      · exact ⟨_, node_modify_of_ne same _⟩
    · exact node_modify_of_ne (fun same => other (by rw [ended, same])) _

end Past

/-- **One token** leaves an element that is past as it is. -/
theorem rests_take (past : b.Past id) (v : Vocabulary) (length : Nat) (token : Token) :
    b.Rests (b.take v length token) id := by
  have comment (contentStop stop : Nat) : b.Rests (b.endComment contentStop stop) id := by
    refine .of_node past (congrFun (node_congr (nodes_endComment _ _)) id) ?_ ?_ ?_ ?_
    · rw [nodes_endComment]
    · rw [openElements_endComment]
      exact fun _ => .inl
    · rw [startTag_endComment]
      exact fun _ => .inl
    · rw [ended_endComment]
      exact fun h => h
  unfold take
  cases token.kind with
  | startTagOpen => exact past.rests_openElement length token.span.start
  | startTag => exact past.rests_of_editsStartTag (edits_nameElement v token)
  | startTagClose => exact past.rests_of_editsStartTag (edits_closeStartTag token)
  | startTagSelfClose => exact past.rests_of_editsStartTag (edits_selfCloseElement token.span.stop)
  | attributeName => exact past.rests_of_editsStartTag (edits_addAttribute token)
  | attributeValue => exact past.rests_of_editsStartTag (edits_addValue token)
  | endTagOpen =>
    exact .of_node past rfl (Nat.le_refl _) (fun _ => .inl) (fun _ none_read => by cases none_read)
      fun _ none_ended => by cases none_ended
  | endTag => exact past.rests_endElement v token
  | endTagClose => exact past.rests_closeEndTag token.span.stop
  | startComment | comment =>
    exact .of_node past rfl (Nat.le_refl _) (fun _ => .inl) (fun _ => .inl) fun h => h
  | endComment | eof => exact comment token.span.start token.span.stop
  | _ => exact .refl past

/-- **Any number of tokens** leaves an element that is past as it is. -/
theorem rests_foldl (past : b.Past id) (v : Vocabulary) (length : Nat) (tokens : List Token) :
    b.Rests (tokens.foldl (take v length) b) id := by
  induction tokens generalizing b with
  | nil => exact .refl past
  | cons token tokens ih =>
    have first := rests_take past v length token
    exact first.trans (ih first.past)

/-! ## End tags -/

/-- An element that answers to a name is an element of the array. -/
theorem Answers.known {v : Vocabulary} {token : Token} (h : b.Answers v token id) :
    id < b.nodes.size := by
  obtain ⟨tag, named, -⟩ := h
  by_contra outside
  simp [node, outside, Node.tag] at named

/-- The element that the name of an end tag has closed. -/
theorem node_of_ended_endElement {v : Vocabulary} {token : Token} (none_ended : b.ended = none)
    (ended : (b.endElement v token).ended = some id) :
    ∃ start n, (b.endElement v token).node id = closeWith start token.span n := by
  rcases endElement_cases v b token with stray | ⟨start, inner, own, outer, -, closes, taken⟩
  · rw [stray] at ended
    exact absurd (none_ended.symm.trans ended) nofun
  · have same : id = own := by
      rw [taken] at ended
      exact (Option.some.inj ended).symm
    subst same
    have inside : id < (b.cutOff inner start).nodes.size := by
      rw [size_cutOff]
      exact closes.answers.known
    refine ⟨start, (b.cutOff inner start).node id, ?_⟩
    rw [taken]
    exact (node_modify inside _ id).trans (if_pos rfl)

/-- The tokens of a start tag keep all end tags. -/
theorem EditsStartTag.endTag (h : b.EditsStartTag b') (j : NodeId) :
    (b'.node j).endTag = (b.node j).endTag := by
  cases h with
  | nothing => rfl
  | element own change reading nodes keeps =>
    rw [node_congr nodes]
    exact node_modify_keeps Node.endTag keeps own j

/-- The bracket of an end tag keeps all end tags. -/
theorem endTag_closeEndTag (stop : Nat) (j : NodeId) :
    ((b.closeEndTag stop).node j).endTag = (b.node j).endTag := by
  unfold closeEndTag
  cases b.ended with
  | none => rfl
  | some own =>
    apply node_modify_keeps Node.endTag
    exact fun _ => rfl

/-- The name of an end tag gives it to the element that it closes. -/
theorem endTag_endElement (v : Vocabulary) (token : Token) (j : NodeId) :
    ((b.endElement v token).node j).endTag = (b.node j).endTag ∨
      ∃ start inner outer, b.endTagStart = some start ∧ b.Closes v token inner j outer ∧
        ((b.endElement v token).node j).endTag = some ⟨start, token.span⟩ := by
  rcases endElement_cases v b token with stray | ⟨start, inner, own, outer, opening, closes, taken⟩
  · rw [stray]
    exact .inl rfl
  · have inside : own < (b.cutOff inner start).nodes.size := by
      rw [size_cutOff]
      exact closes.answers.known
    have node' : (b.endElement v token).node j =
        if j = own then closeWith start token.span ((b.cutOff inner start).node j)
        else (b.cutOff inner start).node j := by
      rw [taken]
      exact node_modify inside _ j
    by_cases same : j = own
    · subst same
      refine .inr ⟨start, inner, outer, opening, closes, ?_⟩
      rw [node', if_pos rfl]
      rfl
    · rw [node', if_neg same]
      exact .inl (endTag_cutOff inner start j)

/-- **Where end tags come from**: the name of an end tag gives it to the innermost open element that
answers to it, and no other token gives an end tag to an element. -/
theorem endTag_take (v : Vocabulary) (length : Nat) (token : Token) (j : NodeId) :
    ((b.take v length token).node j).endTag = (b.node j).endTag ∨
      token.kind = .endTag ∧ ∃ start inner outer, b.endTagStart = some start ∧
        b.Closes v token inner j outer ∧
        ((b.take v length token).node j).endTag = some ⟨start, token.span⟩ := by
  unfold take
  cases token.kind with
  | startTagOpen => exact .inl (endTag_openElement length token.span.start j)
  | startTag => exact .inl ((edits_nameElement v token).endTag j)
  | startTagClose => exact .inl ((edits_closeStartTag token).endTag j)
  | startTagSelfClose => exact .inl ((edits_selfCloseElement token.span.stop).endTag j)
  | attributeName => exact .inl ((edits_addAttribute token).endTag j)
  | attributeValue => exact .inl ((edits_addValue token).endTag j)
  | endTag => exact (endTag_endElement v token j).imp_right fun given => ⟨rfl, given⟩
  | endTagClose => exact .inl (endTag_closeEndTag token.span.stop j)
  | endComment | eof =>
    refine .inl ?_
    dsimp only
    rw [node_congr (nodes_endComment _ _)]
  | _ => exact .inl rfl

end Builder

end MarkupAnalysis
