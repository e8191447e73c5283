import MarkupAnalysis.Proofs.Document.Recovery

/-! # What one token does to a node

Each token changes few nodes, and each of them in one of few ways. What is proved of the nodes of whole
texts is proved once for each way.

* **`Builder.NodeStep`** — the ways in which a token changes a node.
* **`Builder.nodeStep_take`** — there are no others.
* **`Builder.startTag_take`** — which start tag is being read.
* **`Document.node_parse_of_ended`** — what the end of the text does to them. -/

namespace MarkupAnalysis

namespace Builder

variable {v : Vocabulary} {b b' : Builder} {length frontier : Nat} {token : Token} {id : NodeId}

/-- **What one token may make of a node.** -/
inductive NodeStep (v : Vocabulary) (length : Nat) (b : Builder) (token : Token) (id : NodeId) :
    Node → Prop
  /-- The node stays as it is. -/
  | keeps (known : id < b.nodes.size) : NodeStep v length b token id (b.node id)
  /-- The `<` of a start tag makes a new node. -/
  | opens (kind : token.kind = .startTagOpen) (fresh : id = b.nodes.size) :
      NodeStep v length b token id (b.opened length token.span.start)
  /-- The node around a new one names it as a child. -/
  | adopts (kind : token.kind = .startTagOpen) (known : id < b.nodes.size) (children : Array NodeId) :
      NodeStep v length b token id { b.node id with children }
  /-- The name of the start tag. -/
  | names (kind : token.kind = .startTag) (reading : b.startTag = some id) (closed : Bool) :
      NodeStep v length b token id
        { b.node id with name := some ⟨token.text, token.span⟩, closed }
  /-- The start tag is interrupted. -/
  | interrupts (kind : token.kind = .startTagClose) (reading : b.startTag = some id) :
      NodeStep v length b token id { b.node id with stop := token.span.stop }
  /-- The `>` of the start tag. -/
  | endsStartTag (kind : token.kind = .startTagClose) (reading : b.startTag = some id)
      (some_text : token.span.isEmpty = false) :
      NodeStep v length b token id
        { b.node id with stop := token.span.stop, startTagEnd := some token.span.stop }
  /-- The `/>` of the start tag. -/
  | selfCloses (kind : token.kind = .startTagSelfClose) (reading : b.startTag = some id) :
      NodeStep v length b token id
        { b.node id with
          stop := token.span.stop
          startTagEnd := some token.span.stop
          closed := true
          selfClosing := true }
  /-- The name of an attribute. -/
  | addsAttribute (kind : token.kind = .attributeName) (reading : b.startTag = some id) :
      NodeStep v length b token id
        { b.node id with
          attributes := (b.node id).attributes.push { name := token.text, nameSpan := token.span } }
  /-- The value of the latest attribute. -/
  | addsValue (kind : token.kind = .attributeValue) (reading : b.startTag = some id) :
      NodeStep v length b token id
        { b.node id with
          attributes :=
            (b.node id).attributes.modify ((b.node id).attributes.size - 1) (giveValue token) }
  /-- An end tag closes an element around the node. -/
  | cutsOff (kind : token.kind = .endTag) (start : Nat) (mem : id ∈ b.openElements)
      (opening : b.endTagStart = some start) :
      NodeStep v length b token id (cut start (b.node id))
  /-- An end tag closes the node. -/
  | closes (kind : token.kind = .endTag) {start : Nat} (opening : b.endTagStart = some start)
      (mem : id ∈ b.openElements) (answers : b.Answers v token id) :
      NodeStep v length b token id (closeWith start token.span (b.node id))
  /-- The `>` of the end tag that has closed the node. -/
  | endsEndTag (kind : token.kind = .endTagClose) (ended : b.ended = some id) :
      NodeStep v length b token id { b.node id with stop := token.span.stop }

/-- A change of one node. -/
theorem nodeStep_modify {change : Node → Node} {own : NodeId}
    (nodes : b'.nodes = (b.modify own change).nodes)
    (step : NodeStep v length b token own (change (b.node own))) (known : id < b'.nodes.size) :
    NodeStep v length b token id (b'.node id) := by
  rw [nodes, size_modify] at known
  rw [node_congr nodes]
  by_cases same : id = own
  · subst same
    rw [node_modify known, if_pos rfl]
    exact step
  · rw [node_modify_of_ne same]
    exact .keeps known

/-- A change of the element whose start tag is being read, if there is one. -/
theorem nodeStep_editStartTag (nothing : b.startTag = none → b' = b)
    (edit : ∀ own, b.startTag = some own → ∃ change : Node → Node,
      b'.nodes = (b.modify own change).nodes ∧ NodeStep v length b token own (change (b.node own)))
    (known : id < b'.nodes.size) : NodeStep v length b token id (b'.node id) := by
  cases reading : b.startTag with
  | none =>
    rw [nothing reading] at known ⊢
    exact .keeps known
  | some own =>
    obtain ⟨change, nodes, step⟩ := edit own reading
    exact nodeStep_modify nodes step known

/-! ## One lemma for each operation -/

/-- A new element. -/
theorem nodeStep_openElement (nested : b.Nested length frontier) (kind : token.kind = .startTagOpen)
    (known : id < (b.openElement length token.span.start).nodes.size) :
    NodeStep v length b token id ((b.openElement length token.span.start).node id) := by
  rw [node_openElement nested.current_lt_size]
  split_ifs with fresh top
  · exact .opens kind fresh
  · exact .adopts kind (top ▸ nested.current_lt_size) _
  · exact .keeps ((lt_size_openElement known).resolve_left fresh)

/-- The name of the start tag. -/
theorem nodeStep_nameElement (kind : token.kind = .startTag)
    (known : id < (b.nameElement v token).nodes.size) :
    NodeStep v length b token id ((b.nameElement v token).node id) := by
  refine nodeStep_editStartTag ?_ ?_ known
  · intro none_read
    simp only [nameElement, none_read]
  · intro own reading
    refine ⟨fun n => { n with
      name := some ⟨token.text, token.span⟩
      closed := n.closed || v.isVoid token.text }, ?_, .names kind reading _⟩
    simp only [nameElement, reading]
    split
    · exact nodes_leave _
    · rfl

/-- The end of the start tag, or its interruption. -/
theorem nodeStep_closeStartTag (kind : token.kind = .startTagClose)
    (known : id < (b.closeStartTag token).nodes.size) :
    NodeStep v length b token id ((b.closeStartTag token).node id) := by
  refine nodeStep_editStartTag ?_ ?_ known
  · intro none_read
    simp only [closeStartTag, none_read]
  · intro own reading
    simp only [closeStartTag, reading]
    cases some_text : token.span.isEmpty with
    | true => exact ⟨_, nodes_leave _, .interrupts kind reading⟩
    | false =>
      refine ⟨fun n => { n with stop := token.span.stop, startTagEnd := some token.span.stop }, ?_,
        .endsStartTag kind reading some_text⟩
      rw [if_neg (by simp)]
      split
      · exact nodes_leave _
      · rfl

/-- The `/>` of the start tag. -/
theorem nodeStep_selfCloseElement (kind : token.kind = .startTagSelfClose)
    (known : id < (b.selfCloseElement token.span.stop).nodes.size) :
    NodeStep v length b token id ((b.selfCloseElement token.span.stop).node id) := by
  refine nodeStep_editStartTag ?_ ?_ known
  · intro none_read
    simp only [selfCloseElement, none_read]
  · intro own reading
    simp only [selfCloseElement, reading]
    exact ⟨_, nodes_leave _, .selfCloses kind reading⟩

/-- The name of an attribute. -/
theorem nodeStep_addAttribute (kind : token.kind = .attributeName)
    (known : id < (b.addAttribute token).nodes.size) :
    NodeStep v length b token id ((b.addAttribute token).node id) := by
  refine nodeStep_editStartTag ?_ ?_ known
  · intro none_read
    simp only [addAttribute, none_read]
  · intro own reading
    simp only [addAttribute, reading]
    exact ⟨_, rfl, .addsAttribute kind reading⟩

/-- The value of an attribute. -/
theorem nodeStep_addValue (kind : token.kind = .attributeValue)
    (known : id < (b.addValue token).nodes.size) :
    NodeStep v length b token id ((b.addValue token).node id) := by
  refine nodeStep_editStartTag ?_ ?_ known
  · intro none_read
    simp only [addValue, none_read]
  · intro own reading
    simp only [addValue, reading]
    exact ⟨_, rfl, .addsValue kind reading⟩

/-- The name of an end tag. -/
theorem nodeStep_endElement (nested : b.Nested length frontier) (kind : token.kind = .endTag)
    (known : id < (b.endElement v token).nodes.size) :
    NodeStep v length b token id ((b.endElement v token).node id) := by
  rcases endElement_cases v b token with stray | ⟨start, inner, own, outer, opening, closes, taken⟩
  · rw [stray] at known ⊢
    exact .keeps known
  · have still_open : ∀ i ∈ inner, i ∈ b.openElements := fun i mem => by simp [closes.split, mem]
    have own_open : own ∈ b.openElements := by simp [closes.split]
    have node' : (b.endElement v token).node id =
        if id = own then closeWith start token.span (b.node id)
        else if id ∈ inner then cut start (b.node id) else b.node id := by
      rw [taken]
      exact node_closeWith (fun i mem => nested.lt_size (still_open i mem)) (nested.lt_size own_open)
        (nested.split_apart closes.split).1 id
    rw [node']
    split_ifs with same in_inner
    · subst same
      exact .closes kind opening own_open closes.answers
    · exact .cutsOff kind start (still_open id in_inner) opening
    · exact .keeps (by simpa [taken] using known)

/-- The bracket of an end tag. -/
theorem nodeStep_closeEndTag (kind : token.kind = .endTagClose)
    (known : id < (b.closeEndTag token.span.stop).nodes.size) :
    NodeStep v length b token id ((b.closeEndTag token.span.stop).node id) := by
  unfold closeEndTag at known ⊢
  cases ended : b.ended with
  | none =>
    rw [ended] at known
    exact .keeps known
  | some own =>
    rw [ended] at known
    exact nodeStep_modify rfl (.endsEndTag kind ended) known

/-- **What one token makes of the nodes.** -/
theorem nodeStep_take (nested : b.Nested length frontier) (v : Vocabulary) (token : Token)
    (known : id < (b.take v length token).nodes.size) :
    NodeStep v length b token id ((b.take v length token).node id) := by
  unfold take at known ⊢
  cases kind : token.kind with
  | startTagOpen => exact nodeStep_openElement nested kind (by rwa [kind] at known)
  | startTag => exact nodeStep_nameElement kind (by rwa [kind] at known)
  | startTagClose => exact nodeStep_closeStartTag kind (by rwa [kind] at known)
  | startTagSelfClose => exact nodeStep_selfCloseElement kind (by rwa [kind] at known)
  | attributeName => exact nodeStep_addAttribute kind (by rwa [kind] at known)
  | attributeValue => exact nodeStep_addValue kind (by rwa [kind] at known)
  | endTag => exact nodeStep_endElement nested kind (by rwa [kind] at known)
  | endTagClose => exact nodeStep_closeEndTag kind (by rwa [kind] at known)
  | endComment | eof =>
    rw [kind] at known
    dsimp only at known ⊢
    rw [nodes_endComment] at known
    rw [node_congr (nodes_endComment _ _)]
    exact .keeps known
  | _ => exact .keeps (by rwa [kind] at known)

/-- The bracket of an end tag comes behind its name, if it closes an element. -/
theorem Stands.justEnded_of_endTagClose {s : Tokenizer} (stands : b.Stands length s.mode s.position)
    (kind : s.token.kind = .endTagClose) (ended : b.ended = some id) :
    s.mode = .endTag ∧ b.JustEnded id := by
  have reads := Tokenizer.reads (Tokenizer.ahead_ne_nil kind (by decide))
  rw [kind] at reads
  generalize s.mode = m, s.rest.mode = m' at reads stands
  cases reads with
  | endTagEnds inside =>
    cases m with
    | endTagOpened => exact absurd (stands.2.1.symm.trans ended) nofun
    | endTag => exact ⟨rfl, stands.2.1 id ended⟩
    | _ => cases inside

/-- At the name of an end tag the start tags of all open elements are complete. -/
theorem Stands.exists_startTagEnd {s : Tokenizer} (stands : b.Stands length s.mode s.position)
    (kind : s.token.kind = .endTag) (still_open : id ∈ b.openElements) :
    ∃ e, (b.node id).startTagEnd = some e := by
  obtain ⟨frontier, -, nested⟩ := stands.exists_nested
  rw [Tokenizer.mode_of_endTag kind] at stands
  have none_read : b.startTag = none := stands.1
  obtain ⟨e, ends, -⟩ := nested.openTag id still_open (by rw [none_read]; exact (Option.some_ne_none id).symm)
  exact ⟨e, ends⟩

/-! ## The start tag that is being read -/

/-- A start tag is being read in the modes of start tags only. -/
theorem Stands.inStartTag {m : Mode} {position : Nat} (stands : b.Stands length m position)
    (reading : b.startTag = some id) : m.inStartTag := by
  cases m with
  | startTagOpened | startTag | attributeName | attributeValue => rfl
  | _ => exact absurd (stands.1.symm.trans reading) nofun

/-- Blanks, `=` and characters that fit nowhere change nothing. -/
theorem take_filler (kind : token.kind = .whitespace ∨ token.kind = .unknown ∨
    token.kind = .delimiterAssign) : b.take v length token = b := by
  unfold take
  rcases kind with kind | kind | kind <;> rw [kind]

/-- The start tag that is being read has just been opened, or it was being read before. -/
theorem startTag_take (reading : (b.take v length token).startTag = some id) :
    token.kind = .startTagOpen ∧ id = b.nodes.size ∨ b.startTag = some id := by
  have edits {b' : Builder} (edits : b.EditsStartTag b') (here : b'.startTag = some id) :
      b.startTag = some id := by
    cases edits with
    | nothing => exact here
    | element _ _ _ _ _ _ startTag =>
      rcases startTag with none_left | same
      · exact absurd (none_left.symm.trans here) nofun
      · exact same.symm.trans here
  unfold take at reading
  cases kind : token.kind with rw [kind] at reading
  | startTagOpen => exact .inl ⟨rfl, (Option.some.inj reading).symm⟩
  | startTag => exact .inr (edits (edits_nameElement v token) reading)
  | startTagClose => exact .inr (edits (edits_closeStartTag token) reading)
  | startTagSelfClose => exact .inr (edits (edits_selfCloseElement token.span.stop) reading)
  | attributeName => exact .inr (edits (edits_addAttribute token) reading)
  | attributeValue => exact .inr (edits (edits_addValue token) reading)
  | endTagOpen => cases reading
  | endTag =>
    rcases endElement_cases v b token with stray | ⟨start, inner, own, outer, -, -, taken⟩
    · exact .inr (stray ▸ reading)
    · dsimp only at reading
      rw [taken] at reading
      exact .inr ((startTag_cutOff inner start).symm.trans reading)
  | endTagClose =>
    dsimp only [closeEndTag] at reading
    split at reading <;> exact .inr reading
  | endComment | eof => exact .inr ((startTag_endComment _ _).symm.trans reading)
  | _ => exact .inr reading

/-- The element with one more attribute. -/
theorem node_take_attributeName (kind : token.kind = .attributeName) (reading : b.startTag = some id)
    (inside : id < b.nodes.size) :
    (b.take v length token).node id = { b.node id with
      attributes := (b.node id).attributes.push { name := token.text, nameSpan := token.span } } := by
  rw [take, kind]
  simp only [addAttribute, reading]
  rw [node_modify inside, if_pos rfl]

end Builder

/-! ## The end of the text -/

namespace Document

variable {v : Vocabulary} {t : Text} {s : Tokenizer} {passed : List Token}

/-- The builder after the last token, which ends a comment at most. -/
theorem built_tokensOf_of_ended (h : (scanner v t).Passes passed s) (ended : s.ahead = []) :
    built v t (tokensOf v t) =
      (built v t passed).endComment s.token.span.start s.token.span.stop := by
  have tokens : tokensOf v t = passed ++ [s.token] := by
    rw [← Tokenizer.tokens_of_ahead_eq_nil ended]
    exact h.tokens_eq
  rw [tokens, built_concat, Builder.take, Tokenizer.token_kind_eq_eof_iff.mpr ended]

/-- The end of the text makes no node. -/
theorem size_parse_of_ended (h : (scanner v t).Passes passed s) (ended : s.ahead = []) :
    (parse v t).nodes.size = (built v t passed).nodes.size := by
  rw [parse_eq, Builder.finish, Builder.size_cutOff, built_tokensOf_of_ended h ended]
  exact congrArg Array.size (Builder.nodes_endComment _ _)

/-- **The end of the text** cuts off the elements that are still open. -/
theorem node_parse_of_ended (h : (scanner v t).Passes passed s) (ended : s.ahead = []) (id : NodeId) :
    (parse v t).node id = if id ∈ (built v t passed).openElements
      then Builder.cut t.byteLength ((built v t passed).node id) else (built v t passed).node id := by
  obtain ⟨frontier, -, nested⟩ := exists_nested_built v t
  have stack : (built v t (tokensOf v t)).openElements = (built v t passed).openElements := by
    rw [built_tokensOf_of_ended h ended]
    exact Builder.openElements_endComment _ _
  have node : (parse v t).node id = ((built v t (tokensOf v t)).cutOff
      (built v t (tokensOf v t)).openElements t.byteLength).node id := rfl
  rw [node, Builder.node_cutOff fun _ => nested.lt_size, stack, node_built_of_ended h ended]

end Document

end MarkupAnalysis
