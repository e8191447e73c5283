import MarkupAnalysis.Proofs.Document.Marks
import MarkupAnalysis.Proofs.Document.OpaqueBody
import MarkupAnalysis.Proofs.Document.Recovery
import MarkupAnalysis.Proofs.Document.Steps

/-! # How elements end without being closed

An element leaves the open ones at the end of its start tag or at an end tag. If it has a name and is not
closed by what it leaves at, its start tag is interrupted, or the end tag closes an element around it.

* **`Builder.leaves_of_take`** — the tokens at which an element is left.
* **`Document.readsInnermost_built`** — the start tag that is being read is that of the innermost element.
* **`Document.endsUnclosed_of_past`** — how an element that is no longer open has ended unclosed. -/

namespace MarkupAnalysis

/-- Tags open between tags. -/
theorem Mode.Reads.outside_of_opens {m m' : Mode} {kind : TokenKind} (reads : m.Reads kind m')
    (opens : kind = .startTagOpen ∨ kind = .endTagOpen) : m.betweenTags := by
  rcases opens with rfl | rfl
  · cases reads
    assumption
  · cases reads
    assumption

namespace Builder

variable {v : Vocabulary} {b b' : Builder} {length : Nat} {token : Token} {id : NodeId}

/-! ## One token -/

/-- **How an element is left**: by the end of its start tag or by an end tag. -/
inductive Leaves (v : Vocabulary) (b : Builder) (token : Token) (id : NodeId) : Prop
  /-- Its start tag ends or is interrupted. -/
  | startTagClose (kind : token.kind = .startTagClose) (reading : b.startTag = some id)
  /-- Its start tag is the whole element. -/
  | selfCloses (kind : token.kind = .startTagSelfClose) (reading : b.startTag = some id)
  /-- An end tag closes it, or an element around it. -/
  | endTag (kind : token.kind = .endTag) {start own : Nat} {inner outer : List NodeId}
      (opening : b.endTagStart = some start) (closes : b.Closes v token inner own outer)
      (mem : id ∈ inner ∨ id = own)

/-- What happens to the start tag of one element leaves the others where they are. -/
theorem Pending.of_ne {own : NodeId} (pending : b.Pending id) (reading : b.startTag = some own)
    (other : id ≠ own)
    (stack : b'.openElements = b.openElements ∨ b'.openElements = (b.leave own).openElements) :
    b'.Pending id := by
  have mem := pending.resolve_right fun own_tag => other (Option.some.inj (own_tag.symm.trans reading))
  refine .inl ?_
  rcases stack with same | stack
  · exact same ▸ mem
  · rw [stack, openElements_leave]
    split_ifs with top
    · obtain ⟨others, split⟩ := List.head?_eq_some_iff.mp top
      rw [split] at mem ⊢
      exact (List.mem_cons.mp mem).resolve_left other
    · exact mem

/-- The name of a start tag leaves no element behind: what it is the name of goes on being read. -/
theorem Pending.nameElement (pending : b.Pending id) (v : Vocabulary) (token : Token) :
    (b.nameElement v token).Pending id := by
  cases reading : b.startTag with
  | none =>
    rw [Builder.nameElement, reading]
    exact pending
  | some own =>
    by_cases same : id = own
    · refine .inr ?_
      rw [startTag_nameElement, reading, same]
    · refine pending.of_ne reading same ?_
      simp only [Builder.nameElement, reading]
      split
      · exact .inr (openElements_leave_congr rfl)
      · exact .inl rfl

/-- The end of a start tag leaves no element behind but the one that it ends. -/
theorem Pending.closeStartTag (pending : b.Pending id) (token : Token) :
    b.startTag = some id ∨ (b.closeStartTag token).Pending id := by
  cases reading : b.startTag with
  | none =>
    refine .inr ?_
    rw [Builder.closeStartTag, reading]
    exact pending
  | some own =>
    refine or_iff_not_imp_left.mpr fun other => pending.of_ne reading (fun same => other (by rw [same])) ?_
    simp only [Builder.closeStartTag, reading]
    split_ifs
    · exact .inr (openElements_leave_congr rfl)
    · exact .inr (openElements_leave_congr rfl)
    · exact .inl rfl

/-- The end of a start tag that is the whole element leaves no element behind but that one. -/
theorem Pending.selfCloseElement (pending : b.Pending id) (stop : Nat) :
    b.startTag = some id ∨ (b.selfCloseElement stop).Pending id := by
  cases reading : b.startTag with
  | none =>
    refine .inr ?_
    rw [Builder.selfCloseElement, reading]
    exact pending
  | some own =>
    refine or_iff_not_imp_left.mpr fun other => pending.of_ne reading (fun same => other (by rw [same])) ?_
    simp only [Builder.selfCloseElement, reading]
    exact .inr (openElements_leave_congr rfl)

/-- **Every token**: what it leaves behind it leaves in one of these ways. -/
theorem leaves_of_take (none_read : token.kind = .startTagOpen ∨ token.kind = .endTagOpen →
    b.startTag = none) (pending : b.Pending id) (left : ¬ (b.take v length token).Pending id) :
    b.Leaves v token id := by
  have stays {c : Builder} (stack : c.openElements = b.openElements) (startTag : c.startTag = b.startTag) :
      c.Pending id := by
    unfold Pending
    rw [stack, startTag]
    exact pending
  -- Where a tag opens no start tag is being read, so the element is on the stack.
  have on_stack (opens : token.kind = .startTagOpen ∨ token.kind = .endTagOpen) : id ∈ b.openElements :=
    pending.resolve_right fun reading => absurd ((none_read opens).symm.trans reading) nofun
  unfold take at left
  cases kind : token.kind with rw [kind] at left
  | startTagOpen => exact absurd (.inl (List.mem_cons_of_mem _ (on_stack (.inl kind)))) left
  | startTag => exact absurd (pending.nameElement v token) left
  | startTagClose => exact .startTagClose kind ((pending.closeStartTag token).resolve_right left)
  | startTagSelfClose => exact .selfCloses kind ((pending.selfCloseElement token.span.stop).resolve_right left)
  | attributeName =>
    refine absurd (stays ?_ ?_) left <;> dsimp only [addAttribute] <;> split <;> rfl
  | attributeValue =>
    refine absurd (stays ?_ ?_) left <;> dsimp only [addValue] <;> split <;> rfl
  | endTagOpen => exact absurd (.inl (on_stack (.inr kind))) left
  | endTag =>
    rcases endElement_cases v b token with stray | ⟨start, inner, own, outer, opening, closes, taken⟩
    · rw [stray] at left
      exact absurd pending left
    · refine .endTag kind opening closes ?_
      -- What is farther out than the element that is closed stays on the stack.
      by_contra out
      rw [taken] at left
      rcases pending with mem | reading
      · rw [closes.split, List.mem_append, List.mem_cons, ← or_assoc] at mem
        exact left (.inl (mem.resolve_left out))
      · exact left (.inr ((startTag_cutOff inner start).trans reading))
  | endTagClose =>
    refine absurd (stays ?_ ?_) left <;> dsimp only [closeEndTag] <;> split <;> rfl
  | endComment | eof =>
    exact absurd (stays (openElements_endComment _ _) (startTag_endComment _ _)) left
  | _ => exact absurd pending left

/-- A new element is open. -/
theorem pending_of_fresh (known : id < (b.take v length token).nodes.size)
    (fresh : ¬ id < b.nodes.size) : (b.take v length token).Pending id := by
  by_cases kind : token.kind = .startTagOpen
  · rw [take, kind] at known ⊢
    rw [size_openElement] at known
    refine .inr ?_
    rw [Nat.le_antisymm (Nat.le_of_lt_succ known) (Nat.le_of_not_lt fresh)]
    exact startTag_openElement _ _
  · have sizes := congrArg Array.size (@settles_take b v length token kind).links
    rw [links, links, Array.size_map, Array.size_map] at sizes
    exact absurd (sizes ▸ known) fresh

/-- An interrupted start tag leaves its element. -/
theorem node_closeStartTag_of_isEmpty (reading : b.startTag = some id) (inside : id < b.nodes.size)
    (empty : token.span.isEmpty = true) :
    (b.closeStartTag token).node id = { b.node id with stop := token.span.stop } := by
  have nodes : (b.closeStartTag token).nodes =
      (b.modify id fun n => { n with stop := token.span.stop }).nodes := by
    simp only [closeStartTag, reading]
    rw [if_pos empty]
    exact nodes_leave _
  rw [node_congr nodes, node_modify inside, if_pos rfl]

/-- The `>` of a start tag leaves its element if it has no name. -/
theorem closeStartTag_of_some_text (reading : b.startTag = some id) (inside : id < b.nodes.size)
    (some_text : token.span.isEmpty = false) :
    (b.closeStartTag token).node id =
        { b.node id with stop := token.span.stop, startTagEnd := some token.span.stop } ∧
      ((b.node id).name ≠ none → (b.closeStartTag token).openElements = b.openElements) := by
  have nodes : (b.closeStartTag token).nodes = (b.modify id fun n =>
      { n with stop := token.span.stop, startTagEnd := some token.span.stop }).nodes := by
    simp only [closeStartTag, reading]
    rw [if_neg (by simp [some_text])]
    split
    · exact nodes_leave _
    · rfl
  refine ⟨?_, fun named => ?_⟩
  · rw [node_congr nodes, node_modify inside, if_pos rfl]
  · have named : ¬ b.nodes[id]?.any (·.name.isNone) = true := fun nameless =>
      named ((nameless_iff inside).mp nameless)
    simp only [closeStartTag, reading]
    rw [if_neg (by simp [some_text]), if_neg named]
    rfl

/-- An element whose start tag is all of it is closed. -/
theorem closed_selfCloseElement (reading : b.startTag = some id) (inside : id < b.nodes.size)
    (stop : Nat) : ((b.selfCloseElement stop).node id).closed = true := by
  have nodes : (b.selfCloseElement stop).nodes = (b.modify id fun n =>
      { n with stop, startTagEnd := some stop, closed := true, selfClosing := true }).nodes := by
    simp only [selfCloseElement, reading]
    exact nodes_leave _
  rw [node_congr nodes, node_modify inside, if_pos rfl]

/-- An element that an end tag closes is closed. -/
theorem Closes.closed_endElement {frontier : Nat} {inner outer : List NodeId}
    (closes : b.Closes v token inner id outer) (nested : b.Nested length frontier) {start : Nat}
    (opening : b.endTagStart = some start) : ((b.endElement v token).node id).closed = true := by
  rw [endElement_of_closes opening closes]
  have own : id ∈ b.openElements := by simp [closes.split]
  have cut : (b.cutOff inner start).nodes.size = b.nodes.size := size_cutOff inner start
  have closed : (((b.cutOff inner start).modify id (closeWith start token.span)).node id).closed = true := by
    rw [node_modify (cut ▸ nested.lt_size own), if_pos rfl]
    rfl
  exact closed

/-- The element whose start tag is being read is the innermost open one, unless it is void. -/
def ReadsInnermost (v : Vocabulary) (b : Builder) : Prop := ∀ id, b.startTag = some id →
  b.openElements.head? = some id ∨ (b.node id).isVoid v = true

theorem readsInnermost_of_none (none_read : b.startTag = none) : b.ReadsInnermost v :=
  fun _ reading => absurd (none_read.symm.trans reading) nofun

/-- The start tag goes on. -/
theorem ReadsInnermost.of_tag (h : b.ReadsInnermost v) (stack : b'.openElements = b.openElements)
    (startTag : b'.startTag = b.startTag) (tag : ∀ id, (b'.node id).tag = (b.node id).tag) :
    b'.ReadsInnermost v := by
  intro id reading
  rw [stack, Node.isVoid, tag]
  exact h id (startTag ▸ reading)

/-- The name of the start tag. -/
theorem readsInnermost_nameElement {frontier : Nat} (h : b.ReadsInnermost v)
    (nested : b.Nested length frontier) (nameless : ∀ id, b.startTag = some id → (b.node id).name = none)
    (token : Token) : (b.nameElement v token).ReadsInnermost v := by
  intro id reading
  rw [startTag_nameElement] at reading
  have inside := (nested.reading id reading).1
  simp only [nameElement, reading]
  split_ifs with void
  · refine .inr ?_
    rw [node_congr (nodes_leave _), node_modify inside, if_pos rfl]
    exact void
  · refine (h id reading).imp_right fun void => ?_
    rw [Node.isVoid, Node.tag, nameless id reading] at void
    cases void

theorem readsInnermost_addAttribute (h : b.ReadsInnermost v) (token : Token) :
    (b.addAttribute token).ReadsInnermost v := by
  unfold addAttribute
  split
  · exact h
  · exact h.of_tag rfl rfl fun id => node_modify_keeps Node.tag (fun _ => by rfl) _ id

theorem readsInnermost_addValue (h : b.ReadsInnermost v) (token : Token) :
    (b.addValue token).ReadsInnermost v := by
  unfold addValue
  split
  · exact h
  · exact h.of_tag rfl rfl fun id => node_modify_keeps Node.tag (fun _ => by rfl) _ id

/-- **Every token keeps it so** that the start tag being read is that of the innermost open element. -/
theorem readsInnermost_take {m m' : Mode} {position : Nat} (h : b.ReadsInnermost v)
    (stands : b.Stands length m position) (marked : b.Marked v m) (reads : m.Reads token.kind m')
    (advance : position ≤ token.span.stop) : (b.take v length token).ReadsInnermost v := by
  obtain ⟨frontier, reached, nested⟩ := stands.exists_nested
  have advance := Nat.le_trans reached advance
  have keeps (none_read : b.startTag = none) (other : token.kind ≠ .startTagOpen) :
      (b.take v length token).ReadsInnermost v := by
    intro id reading
    rcases startTag_take reading with ⟨kind, -⟩ | reading
    · exact absurd kind other
    · exact absurd (none_read.symm.trans reading) nofun
  unfold take at keeps ⊢
  cases kind : token.kind with rw [kind] at reads keeps
  | startTagOpen => exact fun id reading => .inl reading
  | startTag =>
    cases reads
    exact readsInnermost_nameElement h nested (fun id reading => (marked.reading id reading).2 rfl) token
  | startTagClose => exact readsInnermost_of_none (nested_closeStartTag nested advance).1
  | startTagSelfClose => exact readsInnermost_of_none (nested_selfCloseElement nested advance).1
  | endTagOpen => exact readsInnermost_of_none rfl
  | endTag =>
    cases reads
    exact keeps stands.1 nofun
  | endTagClose =>
    cases reads with
    | endTagEnds inside =>
      cases m with
      | endTagOpened | endTag => exact keeps stands.1 nofun
      | _ => cases inside
  | attributeName => exact readsInnermost_addAttribute h token
  | attributeValue => exact readsInnermost_addValue h token
  | endComment | eof =>
    exact h.of_tag (openElements_endComment _ _) (startTag_endComment _ _) fun id => by
      rw [node_congr (nodes_endComment _ _)]
  | _ => exact h

end Builder

namespace Document

variable {v : Vocabulary} {t : Text} {s : Tokenizer} {passed : List Token} {id : NodeId}

/-- **The element whose start tag is being read** is the innermost open one, unless it is void. -/
theorem readsInnermost_built (h : (scanner v t).Passes passed s) :
    (built v t passed).ReadsInnermost v := by
  refine h.along (P := fun passed _ => (built v t passed).ReadsInnermost v) ?_ ?_
  · exact Builder.readsInnermost_of_none rfl
  · intro passed s passes some_ahead so_far
    rw [built_concat]
    exact Builder.readsInnermost_take so_far (stands_built passes) (marked_built passes)
      (Tokenizer.reads some_ahead) Tokenizer.position_le_rest

/-! ## Elements that are left without being closed -/

/-- **How an element ends without being closed**: its start tag is interrupted, or an end tag closes an
element around it. -/
inductive EndsUnclosed (v : Vocabulary) (t : Text) (passed : List Token) (id : NodeId) (n : Node) : Prop
  /-- Its start tag is interrupted. -/
  | interrupted (no_end : n.startTagEnd = none) {token : Token} (mem : token ∈ passed)
      (interrupts : token.Interrupts) (behind : n.start ≤ token.span.start)
  /-- An end tag closes an element around it. -/
  | cutOff {before : List Token} {start own : Nat} {token : Token} {inner outer : List NodeId}
      (endTag : EndTagIn passed before start token)
      (closes : (built v t before).Closes v token inner own outer) (mem : id ∈ inner)

/-- Later tokens do not matter. -/
theorem EndsUnclosed.mono {n n' : Node} {token : Token} (h : EndsUnclosed v t passed id n)
    (start : n'.start = n.start) (startTagEnd : n'.startTagEnd = n.startTagEnd) :
    EndsUnclosed v t (passed ++ [token]) id n' := by
  cases h with
  | interrupted no_end mem interrupts behind =>
    exact .interrupted (startTagEnd.trans no_end) (List.mem_append_left _ mem) interrupts (start ▸ behind)
  | cutOff endTag closes mem => exact .cutOff (endTag.mono (List.prefix_append _ _)) closes mem

/-- **The end of the start tag** leaves an element without closing it if it is interrupted. -/
theorem endsUnclosed_closeStartTag (passes : (scanner v t).Passes passed s) (kind : s.token.kind = .startTagClose)
    (reading : (built v t passed).startTag = some id)
    (left : ¬ ((built v t passed).closeStartTag s.token).Pending id)
    (named : (((built v t passed).closeStartTag s.token).node id).name ≠ none)
    (unclosed : (((built v t passed).closeStartTag s.token).node id).closed = false) :
    EndsUnclosed v t (passed ++ [s.token]) id (((built v t passed).closeStartTag s.token).node id) := by
  obtain ⟨frontier, reached, nested⟩ := (stands_built passes).exists_nested
  obtain ⟨inside, off_root, -, no_end, -⟩ := nested.reading id reading
  cases empty : s.token.span.isEmpty with
  | true =>
    rw [Builder.node_closeStartTag_of_isEmpty reading inside empty]
    refine .interrupted no_end (List.mem_append_right _ (List.mem_singleton.mpr rfl)) ?_ ?_
    · refine (s.token_isEmpty_iff.mp empty).resolve_left fun eof => ?_
      rw [kind] at eof
      cases eof
    · exact (nested.start_le inside).trans reached
  | false =>
    -- A void element is closed, and any other one with a name stays open.
    obtain ⟨node, stack⟩ := Builder.closeStartTag_of_some_text reading inside empty
    rw [node] at named unclosed
    rcases readsInnermost_built passes id reading with top | void
    · refine absurd (.inl ?_) left
      rw [stack named]
      exact List.mem_of_head? top
    · have closed := ((marked_built passes).nodes id inside off_root).closed.mpr (.inl void)
      exact absurd (unclosed.symm.trans closed) Bool.false_ne_true

/-- **The token that leaves an element** which it does not close. -/
theorem endsUnclosed_of_leaves (passes : (scanner v t).Passes passed s)
    (leaves : (built v t passed).Leaves v s.token id)
    (left : ¬ (built v t (passed ++ [s.token])).Pending id)
    (named : ((built v t (passed ++ [s.token])).node id).name ≠ none)
    (unclosed : ((built v t (passed ++ [s.token])).node id).closed = false) :
    EndsUnclosed v t (passed ++ [s.token]) id ((built v t (passed ++ [s.token])).node id) := by
  obtain ⟨frontier, -, nested⟩ := (stands_built passes).exists_nested
  rw [built_concat, Builder.take] at left named unclosed ⊢
  cases leaves with
  | startTagClose kind reading =>
    rw [kind] at left named unclosed ⊢
    exact endsUnclosed_closeStartTag passes kind reading left named unclosed
  | selfCloses kind reading =>
    rw [kind] at unclosed
    have closed := Builder.closed_selfCloseElement reading (nested.reading id reading).1 s.token.span.stop
    exact absurd (unclosed.symm.trans closed) Bool.false_ne_true
  | @endTag kind start own inner outer opening closes mem =>
    rcases mem with mem | rfl
    · obtain ⟨start', opened, -⟩ := exists_endTagOpened passes (Tokenizer.mode_of_endTag kind)
      exact .cutOff ⟨List.prefix_refl _, kind, opened⟩ closes mem
    · rw [kind] at unclosed
      exact absurd (unclosed.symm.trans (closes.closed_endElement nested opening)) Bool.false_ne_true

/-- **Every element that has been left with a name and is not closed.** -/
theorem endsUnclosed_of_past (h : (scanner v t).Passes passed s) (past : (built v t passed).Past id)
    (named : ((built v t passed).node id).name ≠ none)
    (unclosed : ((built v t passed).node id).closed = false) :
    EndsUnclosed v t passed id ((built v t passed).node id) := by
  refine h.along (P := fun passed _ => (built v t passed).Past id →
    ((built v t passed).node id).name ≠ none → ((built v t passed).node id).closed = false →
      EndsUnclosed v t passed id ((built v t passed).node id)) ?_ ?_ past named unclosed
  · intro past
    exact absurd (Nat.lt_one_iff.mp past.known) past.off_root
  · intro passed s passes some_ahead so_far past named unclosed
    obtain ⟨frontier, -, nested⟩ := (stands_built passes).exists_nested
    by_cases before : (built v t passed).Past id
    · have rests : (built v t passed).Rests (built v t (passed ++ [s.token])) id := by
        rw [built_concat]
        exact Builder.rests_take before v t.byteLength s.token
      obtain ⟨stop, node⟩ := rests.node
      rw [node] at named unclosed ⊢
      exact (so_far before named unclosed).mono rfl rfl
    · refine endsUnclosed_of_leaves passes ?_ past.left named unclosed
      have pending : (built v t passed).Pending id := by
        have known : id < (built v t passed).nodes.size := by
          by_contra fresh
          refine past.left ?_
          have known := past.known
          rw [built_concat] at known ⊢
          exact Builder.pending_of_fresh known fresh
        by_contra left
        exact before ⟨known, past.off_root, left⟩
      have none_read : s.token.kind = .startTagOpen ∨ s.token.kind = .endTagOpen →
          (built v t passed).startTag = none := by
        intro kind
        have between := (Tokenizer.reads some_ahead).outside_of_opens kind
        exact ((Builder.stands_of_betweenTags between _).mp (stands_built passes)).1
      refine @Builder.leaves_of_take v _ t.byteLength _ _ none_read pending ?_
      rw [← built_concat]
      exact past.left

end Document

end MarkupAnalysis
