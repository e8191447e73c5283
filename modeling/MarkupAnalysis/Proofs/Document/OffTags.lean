import MarkupAnalysis.Proofs.Document.Comments
import MarkupAnalysis.Proofs.Document.Locating
import MarkupAnalysis.Proofs.Document.Steps

/-! # What opens between tags

Where a comment opens, no tag is being read. All tags before that place have been read, and all later ones
open behind it, so the place is in no tag of the tree.

* **`Node.OffTags`** — an offset that is in neither tag of an element.
* **`Builder.OffTags`** — the offset between two later tokens.
* **`Builder.OffTags.of_nodeStep`**, **`Builder.OffTags.take`** — every token keeps it off the tags.
* **`Document.offTags_parse`** — the places where comments open. -/

namespace MarkupAnalysis

open Document

/-- The offset is **off the tags** of an element: neither in its start tag nor in its end tag. -/
structure Node.OffTags (n : Node) (offset : Nat) : Prop where
  /-- It is before the start tag or behind it. -/
  startTag : offset < n.start ∨ n.contentStart ≤ offset
  /-- It is before the end tag or behind it. -/
  endTag : ∀ e, n.endTag = some e → offset < e.start ∨ n.stop ≤ offset

/-- Behind a complete start tag the end of the element has no part in this, but for its end tag. -/
theorem Node.OffTags.of_startTagEnd {n n' : Node} {offset e : Nat} (h : n.OffTags offset)
    (ends : n.startTagEnd = some e) (ends' : n'.startTagEnd = some e) (start : n'.start = n.start)
    (endTag : ∀ e, n'.endTag = some e → offset < e.start ∨ n'.stop ≤ offset) : n'.OffTags offset := by
  refine ⟨?_, endTag⟩
  have startTag := h.startTag
  rwa [Node.contentStart_eq ends, ← Node.contentStart_eq ends', ← start] at startTag

/-- An element without an end tag is in no end tag. -/
theorem Node.off_endTag {n : Node} {offset stop : Nat} (no_endTag : n.endTag = none) :
    ∀ e, n.endTag = some e → offset < e.start ∨ stop ≤ offset :=
  fun _ met => absurd (no_endTag.symm.trans met) nofun

namespace Builder

variable {v : Vocabulary} {b : Builder} {s : Tokenizer} {length offset : Nat} {id : NodeId} {n : Node}

/-- **An offset off all tags** between two tokens, by the mode that the next one is read in. -/
structure OffTags (m : Mode) (b : Builder) (offset : Nat) : Prop where
  /-- It is off the tags of all elements. -/
  nodes : ∀ id < b.nodes.size, id ≠ root → (b.node id).OffTags offset
  /-- It is before the end tag that is being read. -/
  opening : m = .endTagOpened → ∀ start, b.endTagStart = some start → offset < start
  /-- It is before the end of the element that this end tag has closed. -/
  ended : m = .endTag → ∀ id, b.ended = some id → offset < (b.node id).stop

namespace OffTags

/-- An offset that is off the tags is before the start tag that is being read. -/
theorem reading {m : Mode} {frontier : Nat} (h : b.OffTags m offset) (nested : b.Nested length frontier)
    (inside : offset < length) (reading : b.startTag = some id) : offset < (b.node id).start := by
  obtain ⟨known, off_root, -, unfinished, -, stop, -⟩ := nested.reading id reading
  refine (h.nodes id known off_root).startTag.resolve_right fun behind => ?_
  -- Such an element reaches to the end of the text so far.
  rw [Node.contentStart, unfinished, stop] at behind
  exact absurd inside (Nat.not_lt_of_le behind)

/-- **Every way of changing a node** keeps the offset off its tags. -/
theorem of_nodeStep (so_far : b.OffTags s.mode offset) (stands : b.Stands length s.mode s.position)
    (before : offset < s.position) (inside : offset < length) (off_root : id ≠ root)
    (step : b.NodeStep v length s.token id n) : n.OffTags offset := by
  obtain ⟨frontier, -, nested⟩ := stands.exists_nested
  have of_reading (reading : b.startTag = some id) :=
    so_far.nodes id (nested.reading id reading).1 off_root
  have ahead {startTagEnd : Option Nat} {stop : Nat} {closed selfClosing : Bool}
      (reading : b.startTag = some id) :
      { b.node id with startTagEnd, stop, closed, selfClosing }.OffTags offset := by
    exact ⟨.inl (so_far.reading nested inside reading),
      Node.off_endTag (nested.reading id reading).2.2.2.2.1⟩
  cases step with
  | keeps known => exact so_far.nodes id known off_root
  | adopts _ known =>
    have h := so_far.nodes id known off_root
    exact ⟨h.startTag, h.endTag⟩
  | opens => exact ⟨.inl before, nofun⟩
  | names _ reading | addsAttribute _ reading | addsValue _ reading =>
    have h := of_reading reading
    exact ⟨h.startTag, h.endTag⟩
  | interrupts _ reading => exact ahead reading
  | endsStartTag _ reading => exact ahead reading
  | selfCloses _ reading => exact ahead reading
  | cutsOff kind start mem =>
    obtain ⟨e, ends⟩ := stands.exists_startTagEnd kind mem
    exact (so_far.nodes id (nested.lt_size mem) off_root).of_startTagEnd ends ends rfl
      (Node.off_endTag (nested.unclosed id mem).1)
  | closes kind opening mem =>
    obtain ⟨e, ends⟩ := stands.exists_startTagEnd kind mem
    refine (so_far.nodes id (nested.lt_size mem) off_root).of_startTagEnd ends ends rfl fun e' met => ?_
    obtain rfl := Option.some.inj met
    exact .inl (so_far.opening (Tokenizer.mode_of_endTag kind) _ opening)
  | endsEndTag kind ended =>
    obtain ⟨mode, just_ended⟩ := stands.justEnded_of_endTagClose kind ended
    obtain ⟨e, ends⟩ := just_ended.startTagEnd
    have h := so_far.nodes id just_ended.inside off_root
    refine h.of_startTagEnd ends ends rfl fun e' met => ?_
    -- The element had not ended before the offset, so its end tag starts behind it.
    refine .inl ((h.endTag e' met).resolve_right fun behind => ?_)
    exact absurd (so_far.ended mode id ended) (Nat.not_lt_of_le behind)

/-- **Every token keeps the offset off the tags.** -/
theorem take (so_far : b.OffTags s.mode offset) (some_ahead : s.ahead ≠ [])
    (stands : b.Stands length s.mode s.position) (before : offset < s.position) (inside : offset < length) :
    (b.take v length s.token).OffTags s.rest.mode offset := by
  obtain ⟨frontier, -, nested⟩ := stands.exists_nested
  have reads := Tokenizer.reads some_ahead
  refine ⟨?nodes, ?opening, ?ended⟩
  case nodes =>
    intro id known off_root
    exact so_far.of_nodeStep stands before inside off_root (nodeStep_take nested v s.token known)
  case opening =>
    intro mode start opening
    rw [mode] at reads
    rcases reads.to_endTagOpened with kind | ⟨kind, mode⟩
    · rw [Builder.take, kind] at opening
      obtain rfl : s.position = start := Option.some.inj opening
      exact before
    · rw [take_filler (.inl kind)] at opening
      exact so_far.opening mode start opening
  case ended =>
    intro mode id ended
    rw [mode] at reads
    -- The name of the end tag has just been read, or blanks behind it.
    rcases reads.to_endTag with ⟨opened, kind | kind⟩ | ⟨kind, mode⟩
    · rw [opened] at stands
      rw [Builder.take, kind] at ended ⊢
      obtain ⟨start, n, node⟩ := node_of_ended_endElement stands.2.1 ended
      rw [node]
      exact Nat.lt_of_lt_of_le before Tokenizer.position_le_rest
    · rw [opened] at stands
      rw [take_filler (.inr (.inl kind))] at ended
      cases stands.2.1.symm.trans ended
    · rw [take_filler (.inl kind)] at ended ⊢
      exact so_far.ended mode id ended

/-- **Where a comment opens**, all tags are behind. -/
theorem of_startComment (stands : b.Stands length s.mode s.position) (kind : s.token.kind = .startComment) :
    (b.take v length s.token).OffTags s.rest.mode s.position := by
  have between := Tokenizer.mode_of_startComment kind
  obtain ⟨none_read, nested⟩ := (stands_of_betweenTags between s.position).mp stands
  have mode : s.rest.mode = .comment := Tokenizer.mode_rest_of_comment (.inl kind)
  rw [take_startComment kind, mode]
  refine ⟨fun id known off_root => ?_, ?opening, ?ended⟩
  -- No end tag is being read in a comment.
  case opening | ended => rintro ⟨⟩
  show (b.node id).OffTags s.position
  by_cases still_open : id ∈ b.openElements
  · have not_reading : b.startTag ≠ some id := by
      rw [none_read]
      exact (Option.some_ne_none id).symm
    obtain ⟨e, ends, -, bound⟩ := nested.openTag id still_open not_reading
    exact ⟨.inr (Node.contentStart_eq ends ▸ bound), Node.off_endTag (nested.unclosed id still_open).1⟩
  · have left : ¬ b.Pending id := by
      rintro (mem | reading)
      · exact still_open mem
      · exact absurd (reading.symm.trans none_read) (Option.some_ne_none id)
    obtain ⟨ordered, bound⟩ := nested.settled id known off_root left
    have content_le := ordered.content_le
    have le_stop := ordered.le_stop
    exact ⟨.inr (by omega), fun e met => .inr bound⟩

end OffTags

end Builder

/-! ## Whole texts -/

namespace Document

variable {v : Vocabulary} {t : Text} {s : Tokenizer} {passed : List Token} {id : NodeId}

/-- The place where a comment has opened, after some of the later tokens. -/
theorem offTags_built {s' : Tokenizer} {more : List Token} (h : (scanner v t).Passes passed s)
    (kind : s.token.kind = .startComment) (further : s.rest.Passes more s') :
    (built v t (passed ++ [s.token] ++ more)).OffTags s'.mode s.position ∧ s.position < s'.position := by
  have some_ahead := Tokenizer.ahead_ne_nil kind (by decide)
  have moves : s.position < s.rest.position :=
    Tokenizer.position_lt_rest some_ahead (by simp [kind]) (by simp [kind])
  have next := h.concat some_ahead
  have inside : s.position < t.byteLength :=
    Nat.lt_of_lt_of_le moves (next.at_of_at (scanner_at v t)).position_le
  refine further.along (P := fun more s' =>
    (built v t (passed ++ [s.token] ++ more)).OffTags s'.mode s.position ∧ s.position < s'.position) ?_ ?_
  · rw [List.append_nil, built_concat]
    exact ⟨.of_startComment (stands_built h) kind, moves⟩
  · intro more s' between some_ahead ⟨so_far, before⟩
    rw [← List.append_assoc, built_concat]
    exact ⟨so_far.take some_ahead (stands_built (next.trans between)) before inside,
      Nat.lt_of_lt_of_le before Tokenizer.position_le_rest⟩

/-- **A comment opens off all tags** of the tree. -/
theorem offTags_parse (h : (scanner v t).Passes passed s) (kind : s.token.kind = .startComment)
    (element : (parse v t).IsElement id) : ((parse v t).node id).OffTags s.position := by
  obtain ⟨more, s', further, ended, -⟩ := s.rest.exists_passes
  have passes := (h.concat (Tokenizer.ahead_ne_nil kind (by decide))).trans further
  obtain ⟨off_tags, before⟩ := offTags_built h kind further
  have known := element.2
  rw [size_parse_of_ended passes ended] at known
  rw [node_parse_of_ended passes ended]
  split
  · -- What is cut off with the text is behind its start tag, or its start tag is behind the offset.
    rename_i still_open
    obtain ⟨frontier, -, nested⟩ := (stands_built passes).exists_nested
    by_cases reading : (built v t (passed ++ [s.token] ++ more)).startTag = some id
    · have inside := Nat.lt_of_lt_of_le before (passes.at_of_at (scanner_at v t)).position_le
      exact ⟨.inl (off_tags.reading nested inside reading),
        Node.off_endTag (nested.unclosed id still_open).1⟩
    · obtain ⟨e, ends, -⟩ := nested.openTag id still_open reading
      exact (off_tags.nodes id known element.1).of_startTagEnd ends ends rfl
        (Node.off_endTag (nested.unclosed id still_open).1)
  · exact off_tags.nodes id known element.1

end Document

end MarkupAnalysis
