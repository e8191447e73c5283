import MarkupAnalysis.Proofs.Document.Comments
import MarkupAnalysis.Proofs.Document.Steps

/-! # Comments and elements

Comments come one after the other, and a comment is read without anything in between. So an element neither
starts nor ends inside a comment, and neither do its tags.

* **`Span.Avoids`** — an offset that is not inside a span.
* **`Node.Edge`** — the offsets at which the parts of an element start and end.
* **`Builder.CommentsApart`** — comments and edges between two tokens.
* **`Builder.CommentsApart.of_nodeStep`**, **`Builder.CommentsApart.take`** — every token keeps them apart.
* **`commentsApart_parse`** — the comments and the elements of every text. -/

namespace MarkupAnalysis

open Document Text

/-- An offset that is not inside the span. It may be one of the ends. -/
def Span.Avoids (s : Span) (offset : Nat) : Prop := offset ≤ s.start ∨ s.stop ≤ offset

/-! ## Edges -/

/-- **The edges of an element**: its own ends and those of its tags. -/
inductive Node.Edge (n : Node) : Nat → Prop
  /-- The element starts. -/
  | start : n.Edge n.start
  /-- The start tag ends. -/
  | startTagEnd {stop : Nat} (ends : n.startTagEnd = some stop) : n.Edge stop
  /-- The end tag starts. -/
  | endTagStart {e : EndTag} (met : n.endTag = some e) : n.Edge e.start
  /-- The element ends. -/
  | stop : n.Edge n.stop

/-- What changes the end of an element at most gives it no edge but that. -/
theorem Node.Edge.of_stop {n n' : Node} {offset : Nat} (edge : n'.Edge offset)
    (start : n'.start = n.start) (startTagEnd : n'.startTagEnd = n.startTagEnd)
    (endTag : n'.endTag = n.endTag) : n.Edge offset ∨ offset = n'.stop := by
  cases edge with
  | start => exact .inl (start ▸ .start)
  | startTagEnd ends => exact .inl (.startTagEnd (startTagEnd ▸ ends))
  | endTagStart met => exact .inl (.endTagStart (endTag ▸ met))
  | stop => exact .inr rfl

namespace Builder

variable {v : Vocabulary} {t : Text} {b b' : Builder} {s : Tokenizer} {id : NodeId} {n : Node}
  {position position' offset : Nat}

/-! ## Between two tokens -/

/-- Where the text ends that has been read, not counting a comment that is being read. -/
def reach (b : Builder) (position : Nat) : Nat := b.commentStart.getD position

/-- The offset is neither inside a comment nor will it be inside one. -/
def OffComments (b : Builder) (length position offset : Nat) : Prop :=
  offset = length ∨ offset ≤ b.reach position ∧ ∀ c ∈ b.comments, c.span.Avoids offset

/-- What is off all comments stays so when no comment is added. -/
theorem OffComments.mono {length : Nat} (h : b.OffComments length position offset)
    (comments : b'.comments = b.comments) (advance : b.reach position ≤ b'.reach position') :
    b'.OffComments length position' offset :=
  h.imp_right fun ⟨before, avoids⟩ => ⟨Nat.le_trans before advance, comments ▸ avoids⟩

/-- **Comments and elements between two tokens.** -/
structure CommentsApart (t : Text) (mode : Mode) (position : Nat) (b : Builder) : Prop where
  /-- Every comment has characters, and it ends in the text that has been read. -/
  each : ∀ c ∈ b.comments, (∃ content, t.slice? c.content = some content) ∧
    c.span.start < c.span.stop ∧ c.span.stop ≤ b.reach position
  /-- Each comment ends before the next one starts. -/
  ordered : b.comments.toList.Pairwise fun c later => c.span.stop ≤ later.span.start
  /-- The comment that is being read has started, and it stands in the text. -/
  reading : ∀ start, b.commentStart = some start → start < position ∧
    ∀ span, b.commentContent = some span → ∃ content, t.slice? span = some content
  /-- No edge of an element is inside a comment. -/
  edges : ∀ id < b.nodes.size, ∀ offset, (b.node id).Edge offset →
    b.OffComments t.byteLength position offset
  /-- The start of the end tag that is being read is not inside a comment. -/
  endTag : mode = .endTagOpened → ∀ start, b.endTagStart = some start →
    b.OffComments t.byteLength position start

namespace CommentsApart

/-- The comments so far end before any place that is read later. -/
theorem each_before {mode : Mode} {place : Nat} (h : b.CommentsApart t mode position)
    (advance : b.reach position ≤ place) : ∀ c ∈ b.comments,
      (∃ content, t.slice? c.content = some content) ∧ c.span.start < c.span.stop ∧ c.span.stop ≤ place := by
  intro c mem
  obtain ⟨content, some_text, before⟩ := h.each c mem
  exact ⟨content, some_text, Nat.le_trans before advance⟩

/-- Outside of comments the place is off all comments. -/
theorem offComments_position {mode : Mode} (h : b.CommentsApart t mode position)
    (none_read : b.commentStart = none) : b.OffComments t.byteLength position position := by
  have reach : b.reach position = position := by rw [Builder.reach, none_read]; rfl
  refine .inr ⟨Nat.le_of_eq reach.symm, fun c mem => .inr ?_⟩
  exact reach ▸ (h.each c mem).2.2

/-- **Every way of changing a node** gives it edges that are off all comments. -/
theorem of_nodeStep (so_far : b.CommentsApart t s.mode s.position) (none_read : b.commentStart = none)
    (stands : b.Stands t.byteLength s.mode s.position)
    (step : b.NodeStep v t.byteLength s.token id n) (edge : n.Edge offset) :
    b.OffComments t.byteLength s.position offset ∨ offset = s.rest.position := by
  obtain ⟨frontier, -, nested⟩ := stands.exists_nested
  have of_reading (reading : b.startTag = some id) := so_far.edges id (nested.reading id reading).1 offset
  have of_open (mem : id ∈ b.openElements) := so_far.edges id (nested.lt_size mem) offset
  have start_off {start : Nat} (kind : s.token.kind = .endTag) (opening : b.endTagStart = some start) :=
    so_far.endTag (Tokenizer.mode_of_endTag kind) start opening
  -- Every edge is an old one, the start of an end tag, or an end of the token.
  cases step with
  | keeps known => exact .inl (so_far.edges id known offset edge)
  | adopts _ known =>
    rcases Node.Edge.of_stop (n := b.node id) edge rfl rfl rfl with old | rfl
    · exact .inl (so_far.edges id known _ old)
    · exact .inl (so_far.edges id known _ .stop)
  | opens =>
    cases edge with
    | start => exact .inl (so_far.offComments_position none_read)
    | startTagEnd ends => cases ends
    | endTagStart met => cases met
    | stop => exact .inl (.inl rfl)
  | names _ reading | addsAttribute _ reading | addsValue _ reading =>
    rcases Node.Edge.of_stop (n := b.node id) edge rfl rfl rfl with old | rfl
    · exact .inl (of_reading reading old)
    · exact .inl (of_reading reading .stop)
  | interrupts _ reading =>
    exact (Node.Edge.of_stop (n := b.node id) edge rfl rfl rfl).imp_left (of_reading reading)
  | endsStartTag _ reading | selfCloses _ reading =>
    cases edge with
    | start => exact .inl (of_reading reading .start)
    | startTagEnd ends => exact .inr (Option.some.inj ends).symm
    | endTagStart met => exact .inl (of_reading reading (.endTagStart met))
    | stop => exact .inr rfl
  | cutsOff kind start mem opening =>
    rcases Node.Edge.of_stop (n := b.node id) edge rfl rfl rfl with old | rfl
    · exact .inl (of_open mem old)
    · exact .inl (start_off kind opening)
  | closes kind opening mem =>
    cases edge with
    | start => exact .inl (of_open mem .start)
    | startTagEnd ends => exact .inl (of_open mem (.startTagEnd ends))
    | endTagStart met =>
      obtain rfl := Option.some.inj met
      exact .inl (start_off kind opening)
    | stop => exact .inr rfl
  | endsEndTag kind ended =>
    obtain ⟨-, just_ended⟩ := stands.justEnded_of_endTagClose kind ended
    exact (Node.Edge.of_stop (n := b.node id) edge rfl rfl rfl).imp_left
      (so_far.edges id just_ended.inside offset)

/-- Before the first token there is no comment. -/
theorem start (t : Text) : (Builder.start t.byteLength).CommentsApart t .content 0 where
  each := by simp [Builder.start]
  ordered := by simp [Builder.start]
  reading := nofun
  edges := by
    intro id inside offset edge
    obtain rfl := Nat.lt_one_iff.mp inside
    cases edge with
    | start => exact .inr ⟨Nat.le_refl _, by simp [Builder.start]⟩
    | startTagEnd ends => cases ends
    | endTagStart met => cases met
    | stop => exact .inl rfl
  endTag := nofun

/-- A comment opens. -/
theorem openComment {mode mode' : Mode} (h : b.CommentsApart t mode position)
    (none_read : b.commentStart = none) (some_text : position < position')
    (outside : mode' ≠ .endTagOpened) :
    { b with commentStart := some position, commentContent := none }.CommentsApart t mode' position' := by
  have reach : b.reach position = position := by rw [Builder.reach, none_read]; rfl
  exact ⟨h.each_before (Nat.le_of_eq reach), h.ordered,
    fun start opening => ⟨Option.some.inj opening ▸ some_text, nofun⟩,
    fun id inside offset edge => (h.edges id inside offset edge).mono rfl (Nat.le_of_eq reach),
    fun inside => absurd inside outside⟩

/-- The text of a comment. -/
theorem commentText {mode mode' : Mode} {span : Span} (h : b.CommentsApart t mode position)
    (content : ∃ content, t.slice? span = some content) (advance : position ≤ position')
    (outside : mode' ≠ .endTagOpened) :
    { b with commentContent := some span }.CommentsApart t mode' position' := by
  have reach : b.reach position ≤ b.reach position' := by
    unfold Builder.reach
    cases b.commentStart with
    | none => exact advance
    | some start => exact Nat.le_refl _
  refine ⟨h.each_before reach, h.ordered,
    fun start opening => ⟨Nat.lt_of_lt_of_le (h.reading start opening).1 advance, ?_⟩,
    fun id inside offset edge => (h.edges id inside offset edge).mono rfl reach,
    fun inside => absurd inside outside⟩
  rintro span' given
  obtain rfl := Option.some.inj given
  exact content

/-- **The end of a comment**, by `-->` or with the text. -/
theorem endComment {mode mode' : Mode} {contentStop stop : Nat} (h : b.CommentsApart t mode position)
    (content : ∃ text, t.slice? ⟨contentStop, contentStop⟩ = some text) (advance : position ≤ stop)
    (outside : mode' ≠ .endTagOpened) :
    (b.endComment contentStop stop).CommentsApart t mode' stop := by
  cases reading : b.commentStart with
  | none =>
    have same : b.endComment contentStop stop = b := by simp only [Builder.endComment, reading]
    have reach : b.reach position ≤ b.reach stop := by
      rw [Builder.reach, Builder.reach, reading]
      exact advance
    rw [same]
    exact ⟨h.each_before reach, h.ordered,
      fun start opening => absurd (reading.symm.trans opening) nofun,
      fun id inside offset edge => (h.edges id inside offset edge).mono rfl reach,
      fun inside => absurd inside outside⟩
  | some start =>
    obtain ⟨some_text, known⟩ := h.reading start reading
    have reach : b.reach position = start := by rw [Builder.reach, reading]; rfl
    have before {c : Comment} (mem : c ∈ b.comments) : c.span.stop ≤ start := reach ▸ (h.each c mem).2.2
    -- What is off all comments so far is before this one.
    have off {offset : Nat} (h : b.OffComments t.byteLength position offset) :
        (b.endComment contentStop stop).OffComments t.byteLength stop offset := by
      simp only [Builder.OffComments, Builder.endComment, reading]
      refine h.imp_right fun ⟨early, avoids⟩ => ⟨?_, fun c mem => ?_⟩
      · have : offset ≤ start := reach ▸ early
        show offset ≤ stop
        omega
      · rcases Array.mem_push.mp mem with old | rfl
        · exact avoids c old
        · exact .inl (reach ▸ early)
    refine ⟨?each, ?ordered, ?reading, ?edges, fun inside => absurd inside outside⟩
    case each =>
      simp only [Builder.endComment, reading]
      intro c mem
      rcases Array.mem_push.mp mem with old | rfl
      · have reached : b.reach position ≤ stop := by omega
        exact h.each_before reached c old
      · refine ⟨?_, Nat.lt_of_lt_of_le some_text advance, Nat.le_refl _⟩
        cases given : b.commentContent with
        | none => exact content
        | some span => exact known span given
    case ordered =>
      simp only [Builder.endComment, reading]
      rw [Array.toList_push, List.pairwise_append]
      refine ⟨h.ordered, List.pairwise_singleton _ _, fun c mem later here => ?_⟩
      rw [List.mem_singleton.mp here]
      exact before (Array.mem_toList_iff.mp mem)
    case reading => simp [Builder.endComment, reading]
    case edges =>
      intro id inside offset edge
      rw [node_congr (nodes_endComment contentStop stop)] at edge
      rw [nodes_endComment] at inside
      exact off (h.edges id inside offset edge)

/-- A token that has no part in a comment. -/
theorem of_remarks (so_far : b.CommentsApart t s.mode s.position) (none_read : b.commentStart = none)
    (some_ahead : s.ahead ≠ []) (stands : b.Stands t.byteLength s.mode s.position)
    (same : (b.take v t.byteLength s.token).remarks = b.remarks) :
    (b.take v t.byteLength s.token).CommentsApart t s.rest.mode s.rest.position := by
  obtain ⟨frontier, -, nested⟩ := stands.exists_nested
  obtain ⟨comments, rest⟩ := Prod.mk.inj same
  have none_read' : (b.take v t.byteLength s.token).commentStart = none :=
    (Prod.mk.inj rest).1.trans none_read
  have reach : b.reach s.position = s.position := by rw [reach, none_read]; rfl
  have reach' : (b.take v t.byteLength s.token).reach s.rest.position = s.rest.position := by
    rw [Builder.reach, none_read']
    rfl
  have advance : b.reach s.position ≤ (b.take v t.byteLength s.token).reach s.rest.position := by
    rw [reach, reach']
    exact Tokenizer.position_le_rest
  have each := so_far.each_before advance
  rw [← comments] at each
  refine ⟨each, comments ▸ so_far.ordered, fun start opening => ?_, fun id inside offset edge => ?_, ?_⟩
  · exact absurd (none_read'.symm.trans opening) nofun
  · rcases so_far.of_nodeStep none_read stands (nodeStep_take nested v s.token inside) edge with off | rfl
    · exact off.mono comments advance
    · exact .inr ⟨Nat.le_of_eq reach'.symm, fun c mem => .inr (reach' ▸ (each c mem).2.2)⟩
  · intro mode start opening
    have reads := Tokenizer.reads some_ahead
    rw [mode] at reads
    rcases reads.to_endTagOpened with kind | ⟨kind, before⟩
    · rw [Builder.take, kind] at opening
      obtain rfl : s.position = start := Option.some.inj opening
      exact (so_far.offComments_position none_read).mono comments advance
    · rw [take_filler (.inl kind)] at opening
      exact (so_far.endTag before start opening).mono comments advance

/-- **Every token keeps comments and elements apart.** -/
theorem take (so_far : b.CommentsApart t s.mode s.position) (here : s.At t) (some_ahead : s.ahead ≠ [])
    (stands : b.Stands t.byteLength s.mode s.position)
    (comments : b.CommentsStand t s.mode s.position) :
    (b.take v t.byteLength s.token).CommentsApart t s.rest.mode s.rest.position := by
  by_cases kind : s.token.kind = .startComment ∨ s.token.kind = .comment ∨ s.token.kind = .endComment
  · have mode : s.rest.mode ≠ .endTagOpened := by
      intro mode
      have reads := Tokenizer.reads some_ahead
      rw [mode] at reads
      rcases reads.to_endTagOpened with opened | ⟨opened, -⟩ <;> simp [opened] at kind
    rcases kind with kind | kind | kind
    · rw [take_startComment kind]
      exact so_far.openComment (comments.none_read some_ahead (by simp [kind]))
        (Tokenizer.position_lt_rest some_ahead (by simp [kind]) (by simp [kind])) mode
    · rw [take_comment kind]
      exact so_far.commentText ⟨_, here.slice⟩ Tokenizer.position_le_rest mode
    · rw [take_endComment kind]
      exact so_far.endComment ⟨[], slice?_empty here.isBoundary⟩ Tokenizer.position_le_rest mode
  · obtain ⟨none_read, same⟩ := comments.take_other some_ahead kind v t.byteLength
    exact so_far.of_remarks none_read some_ahead stands same

end CommentsApart

end Builder

/-! ## Whole texts -/

namespace Document

/-- Comments and elements after some of the tokens of a text. -/
theorem commentsApart_built {v : Vocabulary} {t : Text} {s : Tokenizer} {passed : List Token}
    (h : (scanner v t).Passes passed s) : (built v t passed).CommentsApart t s.mode s.position := by
  refine h.along (P := fun passed s => (built v t passed).CommentsApart t s.mode s.position) ?_ ?_
  · rw [scanner_eq]
    exact .start t
  · intro passed s passes some_ahead so_far
    rw [built_concat]
    exact so_far.take (passes.at_of_at (scanner_at v t)) some_ahead (stands_built passes)
      (commentsStand_built passes)

/-- **The comments of a text**, and how they lie to its elements. -/
structure CommentsApart (t : Text) (d : Document) : Prop where
  /-- The content of every comment is a part of the text. -/
  content : ∀ c ∈ d.comments, ∃ content, t.slice? c.content = some content
  /-- Every comment has characters. -/
  start_lt_stop : ∀ c ∈ d.comments, c.span.start < c.span.stop
  /-- Each comment ends before the next one starts. -/
  ordered : d.comments.toList.Pairwise fun c later => c.span.stop ≤ later.span.start
  /-- No element has an edge inside a comment. -/
  edges : ∀ id < d.nodes.size, ∀ offset, (d.node id).Edge offset →
    ∀ c ∈ d.comments, c.span.Avoids offset

end Document

/-- Comments and elements after all tokens of a text. -/
theorem Document.commentsApart_tokensOf (v : Vocabulary) (t : Text) :
    (built v t (tokensOf v t)).CommentsApart t .content t.byteLength := by
  obtain ⟨passed, s, passes, ended, -⟩ := (scanner v t).exists_passes
  have here := passes.at_of_at (scanner_at v t)
  have same : (built v t passed).endComment s.position s.rest.position = built v t (tokensOf v t) :=
    (built_tokensOf_of_ended passes ended).symm
  have last : s.rest.position = t.byteLength := by
    rw [← here.position_eq ended]
    simp [Tokenizer.rest, Tokenizer.lexeme, ended]
  have apart : ((built v t passed).endComment s.position s.rest.position).CommentsApart t .content
      s.rest.position :=
    (commentsApart_built passes).endComment ⟨[], slice?_empty here.isBoundary⟩
      Tokenizer.position_le_rest (by decide)
  rwa [same, last] at apart

/-- **In every text comments and elements lie apart or inside one another.** -/
theorem commentsApart_parse (v : Vocabulary) (t : Text) : (parse v t).CommentsApart t := by
  have apart := commentsApart_tokensOf v t
  have comments := comments_parse_eq v t
  have reach : (built v t (tokensOf v t)).reach t.byteLength ≤ t.byteLength := by
    unfold Builder.reach
    cases reading : (built v t (tokensOf v t)).commentStart with
    | none => exact Nat.le_refl _
    | some start => exact Nat.le_of_lt (apart.reading start reading).1
  -- The end of the text is behind all comments.
  have avoids {offset : Nat} (off : (built v t (tokensOf v t)).OffComments t.byteLength t.byteLength offset) :
      ∀ c ∈ (parse v t).comments, c.span.Avoids offset := by
    intro c mem
    rw [comments] at mem
    rcases off with rfl | ⟨-, avoids⟩
    · exact .inr (Nat.le_trans (apart.each c mem).2.2 reach)
    · exact avoids c mem
  obtain ⟨frontier, -, nested⟩ := exists_nested_built v t
  have node (id : NodeId) : (parse v t).node id = if id ∈ (built v t (tokensOf v t)).openElements
      then Builder.cut t.byteLength ((built v t (tokensOf v t)).node id)
      else (built v t (tokensOf v t)).node id :=
    Builder.node_cutOff (fun _ => nested.lt_size) t.byteLength id
  have size : (parse v t).nodes.size = (built v t (tokensOf v t)).nodes.size := Builder.size_cutOff _ _
  refine ⟨fun c mem => (apart.each c (comments ▸ mem)).1, fun c mem => (apart.each c (comments ▸ mem)).2.1,
    comments ▸ apart.ordered, fun id inside offset edge => ?_⟩
  rw [size] at inside
  rw [node] at edge
  split at edge
  · rcases Node.Edge.of_stop (n := (built v t (tokensOf v t)).node id) edge rfl rfl rfl with old | rfl
    · exact avoids (apart.edges id inside offset old)
    · exact avoids (.inl rfl)
  · exact avoids (apart.edges id inside offset edge)

end MarkupAnalysis
