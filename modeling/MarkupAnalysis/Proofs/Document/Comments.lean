import MarkupAnalysis.Proofs.Document.Recovery
import MarkupAnalysis.Proofs.Token.Continuation

/-! # Comments

Comments are listed in the order in which they end. All but the last one have been ended by `-->`, and
the last one too unless the text ends in it.

* **`Comment.isEndedIn`** — whether a comment is ended by `-->`.
* **`Builder.remarks_take`** — only the tokens of comments change what the builder knows of comments.
* **`Builder.CommentsStand.take`**, **`Builder.CommentsStand.take_other`** — the comments between two tokens.
* **`Document.comments_parse`** — the comments of a text that are ended by `-->`. -/

namespace MarkupAnalysis

open Document

/-- Whether the comment is ended by `-->`. -/
def Comment.isEndedIn (t : Text) (c : Comment) : Bool :=
  t.slice? ⟨c.content.stop, c.span.stop⟩ == some "-->".toList

/-- What ends where its content ends is not ended by `-->`. -/
theorem Comment.isEndedIn_eq_false {t : Text} {c : Comment} (same : c.content.stop = c.span.stop) :
    c.isEndedIn t = false := by
  have nothing (t : Text) : t.takeBytes? 0 = some [] := by cases t <;> rfl
  unfold isEndedIn Text.slice?
  rw [same, if_pos (Nat.le_refl _), Nat.sub_self]
  cases t.dropBytes? c.span.stop with
  | none => rfl
  | some ahead =>
    rw [Option.bind_some, nothing]
    rfl

/-- A comment opens between tags. -/
theorem Tokenizer.mode_of_startComment {s : Tokenizer} (h : s.token.kind = .startComment) :
    s.mode.betweenTags = true := by
  have reads := reads (ahead_ne_nil h (by decide))
  rw [h] at reads
  generalize s.mode = m, s.rest.mode = m' at reads
  cases reads
  assumption

/-- A comment and its text go on with the comment. -/
theorem Tokenizer.mode_rest_of_comment {s : Tokenizer}
    (kind : s.token.kind = .startComment ∨ s.token.kind = .comment) : s.rest.mode = .comment := by
  have some_ahead : s.ahead ≠ [] := by
    rcases kind with kind | kind <;> exact ahead_ne_nil kind (by decide)
  have reads := Tokenizer.reads some_ahead
  generalize s.token.kind = k, s.mode = m, s.rest.mode = m' at reads kind
  rcases kind with rfl | rfl <;> cases reads <;> rfl

/-- In a comment its text or its end comes next. -/
theorem Tokenizer.kind_of_comment {s : Tokenizer} (some_ahead : s.ahead ≠ [])
    (mode : s.mode = .comment) : s.token.kind = .comment ∨ s.token.kind = .endComment := by
  have reads := Tokenizer.reads some_ahead
  rw [mode] at reads
  exact reads.of_comment.imp And.left And.left

/-- A comment ends with `-->`. -/
theorem Tokenizer.text_of_endComment {s : Tokenizer} (h : s.token.kind = .endComment) :
    s.token.text = "-->".toList := by
  have some_ahead := ahead_ne_nil h (by decide)
  have mode : s.mode = .comment := by
    have reads := reads some_ahead
    rw [h] at reads
    generalize s.mode = m, s.rest.mode = m' at reads
    cases reads
    rfl
  have kind : s.reading.kind = .endComment := h
  show s.ahead.take s.reading.length = _
  rw [reading_eq some_ahead, mode, readToken, readComment] at kind ⊢
  by_cases ends : Text.startsWith "-->".toList s.ahead = true
  · rw [if_pos ends]
    obtain ⟨rest, split⟩ := List.isPrefixOf_iff_prefix.mp ends
    rw [← split]
    rfl
  · rw [if_neg ends] at kind
    cases kind

namespace Builder

variable {v : Vocabulary} {b b' : Builder} {length : Nat} {token : Token}

/-! ## What the builder knows of comments -/

/-- The comments so far, and what is known of the one that is being read. -/
def remarks (b : Builder) : Array Comment × Option Nat × Option Span :=
  (b.comments, b.commentStart, b.commentContent)

theorem remarks_leave (id : NodeId) : (b.leave id).remarks = b.remarks := by
  unfold leave
  split <;> rfl

theorem remarks_cutOff (ids : List NodeId) (stop : Nat) : (b.cutOff ids stop).remarks = b.remarks := by
  induction ids generalizing b with
  | nil => rfl
  | cons id ids ih => exact ih

theorem remarks_nameElement (v : Vocabulary) (token : Token) :
    (b.nameElement v token).remarks = b.remarks := by
  unfold nameElement
  cases b.startTag with
  | none => rfl
  | some id =>
    dsimp only
    split
    · exact remarks_leave id
    · rfl

theorem remarks_closeStartTag (token : Token) : (b.closeStartTag token).remarks = b.remarks := by
  unfold closeStartTag
  cases b.startTag with
  | none => rfl
  | some id =>
    dsimp only
    split_ifs
    · exact remarks_leave id
    · exact remarks_leave id
    · rfl

theorem remarks_selfCloseElement (stop : Nat) : (b.selfCloseElement stop).remarks = b.remarks := by
  unfold selfCloseElement
  cases b.startTag with
  | none => rfl
  | some id => exact remarks_leave id

theorem remarks_endElement (v : Vocabulary) (token : Token) :
    (b.endElement v token).remarks = b.remarks := by
  rcases endElement_cases v b token with stray | ⟨start, inner, id, outer, -, -, taken⟩
  · rw [stray]
  · rw [taken]
    exact remarks_cutOff inner start

/-- **Only the tokens of comments**, and the end of the text, change what is known of comments. -/
theorem remarks_take (kind : token.kind ≠ .startComment ∧ token.kind ≠ .comment ∧
    token.kind ≠ .endComment ∧ token.kind ≠ .eof) : (b.take v length token).remarks = b.remarks := by
  unfold take
  generalize token.kind = k at kind
  cases k with
  | startTag => exact remarks_nameElement v token
  | startTagClose => exact remarks_closeStartTag token
  | startTagSelfClose => exact remarks_selfCloseElement token.span.stop
  | endTag => exact remarks_endElement v token
  | attributeName | attributeValue =>
    dsimp only [addAttribute, addValue]
    split <;> rfl
  | endTagClose =>
    dsimp only [closeEndTag]
    split <;> rfl
  | startComment | comment | endComment | eof => simp at kind
  | _ => rfl

/-- Comments are only added to the list. -/
theorem comments_take (v : Vocabulary) (length : Nat) (token : Token) :
    b.comments.toList <+: (b.take v length token).comments.toList := by
  have ending (contentStop stop : Nat) :
      b.comments.toList <+: (b.endComment contentStop stop).comments.toList := by
    unfold endComment
    split
    · exact List.prefix_rfl
    · exact Array.toList_push ▸ List.prefix_append _ _
  by_cases kind : token.kind = .startComment ∨ token.kind = .comment ∨ token.kind = .endComment ∨
      token.kind = .eof
  · unfold take
    rcases kind with kind | kind | kind | kind <;> simp only [kind]
    · exact List.prefix_rfl
    · exact List.prefix_rfl
    · exact ending _ _
    · exact ending _ _
  · simp only [not_or] at kind
    have same : (b.take v length token).remarks = b.remarks := remarks_take kind
    have same : b.comments = (b.take v length token).comments := (congrArg Prod.fst same).symm
    exact same ▸ List.prefix_rfl

theorem comments_foldl (v : Vocabulary) (length : Nat) (tokens : List Token) :
    b.comments.toList <+: (tokens.foldl (take v length) b).comments.toList := by
  induction tokens generalizing b with
  | nil => exact List.prefix_rfl
  | cons token tokens ih => exact (comments_take v length token).trans ih

/-- A token that closes nothing adds no comment, if it is not the end of the text. -/
theorem comments_take_of_not_closes (other : token.kind.closes = false) (more : token.kind ≠ .eof) :
    (b.take v length token).comments = b.comments := by
  by_cases kind : token.kind = .startComment ∨ token.kind = .comment
  · unfold take
    rcases kind with kind | kind <;> rw [kind]
  · obtain ⟨not_start, not_comment⟩ := not_or.mp kind
    have not_end : token.kind ≠ .endComment := by
      intro same
      rw [same] at other
      cases other
    exact congrArg Prod.fst (remarks_take ⟨not_start, not_comment, not_end, more⟩)

/-- The `<!--` opens a comment. -/
theorem take_startComment {s : Tokenizer} (kind : s.token.kind = .startComment) (v : Vocabulary)
    (length : Nat) :
    b.take v length s.token = { b with commentStart := some s.position, commentContent := none } := by
  rw [Builder.take, kind]
  rfl

/-- The text of a comment is its content. -/
theorem take_comment (kind : token.kind = .comment) (v : Vocabulary) (length : Nat) :
    b.take v length token = { b with commentContent := some token.span } := by
  rw [Builder.take, kind]

/-- The `-->` ends the comment. -/
theorem take_endComment {s : Tokenizer} (kind : s.token.kind = .endComment) (v : Vocabulary)
    (length : Nat) : b.take v length s.token = b.endComment s.position s.rest.position := by
  rw [Builder.take, kind]
  rfl

/-! ## Comments between two tokens -/

/-- **The comments between two tokens**: those in the list have been ended, and the text of the one that
is being read ends where the next token starts. -/
structure CommentsStand (t : Text) (mode : Mode) (position : Nat) (b : Builder) : Prop where
  /-- All comments so far have been ended. -/
  ended : ∀ c ∈ b.comments, c.isEndedIn t = true
  /-- A comment is read in its own mode. -/
  reading : ∀ start, b.commentStart = some start →
    mode = .comment ∧ ∀ content, b.commentContent = some content → content.stop = position

namespace CommentsStand

variable {t : Text} {position : Nat} {mode : Mode}

/-- Outside of comments none is being read. -/
theorem none_read {s : Tokenizer} (h : b.CommentsStand t s.mode s.position) (some_ahead : s.ahead ≠ [])
    (other : s.token.kind ≠ .comment ∧ s.token.kind ≠ .endComment) : b.commentStart = none := by
  by_contra reading
  obtain ⟨start, opening⟩ := Option.ne_none_iff_exists'.mp reading
  -- A comment that is being read goes on with its text or with its end.
  rcases Tokenizer.kind_of_comment some_ahead (h.reading start opening).1 with kind | kind
  · exact other.1 kind
  · exact other.2 kind

/-- **A token that is of no comment** comes where none is being read, and leaves all comments. -/
theorem take_other {s : Tokenizer} (h : b.CommentsStand t s.mode s.position) (some_ahead : s.ahead ≠ [])
    (kind : ¬ (s.token.kind = .startComment ∨ s.token.kind = .comment ∨ s.token.kind = .endComment))
    (v : Vocabulary) (length : Nat) :
    b.commentStart = none ∧ (b.take v length s.token).remarks = b.remarks := by
  obtain ⟨not_start, others⟩ := not_or.mp kind
  obtain ⟨not_comment, not_end⟩ := not_or.mp others
  have not_eof := mt Tokenizer.token_kind_eq_eof_iff.mp some_ahead
  exact ⟨h.none_read some_ahead ⟨not_comment, not_end⟩,
    remarks_take ⟨not_start, not_comment, not_end, not_eof⟩⟩

/-- The text of the comment that is being read ends before the token that ends it. -/
theorem content_stop (h : b.CommentsStand t mode position) {start : Nat}
    (opening : b.commentStart = some start) :
    (b.commentContent.getD ⟨position, position⟩).stop = position := by
  cases content : b.commentContent with
  | none => rfl
  | some content' => exact (h.reading start opening).2 content' content

/-- The end of a comment. -/
theorem endComment (h : b.CommentsStand t mode position) {stop : Nat}
    (ends : t.slice? ⟨position, stop⟩ = some "-->".toList) (mode' : Mode) :
    (b.endComment position stop).CommentsStand t mode' stop := by
  unfold Builder.endComment
  cases opening : b.commentStart with
  | none => exact ⟨h.ended, fun start reading => absurd (opening.symm.trans reading) (by simp)⟩
  | some start =>
    refine ⟨fun c mem => ?_, fun start reading => absurd reading (by simp)⟩
    rcases Array.mem_push.mp mem with before | rfl
    · exact h.ended c before
    · unfold Comment.isEndedIn
      dsimp only
      rw [h.content_stop opening, ends]
      exact beq_self_eq_true _

/-- **Every token keeps the comments in the text.** -/
theorem take {s : Tokenizer} (h : b.CommentsStand t s.mode s.position) (here : s.At t)
    (some_ahead : s.ahead ≠ []) (v : Vocabulary) (length : Nat) :
    (b.take v length s.token).CommentsStand t s.rest.mode s.rest.position := by
  by_cases kind : s.token.kind = .startComment ∨ s.token.kind = .comment ∨ s.token.kind = .endComment
  · rcases kind with kind | kind | kind
    · rw [take_startComment kind]
      exact ⟨h.ended, fun _ _ => ⟨Tokenizer.mode_rest_of_comment (.inl kind),
        fun content none_yet => absurd none_yet (by simp)⟩⟩
    · rw [take_comment kind]
      refine ⟨h.ended, fun _ _ => ⟨Tokenizer.mode_rest_of_comment (.inr kind), fun content same => ?_⟩⟩
      rw [← Option.some.inj same]
      rfl
    · have ends := here.slice
      rw [Tokenizer.text_of_endComment kind] at ends
      rw [take_endComment kind]
      exact h.endComment ends _
  · obtain ⟨none_read, same⟩ := h.take_other some_ahead kind v length
    obtain ⟨comments, rest⟩ := Prod.mk.inj same
    refine ⟨comments ▸ h.ended, fun start opening => ?_⟩
    exact absurd (opening.symm.trans ((Prod.mk.inj rest).1.trans none_read)) (Option.some_ne_none start)

end CommentsStand

end Builder

/-! ## Whole texts -/

namespace Document

variable {v : Vocabulary} {t : Text}

/-- The comments after some of the tokens of a text. -/
theorem commentsStand_built {s : Tokenizer} {passed : List Token} (h : (scanner v t).Passes passed s) :
    (built v t passed).CommentsStand t s.mode s.position := by
  refine h.along (P := fun passed s => (built v t passed).CommentsStand t s.mode s.position) ?_ ?_
  · exact ⟨by simp [built, blank, Builder.start], fun start none_read => by cases none_read⟩
  · intro passed s passes some_ahead so_far
    rw [built_concat]
    exact so_far.take (passes.at_of_at (scanner_at v t)) some_ahead v t.byteLength

/-- The comments of a text are those that the builder has met. -/
theorem comments_parse_eq (v : Vocabulary) (t : Text) :
    (parse v t).comments = (built v t (tokensOf v t)).comments :=
  congrArg Prod.fst (Builder.remarks_cutOff _ _)

/-- After tokens that close nothing the list of comments is the same. -/
theorem comments_built {s s' : Tokenizer} {passed more : List Token} (h : s.Passes more s')
    (none_closes : ∀ token ∈ more, token.kind.closes = false) :
    (built v t (passed ++ more)).comments = (built v t passed).comments := by
  refine h.along (P := fun more _ => (∀ token ∈ more, token.kind.closes = false) →
    (built v t (passed ++ more)).comments = (built v t passed).comments) ?_ ?_ none_closes
  · intro _
    rw [List.append_nil]
  · intro more s' _ some_ahead so_far none_closes
    have before := so_far fun token mem => none_closes token (List.mem_append_left _ mem)
    rw [← List.append_assoc, built_concat, Builder.comments_take_of_not_closes, before]
    · exact none_closes s'.token (by simp)
    · exact mt Tokenizer.token_kind_eq_eof_iff.mp some_ahead

/-- A comment that the text ends in is not ended by `-->`. -/
theorem filter_comments_endComment {b : Builder} {mode : Mode} {position : Nat}
    (h : b.CommentsStand t mode position) :
    (b.endComment position position).comments.toList.filter (·.isEndedIn t) = b.comments.toList := by
  have all : b.comments.toList.filter (·.isEndedIn t) = b.comments.toList :=
    List.filter_eq_self.mpr fun c mem => h.ended c (Array.mem_toList_iff.mp mem)
  unfold Builder.endComment
  cases opening : b.commentStart with
  | none => exact all
  | some start =>
    have last : Comment.isEndedIn t ⟨⟨start, position⟩,
        b.commentContent.getD ⟨position, position⟩⟩ = false :=
      Comment.isEndedIn_eq_false (h.content_stop opening)
    dsimp only
    rw [Array.toList_push, List.filter_append, all, List.filter_singleton, last]
    exact List.append_nil _

/-- **The comments of a text that are ended by `-->`** are those that were listed when the scan had closed
something for the last time. -/
theorem comments_parse {s : Tokenizer} {passed : List Token} (h : (scanner v t).Passes passed s)
    (none_closes : ∀ token ∈ s.tokens, token.kind.closes = false) :
    (parse v t).comments.toList.filter (·.isEndedIn t) = (built v t passed).comments.toList := by
  obtain ⟨more, s', further, ended, all⟩ := s.exists_passes
  have last : s'.token.kind = .eof := Tokenizer.token_kind_eq_eof_iff.mpr ended
  have still : s'.rest.position = s'.position := by simp [Tokenizer.rest, Tokenizer.lexeme, ended]
  have comments : (parse v t).comments =
      ((built v t (passed ++ more)).endComment s'.position s'.position).comments := by
    have tokens : tokensOf v t = passed ++ more ++ [s'.token] := by
      rw [List.append_assoc, ← all]
      exact h.tokens_eq
    rw [comments_parse_eq, tokens, built_concat, Builder.take, last, Tokenizer.token_span, still]
  rw [comments, filter_comments_endComment (commentsStand_built (h.trans further)),
    comments_built further]
  intro token mem
  exact none_closes token (all ▸ List.mem_append_left _ mem)

end Document

end MarkupAnalysis
