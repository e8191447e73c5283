import MarkupAnalysis.Proofs.Document.CommentPlaces
import MarkupAnalysis.Proofs.Document.OffTags
import MarkupAnalysis.Proofs.Token.BodyEnd
import MarkupAnalysis.Proofs.Token.Spelling

/-! # Comments are recorded exactly

A comment is put together from up to three tokens: the `<!--`, its text if there is any, and the `-->`, or
the end of the text. The list of comments has one entry for each `<!--` that is scanned as such, with the
offsets at which it stands, and no comment lies in a tag.

* **`Tokenizer.text_of_startComment`**, **`Tokenizer.text_of_comment`** — the tokens of a comment.
* **`Comment.StandsIn`** — a comment as it stands in the text.
* **`Builder.CommentsRead`**, **`Builder.CommentsRead.take`** — the comments between two tokens.
* **`Builder.commentStarts`** — where comments have opened, token by token.
* **`Comment.ApartFrom`** — how a comment lies to an element.
* **`parse_recordsComments`** — the comments of every text. -/

namespace MarkupAnalysis

open Document Text

/-! ## The tokens of a comment -/

/-- Between tags a comment opens with `<!--`. -/
theorem readContent_startComment {memory : TagMemory} {t : Text}
    (opens : (readContent memory t).kind = .startComment) :
    t.take (readContent memory t).length = "<!--".toList := by
  unfold readContent at opens ⊢
  split at opens
  · rfl
  all_goals simp at opens

namespace Tokenizer

variable {s : Tokenizer} {t : Text}

/-- A comment opens with `<!--`. -/
theorem text_of_startComment (h : s.token.kind = .startComment) : s.token.text = "<!--".toList := by
  have some_ahead := ahead_ne_nil h (by decide)
  have outside := mode_of_startComment h
  have opens : s.reading.kind = .startComment := h
  show s.ahead.take s.reading.length = _
  rw [reading_eq some_ahead] at opens ⊢
  generalize s.mode = m at outside opens ⊢
  cases m with
  | content => exact readContent_startComment opens
  | embeddedContent =>
    -- A body with characters is a token of another kind.
    have no_body : ¬ 0 < embeddedBodyLength s.memory.embeddedTag s.ahead := by
      intro some_body
      simp [readToken, readEmbeddedContent, some_body] at opens
    simp only [readToken, readEmbeddedContent, if_neg no_body] at opens ⊢
    exact readContent_startComment opens
  | _ => cases outside

/-- The text of a comment is read in a comment. -/
theorem mode_of_comment (h : s.token.kind = .comment) : s.mode = .comment := by
  have reads := reads (ahead_ne_nil h (by decide))
  rw [h] at reads
  generalize s.mode = m, s.rest.mode = m' at reads
  cases reads
  rfl

/-- Where the text of a comment is read, no `-->` comes next. -/
theorem not_startsWith_of_comment (h : s.token.kind = .comment) :
    ¬ startsWith "-->".toList s.ahead = true := by
  intro ends
  have kind : s.reading.kind = .comment := h
  rw [reading_eq (ahead_ne_nil h (by decide)), mode_of_comment h, readToken, readComment,
    if_pos ends] at kind
  cases kind

/-- **The text of a comment** goes up to the first `-->`, or to the end of the text. -/
theorem text_of_comment (h : s.token.kind = .comment) :
    ¬ "-->".toList <:+: s.token.text ∧
      (s.rest.ahead = [] ∨ startsWith "-->".toList s.rest.ahead = true) := by
  have length : s.reading.length = lengthUntil (startsWith "-->".toList) s.ahead := by
    rw [reading_eq (ahead_ne_nil h (by decide)), mode_of_comment h, readToken, readComment,
      if_neg (not_startsWith_of_comment h)]
  constructor
  · show ¬ "-->".toList <:+: s.ahead.take s.reading.length
    rw [length]
    exact not_infix_take_lengthUntil (by decide) s.ahead
  · show s.ahead.drop s.reading.length = [] ∨
      startsWith "-->".toList (s.ahead.drop s.reading.length) = true
    rw [length]
    exact lengthUntil_stops _ s.ahead

end Tokenizer

/-! ## A comment in the text -/

/-- **A comment as it stands in the text.** -/
structure Comment.StandsIn (t : Text) (c : Comment) : Prop where
  /-- It opens with `<!--`, and its content comes right behind. -/
  opens : c.content.start = c.span.start + 4 ∧
    t.slice? ⟨c.span.start, c.content.start⟩ = some "<!--".toList
  /-- There is no `-->` in its content. -/
  content : ∃ body, t.slice? c.content = some body ∧ ¬ "-->".toList <:+: body
  /-- It ends with the `-->` right behind its content. Or there is no `-->` in the rest of the text, and its
  content and itself end there. -/
  ends : c.content.stop + 3 = c.span.stop ∧
      t.slice? ⟨c.content.stop, c.span.stop⟩ = some "-->".toList ∨
    c.content.stop = t.byteLength ∧ c.span.stop = t.byteLength ∧
      ∃ rest, t.dropBytes? c.content.start = some rest ∧ ¬ "-->".toList <:+: rest

/-- A slice up to the end of the text is the rest of the text. -/
theorem Text.dropBytes?_of_slice? {t rest : Text} {start : Nat}
    (slice : t.slice? ⟨start, t.byteLength⟩ = some rest) : t.dropBytes? start = some rest := by
  obtain ⟨before, behind, split, start_eq, stop_eq⟩ := slice?_eq_some_iff.mp slice
  have nothing : behind = [] := by
    rw [← byteLength_eq_zero_iff]
    have length := congrArg byteLength split
    rw [byteLength_append, byteLength_append] at length
    omega
  rw [nothing, List.append_nil] at split
  exact dropBytes?_eq_some_iff.mpr ⟨before, split, start_eq⟩

namespace Builder

variable {v : Vocabulary} {t : Text} {b : Builder} {s : Tokenizer} {length : Nat}

/-! ## Comments between two tokens -/

/-- The content of the comment that is being read, as far as it goes. -/
def contentSoFar (b : Builder) (position : Nat) : Span := b.commentContent.getD ⟨position, position⟩

/-- **The comment that is being read**, as far as it goes. -/
structure ReadsComment (t : Text) (s : Tokenizer) (b : Builder) (start : Nat) : Prop where
  /-- It opens with `<!--`. -/
  opens : t.slice? ⟨start, start + 4⟩ = some "<!--".toList
  /-- Its content starts right behind the `<!--`. -/
  starts : (b.contentSoFar s.position).start = start + 4
  /-- Its content ends where the next token starts. -/
  stops : (b.contentSoFar s.position).stop = s.position
  /-- Its content has no `-->`. -/
  body : ∃ body, t.slice? (b.contentSoFar s.position) = some body ∧ ¬ "-->".toList <:+: body
  /-- Once its text has been read, the comment ends. -/
  complete : b.commentContent ≠ none → s.ahead = [] ∨ startsWith "-->".toList s.ahead = true

/-- **The comments between two tokens** stand in the text. -/
structure CommentsRead (t : Text) (s : Tokenizer) (b : Builder) : Prop where
  /-- The comments that have ended stand in the text. -/
  each : ∀ c ∈ b.comments, c.StandsIn t
  /-- The last one is being read. -/
  reading : ∀ start, b.commentStart = some start → b.ReadsComment t s start

namespace CommentsRead

/-- A comment opens. -/
theorem openComment (so_far : b.CommentsRead t s) (here : s.At t) (kind : s.token.kind = .startComment) :
    { b with commentStart := some s.position, commentContent := none }.CommentsRead t s.rest := by
  refine ⟨so_far.each, fun start opening => ?_⟩
  obtain rfl : s.position = start := Option.some.inj opening
  have text := Tokenizer.text_of_startComment kind
  have behind : s.rest.position = s.position + 4 := Tokenizer.position_rest_of_text text
  have slice := here.slice
  rw [text, Tokenizer.token_span, behind] at slice
  exact ⟨slice, behind, rfl, ⟨[], slice?_empty here.rest.isBoundary, by decide⟩,
    fun given => absurd rfl given⟩

/-- The text of a comment. -/
theorem commentText (so_far : b.CommentsRead t s) (here : s.At t) (kind : s.token.kind = .comment) :
    { b with commentContent := some s.token.span }.CommentsRead t s.rest := by
  refine ⟨so_far.each, fun start opening => ?_⟩
  have reads := so_far.reading start opening
  obtain ⟨no_end, ends⟩ := Tokenizer.text_of_comment kind
  have none_yet : b.commentContent = none := by
    by_contra given
    rcases reads.complete given with ended | closes
    · exact Tokenizer.ahead_ne_nil kind (by decide) ended
    · exact Tokenizer.not_startsWith_of_comment kind closes
  have starts : s.position = start + 4 := by
    have known := reads.starts
    rwa [contentSoFar, none_yet] at known
  exact ⟨reads.opens, starts, rfl, ⟨_, here.slice, no_end⟩, fun _ => ends⟩

/-- The end of a comment, whichever it is. -/
theorem endComment {s' : Tokenizer} {stop : Nat} (so_far : b.CommentsRead t s)
    (ends : ∀ content : Span, content.stop = s.position →
      (∃ body, t.slice? content = some body ∧ ¬ "-->".toList <:+: body) →
      content.stop + 3 = stop ∧ t.slice? ⟨content.stop, stop⟩ = some "-->".toList ∨
        content.stop = t.byteLength ∧ stop = t.byteLength ∧
          ∃ rest, t.dropBytes? content.start = some rest ∧ ¬ "-->".toList <:+: rest) :
    (b.endComment s.position stop).CommentsRead t s' := by
  cases opening : b.commentStart with
  | none =>
    have same : b.endComment s.position stop = b := by simp only [Builder.endComment, opening]
    rw [same]
    refine ⟨so_far.each, fun start reading => ?_⟩
    exact absurd (reading.symm.trans opening) (Option.some_ne_none start)
  | some start =>
    have reads := so_far.reading start opening
    simp only [Builder.endComment, opening]
    refine ⟨fun c mem => ?_, fun start reading => absurd reading.symm (Option.some_ne_none start)⟩
    rcases Array.mem_push.mp mem with old | rfl
    · exact so_far.each c old
    · refine ⟨⟨reads.starts, ?_⟩, reads.body, ends _ reads.stops reads.body⟩
      show t.slice? ⟨start, (b.contentSoFar s.position).start⟩ = _
      rw [reads.starts]
      exact reads.opens

/-- **Every token** leaves the comments as they stand in the text. -/
theorem take (so_far : b.CommentsRead t s) (here : s.At t) (some_ahead : s.ahead ≠ [])
    (comments : b.CommentsStand t s.mode s.position) :
    (b.take v length s.token).CommentsRead t s.rest := by
  by_cases kind : s.token.kind = .startComment ∨ s.token.kind = .comment ∨ s.token.kind = .endComment
  · rcases kind with kind | kind | kind
    · rw [take_startComment kind]
      exact so_far.openComment here kind
    · rw [take_comment kind]
      exact so_far.commentText here kind
    · have text := Tokenizer.text_of_endComment kind
      have slice := here.slice
      rw [text, Tokenizer.token_span] at slice
      rw [take_endComment kind]
      -- What follows the content is the token that is being taken.
      refine so_far.endComment fun content stop _ => .inl ?_
      rw [stop]
      exact ⟨(Tokenizer.position_rest_of_text text).symm, slice⟩
  · obtain ⟨none_read, same⟩ := comments.take_other some_ahead kind v length
    obtain ⟨known, rest⟩ := Prod.mk.inj same
    refine ⟨known ▸ so_far.each, fun start opening => ?_⟩
    exact absurd (opening.symm.trans ((Prod.mk.inj rest).1.trans none_read)) (Option.some_ne_none start)

end CommentsRead

/-! ## One entry for each comment that opens -/

/-- Where comments have opened: those that have ended, and the one that is being read. -/
def commentStarts (b : Builder) : List Nat :=
  b.comments.toList.map (·.span.start) ++ b.commentStart.toList

/-- The end of a comment moves it into the list. -/
theorem commentStarts_endComment (contentStop stop : Nat) :
    (b.endComment contentStop stop).commentStarts = b.commentStarts := by
  unfold Builder.endComment
  cases opening : b.commentStart with
  | none => rfl
  | some start => simp [commentStarts, opening]

/-- **Every `<!--` is counted**, and nothing else is. -/
theorem commentStarts_take (some_ahead : s.ahead ≠ []) (comments : b.CommentsStand t s.mode s.position) :
    (b.take v length s.token).commentStarts =
      b.commentStarts ++ if s.token.kind = .startComment then [s.token.span.start] else [] := by
  by_cases kind : s.token.kind = .startComment ∨ s.token.kind = .comment ∨ s.token.kind = .endComment
  · rcases kind with kind | kind | kind
    · have none_read := comments.none_read some_ahead (by simp [kind])
      rw [if_pos kind, take_startComment kind, Tokenizer.token_span]
      simp [commentStarts, none_read]
    · rw [if_neg (by simp [kind]), take_comment kind, List.append_nil]
      rfl
    · rw [if_neg (by simp [kind]), take_endComment kind, List.append_nil]
      exact commentStarts_endComment _ _
  · obtain ⟨-, same⟩ := comments.take_other some_ahead kind v length
    obtain ⟨known, rest⟩ := Prod.mk.inj same
    rw [if_neg fun start => kind (.inl start), List.append_nil, commentStarts, known, (Prod.mk.inj rest).1]
    rfl

end Builder

/-! ## Whole texts -/

/-- How a comment lies to an element: it is **in neither of its tags**, and it is inside or outside. -/
structure Comment.ApartFrom (c : Comment) (n : Node) : Prop where
  /-- It is before the start tag or behind it. -/
  startTag : c.span.stop ≤ n.start ∨ n.contentStart ≤ c.span.start
  /-- It is before the end tag or behind it. -/
  endTag : ∀ e, n.endTag = some e → c.span.stop ≤ e.start ∨ n.stop ≤ c.span.start
  /-- It is inside the content, or outside of the element. -/
  inside_or_outside : n.contentStart ≤ c.span.start ∧ c.span.stop ≤ n.contentStop ∨
    c.span.stop ≤ n.start ∨ n.stop ≤ c.span.start

/-- A comment with no edge of an element inside it, which opens off the element's tags. -/
theorem Comment.apartFrom_of_offTags {c : Comment} {n : Node} (some_text : c.span.start < c.span.stop)
    (edges : ∀ offset, n.Edge offset → c.span.Avoids offset) (off_tags : n.OffTags c.span.start) :
    c.ApartFrom n := by
  have start := edges _ .start
  have stop := edges _ .stop
  have contentStop : c.span.Avoids n.contentStop := by
    cases met : n.endTag with
    | none => rwa [Node.contentStop, Node.endTagStart, met]
    | some e =>
      rw [Node.contentStop_eq met]
      exact edges _ (.endTagStart met)
  unfold Span.Avoids at start stop contentStop
  have startTag : c.span.stop ≤ n.start ∨ n.contentStart ≤ c.span.start := by
    refine off_tags.startTag.imp_left fun before => ?_
    omega
  have endTag (e : EndTag) (met : n.endTag = some e) : c.span.stop ≤ e.start ∨ n.stop ≤ c.span.start := by
    have tag := edges _ (.endTagStart met)
    unfold Span.Avoids at tag
    refine (off_tags.endTag e met).imp_left fun before => ?_
    omega
  refine ⟨startTag, endTag, ?_⟩
  rcases startTag with before | behind
  · exact .inr (.inl before)
  · rcases contentStop with past | inside
    · -- Behind the content there is the end tag at most.
      refine .inr (.inr ?_)
      cases met : n.endTag with
      | none => rwa [Node.contentStop, Node.endTagStart, met] at past
      | some e =>
        rw [Node.contentStop_eq met] at past
        exact (endTag e met).resolve_left (by omega)
    · exact .inl ⟨behind, inside⟩

namespace Document

variable {v : Vocabulary} {t : Text} {s : Tokenizer} {passed : List Token}

/-- The comments after some of the tokens of a text stand in the text. -/
theorem commentsRead_built (h : (scanner v t).Passes passed s) :
    (built v t passed).CommentsRead t s := by
  refine h.along (P := fun passed s => (built v t passed).CommentsRead t s) ?_ ?_
  · exact ⟨by simp [built, blank, Builder.start], nofun⟩
  · intro passed s passes some_ahead so_far
    rw [built_concat]
    exact so_far.take (passes.at_of_at (scanner_at v t)) some_ahead (commentsStand_built passes)

/-- The comments so far have opened where the tokens so far have the start of a comment. -/
theorem commentStarts_built (h : (scanner v t).Passes passed s) :
    (built v t passed).commentStarts =
      (passed.filter (·.kind = .startComment)).map (·.span.start) := by
  refine h.along (P := fun passed _ => (built v t passed).commentStarts =
    (passed.filter (·.kind = .startComment)).map (·.span.start)) ?_ ?_
  · rfl
  · intro passed s passes some_ahead so_far
    rw [built_concat, Builder.commentStarts_take some_ahead (commentsStand_built passes), so_far,
      List.filter_append, List.map_append]
    congr 1
    by_cases kind : s.token.kind = .startComment <;> simp [kind]

/-- **The comments of a text** and what they stand for. -/
structure RecordsComments (v : Vocabulary) (t : Text) (d : Document) : Prop where
  /-- There is one for each `<!--` that is scanned as the start of a comment, in order. -/
  tokens : d.comments.toList.map (·.span.start) =
    ((tokensOf v t).filter (·.kind = .startComment)).map (·.span.start)
  /-- Each has characters and ends before the next one starts. -/
  ordered : (∀ c ∈ d.comments, c.span.start < c.span.stop) ∧
    d.comments.toList.Pairwise fun c later => c.span.stop ≤ later.span.start
  /-- Each stands in the text as it is recorded. -/
  standsIn : ∀ c ∈ d.comments, c.StandsIn t
  /-- None is in a tag of an element, and each is inside or outside of every element. -/
  apart : ∀ c ∈ d.comments, ∀ id, d.IsElement id → c.ApartFrom (d.node id)

/-- The comments of a text stand in it. -/
theorem standsIn_parse (v : Vocabulary) (t : Text) : ∀ c ∈ (parse v t).comments, c.StandsIn t := by
  obtain ⟨passed, s, passes, ended, -⟩ := (scanner v t).exists_passes
  have last : s.rest.position = s.position := by simp [Tokenizer.rest, Tokenizer.lexeme, ended]
  have position := (passes.at_of_at (scanner_at v t)).position_eq ended
  have comments : (parse v t).comments =
      ((built v t passed).endComment s.position s.position).comments := by
    rw [comments_parse_eq, built_tokensOf_of_ended passes ended, Tokenizer.token_span, last]
  rw [comments]
  have read : ((built v t passed).endComment s.position s.position).CommentsRead t s := by
    refine (commentsRead_built passes).endComment fun content stop body => .inr ?_
    rw [position] at stop
    obtain ⟨body, slice, no_end⟩ := body
    have whole : content = ⟨content.start, t.byteLength⟩ := by rw [← stop]
    rw [whole] at slice
    exact ⟨stop, position, body, dropBytes?_of_slice? slice, no_end⟩
  exact read.each

/-- There is a comment for each start of one. -/
theorem starts_comments_parse (v : Vocabulary) (t : Text) :
    (parse v t).comments.toList.map (·.span.start) =
      ((tokensOf v t).filter (·.kind = .startComment)).map (·.span.start) := by
  obtain ⟨passed, s, passes, ended, all⟩ := (scanner v t).exists_passes
  have tokens : tokensOf v t = passed ++ [s.token] := all
  have last : s.token.kind = .eof := Tokenizer.token_kind_eq_eof_iff.mpr ended
  have none_left : (built v t (tokensOf v t)).commentStart = none := by
    rw [built_tokensOf_of_ended passes ended, Builder.endComment]
    cases opening : (built v t passed).commentStart with
    | none => exact opening
    | some start => rfl
  have starts : (built v t (tokensOf v t)).commentStarts = (built v t passed).commentStarts := by
    rw [built_tokensOf_of_ended passes ended]
    exact Builder.commentStarts_endComment _ _
  rw [Builder.commentStarts, none_left, Option.toList_none, List.append_nil, commentStarts_built passes]
    at starts
  rw [comments_parse_eq, starts, tokens, List.filter_append, List.map_append]
  simp [last]

end Document

/-- **The comments of every text are recorded exactly.** -/
theorem parse_recordsComments (v : Vocabulary) (t : Text) : (parse v t).RecordsComments v t := by
  have apart := commentsApart_parse v t
  have starts := starts_comments_parse v t
  refine ⟨starts, ⟨apart.start_lt_stop, apart.ordered⟩, standsIn_parse v t, fun c mem id element => ?_⟩
  refine Comment.apartFrom_of_offTags (apart.start_lt_stop c mem)
    (fun offset edge => apart.edges id element.2 offset edge c mem) ?_
  -- The token that the comment has come from.
  have opened : c.span.start ∈ (parse v t).comments.toList.map (·.span.start) :=
    List.mem_map_of_mem (Array.mem_toList_iff.mpr mem)
  rw [starts] at opened
  obtain ⟨token, listed, start⟩ := List.mem_map.mp opened
  obtain ⟨in_scan, kind⟩ := List.mem_filter.mp listed
  obtain ⟨before, after, split⟩ := List.mem_iff_append.mp in_scan
  obtain ⟨s, passes, rfl, -⟩ := Tokenizer.passes_of_tokens_eq split
  rw [← start]
  exact offTags_parse passes (of_decide_eq_true kind) element

end MarkupAnalysis
