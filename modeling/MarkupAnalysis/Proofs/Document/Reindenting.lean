import MarkupAnalysis.Proofs.Document.Moving
import MarkupAnalysis.Proofs.Document.OpaqueBody
import MarkupAnalysis.Proofs.Token.BlankRuns
import MarkupAnalysis.Proofs.Token.Respelling

/-! # Another tag at a bracket

The text up to a `<` is cut into the same tokens, and the same elements are built from them, if another tag
opens there and if another run of blanks stands before the bracket.

* **`Token.Reindents`** — a token and the one that stands for it.
* **`Tokenizer.Passes.reindented`** — the way to the bracket in the other text.
* **`Builder.moves_of_passes`** — what is built on the way.
* **`Document.reindented`** — both, from the start of the text. -/

namespace MarkupAnalysis

open Text

/-! ## Tokens -/

/-- Where an offset goes if `stop` alone moves. -/
def moveEnd (stop stop' offset : Nat) : Nat := if offset = stop then stop' else offset

/-- With the run before it, `stop` alone moves: where nothing stands before `stop` in one text, nothing does
in the other one. -/
theorem StartAlike.moveEnd_eq_self {blanks blanks' before : Text} {start stop stop' offset : Nat}
    (alike : StartAlike blanks blanks') (ends : stop = start + byteLength (before ++ blanks))
    (ends' : stop' = start + byteLength (before ++ blanks')) (early : offset ≤ start) :
    moveEnd stop stop' offset = offset := by
  rw [moveEnd]
  split_ifs with at_stop
  · obtain ⟨rfl, rfl⟩ := List.append_eq_nil_iff.mp (byteLength_eq_zero_iff.mp
      (show byteLength (before ++ blanks) = 0 by omega))
    rw [ends', alike.eq_nil rfl, at_stop, ends]
  · rfl

/-- **The same token before another run of blanks**: its ends move, and names and values stay as they are. -/
structure Token.Reindents (σ : Nat → Nat) (token token' : Token) : Prop extends token.Moves σ token' where
  /-- What a document is built from is written as it was. -/
  text : token.kind = .content ∨ token.kind = .whitespace ∨ token.kind = .embeddedContent ∨
    token'.text = token.text

/-- Between tags there is none to close. -/
theorem Mode.Reads.not_closes {m m' : Mode} {kind : TokenKind} (reads : m.Reads kind m')
    (between : m.betweenTags) : ¬ (kind = .startTagClose ∨ kind = .endTagClose) := by
  rintro (rfl | rfl)
  · cases reads with
    | startTagEnds inside | startTagEndsBeforeBody inside =>
      cases m <;> first | exact absurd inside (by decide) | exact absurd between (by decide)
  · cases reads with
    | endTagEnds inside => cases m <;> first | exact absurd inside (by decide) | exact absurd between (by decide)

namespace Tokenizer

variable {s s' : Tokenizer} {passed further earlier : List Token} {blanks blanks' before rest rest' : Text}
  {stop' : Nat}

/-- A declaration that is read on the way out of it has its bracket. -/
theorem Passes.bracket_mem_of_startDoctype (h : s.rest.Passes further s') (some_ahead : s.ahead ≠ [])
    (kind : s.token.kind = .startDoctype) (away : s'.mode.betweenTags) :
    '>' ∈ further.flatMap (·.text) := by
  have reads := reads some_ahead
  rw [kind] at reads
  have mode : s.rest.mode = .doctype := by
    generalize s.mode = m, s.rest.mode = m' at reads
    cases reads
    rfl
  refine h.bracket_mem mode ?_
  intro doctype
  rw [doctype] at away
  cases away

/-- In the body of an embedded element its tag is remembered. -/
theorem Remembers.embeddedTag (h : s.Remembers earlier) (mode : s.mode = .embeddedContent) :
    s.memory.embeddedTag = some s.memory.tag ∧ IsTagName s.memory.tag := by
  obtain ⟨embedded, opens⟩ := h.body mode
  obtain ⟨some_name, -⟩ := opensEmbeddedBody_iff.mp opens
  exact ⟨embedded, (h.tag.resolve_left some_name).1⟩

/-- A passage without characters that starts in the content has no token. -/
theorem Passes.eq_of_content (h : s.Passes passed s') (content : s.mode = .content)
    (nothing : passed.flatMap (·.text) = []) : passed = [] ∧ s = s' := by
  cases h with
  | here => exact ⟨rfl, rfl⟩
  | step some_ahead further =>
    obtain ⟨no_text, -⟩ := List.append_eq_nil_iff.mp nothing
    exact absurd content ((progress some_ahead).resolve_left fun some_text => some_text no_text).2

/-- An opaque body leads back to the content and keeps the tag. -/
theorem rest_of_embeddedContent (kind : s.token.kind = .embeddedContent) :
    s.rest.mode = .content ∧ s.rest.memory.tag = s.memory.tag := by
  have some_ahead := ahead_ne_nil kind (by decide)
  have mode := mode_of_embeddedContent kind
  have reads := reads some_ahead
  rw [kind] at reads
  refine ⟨?_, tag_rest some_ahead (by simp [mode])⟩
  generalize s.mode = m, s.rest.mode = m' at reads
  cases reads
  rfl

/-- A passage moves on by its characters. -/
theorem Passes.position_eq (h : s.Passes passed s') :
    s'.position = s.position + byteLength (passed.flatMap (·.text)) := by
  induction h with
  | here => rfl
  | step some_ahead passes ih =>
    rw [ih, position_rest, List.flatMap_cons, byteLength_append, Nat.add_assoc]

/-- The same place of the grammar elsewhere in a text. -/
def moveTo (s : Tokenizer) (position : Nat) (ahead : Text) : Tokenizer := { s with position, ahead }

/-- The step of a tokenizer that has moved, if it reads the same over other characters. -/
theorem moveTo_step {lexeme behind : Text} {position : Nat} (some_ahead : lexeme ++ behind ≠ [])
    (reading : readToken s.vocabulary s.pseudoClose s.mode s.memory (lexeme ++ behind) =
      { s.reading with length := lexeme.length }) :
    (s.moveTo position (lexeme ++ behind)).token =
        ⟨s.token.kind, ⟨position, position + lexeme.byteLength⟩, lexeme, s.token.error⟩ ∧
      (s.moveTo position (lexeme ++ behind)).rest =
        s.rest.moveTo (position + lexeme.byteLength) behind := by
  have read : (s.moveTo position (lexeme ++ behind)).reading = { s.reading with length := lexeme.length } :=
    (reading_eq some_ahead).trans reading
  have taken : (s.moveTo position (lexeme ++ behind)).lexeme = lexeme := by
    rw [Tokenizer.lexeme, read]
    exact List.take_left
  refine ⟨?_, ?_⟩
  · simp only [token, taken, read]
    rfl
  · simp only [Tokenizer.rest, taken, read]
    simp only [moveTo, List.drop_left]

/-- **A passage without characters** can be made wherever a `<` comes next. -/
theorem Passes.moveTo (h : s.Passes passed s') (opens : s'.ahead = '<' :: rest)
    (nothing : passed.flatMap (·.text) = []) (rest' : Text) (stop' : Nat) :
    ∃ passed', (s.moveTo stop' ('<' :: rest')).Passes passed' (s'.moveTo stop' ('<' :: rest')) ∧
      List.Forall₂ (Token.Reindents (moveEnd s'.position stop')) passed passed' := by
  cases h with
  | here => exact ⟨[], .here _, .nil⟩
  | @step _ _ further some_ahead passes =>
    obtain ⟨no_text, none_further⟩ := List.append_eq_nil_iff.mp nothing
    -- A token without characters is that of an interrupted tag, and there is one at most.
    obtain ⟨content, away⟩ := (progress some_ahead).resolve_left fun some_text => some_text no_text
    obtain ⟨rfl, rfl⟩ := passes.eq_of_content content none_further
    have no_text : s.token.text = [] := no_text
    have length : s.reading.length = 0 := s.length_lexeme.symm.trans (congrArg List.length no_text)
    have ahead : s.ahead = '<' :: rest := by
      rw [← opens, ← s.lexeme_append_ahead_rest]
      exact congrArg (· ++ s.rest.ahead) no_text
    have here : s.position = s.rest.position := by
      rw [position_rest, no_text]
      rfl
    have interrupts := (token_text_eq_nil_iff some_ahead).mp no_text
    have reading := reading_eq some_ahead
    rw [ahead] at reading
    have not_body : s.mode ≠ .embeddedContent := fun body =>
      (reads some_ahead).not_closes (by rw [body]; rfl) interrupts.1
    have not_declaration : s.reading.kind ≠ .startDoctype := by
      intro kind
      rcases interrupts.1 with other | other <;> rw [other] at kind <;> cases kind
    -- The tag is interrupted by the `<`, so what follows it does not matter.
    have same : readToken s.vocabulary s.pseudoClose s.mode s.memory ([] ++ '<' :: rest') =
        { s.reading with length := ([] : Text).length } := by
      have before := @readToken_before_run s.vocabulary s.pseudoClose s.mode s.memory [] [] [] rest rest'
        .nil (fun body => absurd body not_body)
      simp only [List.nil_append, ← reading] at before
      rw [List.nil_append, before (Nat.le_of_eq length) fun kind => absurd kind not_declaration,
        List.length_nil, ← length]
    obtain ⟨token, behind⟩ := @moveTo_step s [] ('<' :: rest') stop' (by simp) same
    rw [List.nil_append] at token behind
    refine ⟨[(s.moveTo stop' ('<' :: rest')).token], .step (by simp [Tokenizer.moveTo]) ?_, ?_⟩
    · rw [behind]
      exact .here _
    · rw [token]
      refine .cons ⟨⟨rfl, ?_, ?_⟩, .inr (.inr (.inr no_text.symm))⟩ .nil
      · simp [token_span, Span.moved, moveEnd, here]
      · simp [token_span, Span.isEmpty, here]

section step

variable (alike : StartAlike blanks blanks') (some_ahead : s.ahead ≠ []) (passes : s.rest.Passes further s')
  (opens : s'.ahead = '<' :: rest) (remembers : s.Remembers earlier)
  (text : s.lexeme ++ further.flatMap (·.text) = before ++ blanks)

include passes opens text in
/-- Before a way to a bracket stands the text of the way. -/
theorem ahead_eq_of_way : s.ahead = before ++ (blanks ++ '<' :: rest) := by
  rw [← List.append_assoc, ← text, List.append_assoc, ← opens, ← passes.ahead_eq]
  exact s.lexeme_append_ahead_rest.symm

include alike some_ahead passes opens remembers text in
/-- **The token that holds the run** holds the other run in the other text. Nothing but an empty token may
come between it and the bracket. -/
theorem step_over_run (beyond : before.length < s.reading.length)
    (body : s.token.kind = .embeddedContent → further.flatMap (·.text) = [] →
      isEndTagOf s.memory.tag ('<' :: rest') = true) :
    further.flatMap (·.text) = [] ∧ blanks ≠ [] ∧
      (s.token.kind = .content ∨ s.token.kind = .whitespace ∨ s.token.kind = .embeddedContent) ∧
      (s.moveTo s.position (before ++ blanks' ++ '<' :: rest')).token =
        ⟨s.token.kind, ⟨s.position, s.position + (before ++ blanks').byteLength⟩, before ++ blanks',
          s.token.error⟩ ∧
      (s.moveTo s.position (before ++ blanks' ++ '<' :: rest')).rest =
        s.rest.moveTo (s.position + (before ++ blanks').byteLength) ('<' :: rest') := by
  have lengths := congrArg List.length text
  rw [List.length_append, List.length_append, s.length_lexeme] at lengths
  have inside : s.reading.length ≤ before.length + blanks.length := by omega
  have reading := reading_eq some_ahead
  rw [ahead_eq_of_way passes opens text] at reading
  obtain ⟨reaches, fills⟩ : s.reading.length = before.length + blanks.length ∧
      (s.token.kind = .content ∨ s.token.kind = .whitespace ∨ s.token.kind = .embeddedContent) := by
    rw [reading] at beyond inside ⊢
    obtain ⟨reaches, fills⟩ := reaches_of_over_run alike.blank beyond inside
    rw [← reading] at fills
    exact ⟨reaches, fills⟩
  have nothing : further.flatMap (·.text) = [] := List.eq_nil_of_length_eq_zero (by omega)
  have same : readToken s.vocabulary s.pseudoClose s.mode s.memory (before ++ (blanks' ++ '<' :: rest')) =
      { s.reading with length := before.length + blanks'.length } := by
    rw [reading] at beyond inside ⊢
    refine readToken_over_run alike (fun mode => ?_) beyond inside
    obtain ⟨embedded, name⟩ := remembers.embeddedTag mode
    refine ⟨_, embedded, name, fun kind => body ?_ nothing⟩
    rw [← reading] at kind
    exact kind
  rw [← List.length_append, ← List.append_assoc] at same
  refine ⟨nothing, ?_, fills, moveTo_step (by simp) same⟩
  rintro rfl
  rw [List.length_nil] at reaches
  omega

include alike some_ahead passes opens remembers text in
/-- **A token before the run** is the same in the other text. -/
theorem step_before_run (inside : s.reading.length ≤ before.length) (between : s'.mode.betweenTags)
    (body : s.token.kind = .embeddedContent → further.flatMap (·.text) = [] →
      isEndTagOf s.memory.tag ('<' :: rest') = true) :
    ∃ left, before = s.lexeme ++ left ∧ further.flatMap (·.text) = left ++ blanks ∧
      (s.withAhead (before ++ (blanks' ++ '<' :: rest'))).token = s.token ∧
      (s.withAhead (before ++ (blanks' ++ '<' :: rest'))).rest =
        s.rest.withAhead (left ++ (blanks' ++ '<' :: rest')) := by
  have reading := reading_eq some_ahead
  rw [ahead_eq_of_way passes opens text] at reading
  have length := s.length_lexeme
  obtain ⟨left, rfl⟩ : s.lexeme <+: before :=
    List.prefix_of_prefix_length_le ⟨_, text⟩ (List.prefix_append _ _) (length.trans_le inside)
  have text : further.flatMap (·.text) = left ++ blanks := by
    rw [List.append_assoc] at text
    exact List.append_cancel_left text
  have same : readToken s.vocabulary s.pseudoClose s.mode s.memory
      (s.lexeme ++ left ++ (blanks' ++ '<' :: rest')) = s.reading := by
    rw [reading] at inside ⊢
    -- A body may end at the run only by its own end tag, and a declaration has its bracket before the run.
    refine readToken_before_run alike (fun mode => ?_) inside (fun kind => ?_)
    · obtain ⟨embedded, name⟩ := remembers.embeddedTag mode
      refine ⟨_, embedded, name, fun no_blank kind reaches => ?_⟩
      rw [← reading] at kind reaches
      refine body kind ?_
      rw [List.length_append] at reaches
      rw [text, no_blank, List.append_nil]
      exact List.eq_nil_of_length_eq_zero (by omega)
    · rw [← reading] at kind
      have mem := passes.bracket_mem_of_startDoctype some_ahead kind between
      rw [text] at mem
      rcases List.mem_append.mp mem with early | blank
      · exact List.mem_append_right _ early
      · exact absurd (alike.blank '>' blank) (by decide)
  have still_ahead : (s.withAhead (s.lexeme ++ (left ++ (blanks' ++ '<' :: rest')))).ahead ≠ [] := by
    simp [withAhead]
  rw [List.append_assoc] at same ⊢
  exact ⟨left, rfl, text, withAhead_step ((reading_eq still_ahead).trans same)⟩

include alike some_ahead passes opens remembers text in
/-- The way to the bracket of an end tag goes over any other run of blanks before it. -/
theorem reindented_over_run (beyond : before.length < s.reading.length)
    (body : s.token.kind = .embeddedContent → further.flatMap (·.text) = [] →
      isEndTagOf s.memory.tag ('<' :: rest') = true)
    (stop : stop' = s.position + byteLength (before ++ blanks')) :
    ∃ passed', (s.withAhead (before ++ (blanks' ++ '<' :: rest'))).Passes passed'
        (s'.moveTo stop' ('<' :: rest')) ∧
      List.Forall₂ (Token.Reindents (moveEnd s'.position stop')) (s.token :: further) passed' := by
  obtain ⟨nothing, some_run, fills, token, behind⟩ :=
    step_over_run alike some_ahead passes opens remembers text beyond body
  obtain ⟨passed', passes', moved⟩ := passes.moveTo opens nothing rest' stop'
  have last : s'.position = s.rest.position := by
    rw [passes.position_eq, nothing]
    rfl
  -- The run has a character in both texts.
  have some_text : s.position < s.rest.position := by
    refine position_lt_rest some_ahead ?_ ?_
    all_goals
      intro closes
      rw [closes] at fills
      rcases fills with kind | kind | kind <;> cases kind
  have some_text' : s.position < stop' := by
    have longer := List.length_pos_iff.mpr (alike.ne_nil some_run)
    have bytes := length_le_byteLength blanks'
    rw [stop, byteLength_append]
    omega
  refine ⟨(s.moveTo s.position (before ++ blanks' ++ '<' :: rest')).token :: passed', ?_,
    .cons ⟨⟨?_, ?_, ?_⟩, ?_⟩ moved⟩
  · rw [← List.append_assoc]
    refine .step (s := s.moveTo s.position (before ++ blanks' ++ '<' :: rest'))
      (by simp [Tokenizer.moveTo]) ?_
    rw [behind, ← stop]
    exact passes'
  · rw [token]
  · rw [token, token_span, ← stop]
    simp only [Span.moved, moveEnd, last]
    rw [if_neg (Nat.ne_of_lt some_text), if_pos trivial]
  · rw [token, token_span, ← stop]
    simp [Span.isEmpty, Nat.ne_of_lt some_text, Nat.ne_of_lt some_text']
  · exact fills.imp id fun fills => fills.imp id .inl

end step

/-- **The way to a bracket** is the same over another run of blanks before it, whatever comes behind it.
Where an opaque body ends at the bracket, it has to be an end tag of the element. -/
theorem Passes.reindented (h : s.Passes passed s') (alike : StartAlike blanks blanks')
    (opens : s'.ahead = '<' :: rest) (between : s'.mode.betweenTags) (remembers : s.Remembers earlier)
    (text : passed.flatMap (·.text) = before ++ blanks)
    (body : (∃ token, passed.getLast? = some token ∧ token.kind = .embeddedContent) →
      isEndTagOf s'.memory.tag ('<' :: rest') = true)
    (stop : stop' = s.position + byteLength (before ++ blanks')) :
    ∃ passed', (s.withAhead (before ++ (blanks' ++ '<' :: rest'))).Passes passed'
        (s'.moveTo stop' ('<' :: rest')) ∧
      List.Forall₂ (Token.Reindents (moveEnd s'.position stop')) passed passed' := by
  induction h generalizing earlier before with
  | here s =>
    obtain ⟨rfl, rfl⟩ := List.append_eq_nil_iff.mp text.symm
    obtain rfl := alike.eq_nil rfl
    refine ⟨[], ?_, .nil⟩
    rw [stop]
    exact .here _
  | @step s s' further some_ahead passes ih =>
    -- Behind an opaque body that is the last token its tag is still remembered.
    have own_body (kind : s.token.kind = .embeddedContent) (nothing : further.flatMap (·.text) = []) :
        isEndTagOf s.memory.tag ('<' :: rest') = true := by
      obtain ⟨content, tag⟩ := rest_of_embeddedContent kind
      obtain ⟨rfl, rfl⟩ := passes.eq_of_content content nothing
      rw [← tag]
      exact body ⟨s.token, rfl, kind⟩
    by_cases beyond : before.length < s.reading.length
    · exact reindented_over_run alike some_ahead passes opens remembers text beyond own_body stop
    · obtain ⟨left, rfl, text, same_token, same_rest⟩ := step_before_run alike some_ahead passes opens
        remembers text (Nat.le_of_not_lt beyond) between own_body
      have stop : stop' = s.rest.position + byteLength (left ++ blanks') := by
        rw [stop, position_rest, List.append_assoc, byteLength_append, Nat.add_assoc]
        rfl
      have body (last : ∃ token, further.getLast? = some token ∧ token.kind = .embeddedContent) :
          isEndTagOf s'.memory.tag ('<' :: rest') = true := by
        obtain ⟨token, last, kind⟩ := last
        refine body ⟨token, ?_, kind⟩
        rw [List.getLast?_cons, last]
        rfl
      obtain ⟨passed', passes', moved⟩ := ih opens between (remembers.rest some_ahead) text body stop
      have keeps {offset : Nat} (early : offset ≤ s.rest.position) :
          moveEnd s'.position stop' offset = offset :=
        alike.moveEnd_eq_self (text ▸ passes.position_eq) stop early
      refine ⟨s.token :: passed', ?_, .cons ⟨⟨rfl, ?_, rfl⟩, .inr (.inr (.inr rfl))⟩ moved⟩
      · rw [← same_token]
        refine .step (by simp [withAhead]) ?_
        rw [same_rest]
        exact passes'
      · rw [token_span, Span.moved, keeps position_le_rest, keeps (Nat.le_refl _)]

end Tokenizer

/-! ## Builders -/

namespace Builder

variable {v : Vocabulary} {b b' : Builder} {σ : Nat → Nat} {token token' : Token} {length frontier : Nat}

/-- A token before another run of blanks is spelled as it was, as far as a builder reads it. -/
theorem Moves.spells_of_reindents (h : b.Moves σ (fun _ tag => tag) b') (nested : b.Nested length frontier)
    (moved : token.Reindents σ token') : Moves.Spells v (fun _ tag => tag) b b' token token' := by
  have filler (other : token.kind ≠ .startTag ∧ token.kind ≠ .endTag ∧ token.kind ≠ .attributeName ∧
      token.kind ≠ .attributeValue) : Moves.Spells v (fun _ tag => tag) b b' token token' :=
    ⟨fun kind => absurd kind other.1, fun kind => absurd kind other.2.1,
      fun kind => absurd kind (not_or.mpr other.2.2)⟩
  rcases moved.text with kind | kind | kind | text
  · exact filler (by simp [kind])
  · exact filler (by simp [kind])
  · exact filler (by simp [kind])
  · exact h.spells_same nested text

/-- **Builders of two texts** up to a bracket that has another run of blanks before it. -/
theorem moves_of_passes {s s' : Tokenizer} {passed passed' : List Token} (h : s.Passes passed s')
    (moved : List.Forall₂ (Token.Reindents σ) passed passed') (stands : b.Stands length s.mode s.position)
    (aligned : b.Moves σ (fun _ tag => tag) b') (length' : Nat) :
    (passed.foldl (take v length) b).Moves σ (fun _ tag => tag) (passed'.foldl (take v length') b') := by
  induction h generalizing passed' b b' with
  | here => cases moved with | nil => exact aligned
  | @step s _ _ some_ahead _ ih =>
    obtain ⟨token', others', first, others, rfl⟩ := List.forall₂_cons_left_iff.mp moved
    obtain ⟨frontier, -, nested⟩ := stands.exists_nested
    have reads := Tokenizer.reads some_ahead
    rw [List.foldl_cons, List.foldl_cons]
    exact ih others
      (stands_take v stands reads rfl Tokenizer.position_le_rest (Tokenizer.position_lt_rest some_ahead))
      (aligned.take stands reads first.toMoves (aligned.spells_of_reindents nested first) length')

end Builder

/-- **A text up to a bracket, and another one** in which another run of blanks stands before the bracket and
anything behind it. Where an opaque body ends at the bracket, an end tag of its element has to come there. -/
theorem Document.reindented {v : Vocabulary} {t before blanks blanks' rest rest' : Text} {s : Tokenizer}
    {passed : List Token} (h : (scanner v t).Passes passed s) (alike : StartAlike blanks blanks')
    (opens : s.ahead = '<' :: rest) (between : s.mode.betweenTags)
    (text : passed.flatMap (·.text) = before ++ blanks)
    (body : (∃ token, passed.getLast? = some token ∧ token.kind = .embeddedContent) →
      isEndTagOf s.memory.tag ('<' :: rest') = true) :
    ∃ passed', (scanner v (before ++ (blanks' ++ '<' :: rest'))).Passes passed'
        (s.moveTo (byteLength (before ++ blanks')) ('<' :: rest')) ∧
      (built v t passed).Moves (moveEnd s.position (byteLength (before ++ blanks'))) (fun _ tag => tag)
        (built v (before ++ (blanks' ++ '<' :: rest')) passed') := by
  have start : (scanner v t).position = 0 := by rw [scanner_eq]
  have stop : byteLength (before ++ blanks') = (scanner v t).position + byteLength (before ++ blanks') := by
    rw [start, Nat.zero_add]
  obtain ⟨passed', passes', moved⟩ :=
    h.reindented alike opens between (remembers_start v true t) text body stop
  have stands : (blank t).Stands t.byteLength (scanner v t).mode (scanner v t).position := by
    rw [scanner_eq]
    exact ⟨rfl, Builder.nested_start t.byteLength⟩
  refine ⟨passed', ?_, Builder.moves_of_passes h moved stands (Builder.moves_start _ _ ?_) _⟩
  · rw [scanner_eq] at passes' ⊢
    exact passes'
  · have position := h.position_eq
    rw [start, text] at position
    exact alike.moveEnd_eq_self position (Nat.zero_add _).symm (Nat.le_refl 0)

end MarkupAnalysis
