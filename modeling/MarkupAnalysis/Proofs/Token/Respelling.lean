import MarkupAnalysis.Proofs.Token.Continuation
import MarkupAnalysis.Proofs.Token.Names

/-! # Another spelling of a tag's name

A text in which one name of a tag is spelled in another way has the same tokens but for that name, as long
as no tag has an opaque body.

* **`TagMemory.retag`**, **`readToken_retag`** — the name of the tag makes no difference to what is read.
* **`Tokenizer.ReadsMarkup`** — no opaque body is being read.
* **`readToken_before_name`** — what is read right before a name, whichever it is.
* **`Tokenizer.Passes.respelled`** — the way to the name.
* **`Tokenizer.Retagged`**, **`Tokenizer.Retagged.tokens`** — behind the name. -/

namespace MarkupAnalysis

open Text

/-! ## The name in the memory -/

/-- The memory of a tag with another name. -/
def TagMemory.retag (tag : Text) (m : TagMemory) : TagMemory := { m with tag }

/-- The reading in a tag with another name. -/
def Reading.retag (tag : Text) (r : Reading) : Reading := { r with memory := r.memory.retag tag }

/-- The tag that is being read, if it has a name, has no opaque body. -/
def TagMemory.HoldsMarkup (v : Vocabulary) (m : TagMemory) : Prop :=
  m.tag = [] ∨ v.isEmbeddedContent m.tag = false

section retag

variable {v : Vocabulary} {pseudoClose : Bool} {m : TagMemory} {tag t : Text}

/-- The body of such a tag is markup. -/
theorem TagMemory.HoldsMarkup.opensEmbeddedBody (h : m.HoldsMarkup v) :
    opensEmbeddedBody v m = false := by
  rcases h with nameless | markup
  · simp [MarkupAnalysis.opensEmbeddedBody, nameless]
  · simp [MarkupAnalysis.opensEmbeddedBody, markup]

/-- The end of such a start tag. -/
theorem TagMemory.HoldsMarkup.closeStartTag (h : m.HoldsMarkup v) :
    closeStartTag v m = ⟨.startTagClose, 1, .content, m, none⟩ := by
  rw [MarkupAnalysis.closeStartTag, h.opensEmbeddedBody]
  rfl

theorem readContent_retag : readContent (m.retag tag) t = (readContent m t).retag tag := by
  unfold readContent
  split <;> rfl

theorem readComment_retag : readComment (m.retag tag) t = (readComment m t).retag tag := by
  unfold readComment
  dsimp only
  split_ifs <;> rfl

theorem readDoctype_retag : readDoctype (m.retag tag) t = (readDoctype m t).retag tag := by
  unfold readDoctype
  split <;> rfl

theorem readEndTag_retag :
    readEndTag pseudoClose (m.retag tag) t = (readEndTag pseudoClose m t).retag tag := by
  unfold readEndTag
  dsimp only
  split_ifs <;> rfl

theorem readEndTagOpened_retag :
    readEndTagOpened pseudoClose (m.retag tag) t = (readEndTagOpened pseudoClose m t).retag tag := by
  unfold readEndTagOpened
  dsimp only
  rw [readEndTag_retag]
  split_ifs <;> rfl

variable (markup : m.HoldsMarkup v) (markup' : (m.retag tag).HoldsMarkup v)
include markup markup'

theorem readStartTag_retag :
    readStartTag v pseudoClose (m.retag tag) t = (readStartTag v pseudoClose m t).retag tag := by
  have blankBefore : (m.retag tag).blankBefore = m.blankBefore := rfl
  unfold readStartTag
  rw [markup.closeStartTag, markup'.closeStartTag, blankBefore]
  dsimp only
  generalize (if m.blankBefore then lengthWhile isAttributeNameChar t else 0) = name
  split_ifs <;> rfl

theorem readAttributeName_retag :
    readAttributeName v pseudoClose (m.retag tag) t =
      (readAttributeName v pseudoClose m t).retag tag := by
  unfold readAttributeName
  rw [readStartTag_retag markup markup']
  dsimp only
  split_ifs <;> rfl

omit markup markup' in
/-- The name makes no difference to the values that are noted. -/
theorem noteValue_retag (value : Text) :
    (m.retag tag).noteValue value = (m.noteValue value).retag tag := by
  unfold TagMemory.noteValue
  split_ifs <;> first | rfl | contradiction

omit markup markup' in
/-- Noted values make no difference to the body. -/
theorem holdsMarkup_noteValue (markup : m.HoldsMarkup v) (value : Text) :
    (m.noteValue value).HoldsMarkup v := by
  unfold TagMemory.noteValue
  split_ifs <;> exact markup

omit markup markup' in
theorem readQuotedValue_retag (quote : Char) :
    readQuotedValue (m.retag tag) quote t = (readQuotedValue m quote t).retag tag := by
  unfold readQuotedValue
  dsimp only
  rw [noteValue_retag]
  split_ifs <;> rfl

theorem readAttributeValue_retag :
    readAttributeValue v pseudoClose (m.retag tag) t =
      (readAttributeValue v pseudoClose m t).retag tag := by
  have noted := holdsMarkup_noteValue markup (t.take (unquotedValueLength t))
  have noted' := holdsMarkup_noteValue markup' (t.take (unquotedValueLength t))
  unfold readAttributeValue
  rw [noteValue_retag] at noted'
  dsimp only
  rw [noteValue_retag]
  split_ifs
  · rfl
  · rfl
  · exact @readStartTag_retag v pseudoClose { m.noteValue _ with blankBefore := false } tag t noted noted'
  · split
    · exact readQuotedValue_retag _
    · exact readQuotedValue_retag _
    · exact @readStartTag_retag v pseudoClose { m with blankBefore := false } tag t markup markup'

/-- **The name of the tag makes no difference to what is read**, and where no name comes it is kept. -/
theorem readToken_retag {mode : Mode} (opened : mode ≠ .startTagOpened)
    (body : mode ≠ .embeddedContent) :
    readToken v pseudoClose mode (m.retag tag) t =
      (readToken v pseudoClose mode m t).retag tag := by
  cases mode with
  | content => exact readContent_retag
  | startTagOpened => exact absurd rfl opened
  | endTagOpened => exact readEndTagOpened_retag
  | doctype => exact readDoctype_retag
  | startTag => exact readStartTag_retag markup markup'
  | endTag => exact readEndTag_retag
  | comment => exact readComment_retag
  | embeddedContent => exact absurd rfl body
  | attributeName => exact readAttributeName_retag markup markup'
  | attributeValue => exact readAttributeValue_retag markup markup'

/-! ## No opaque body -/

omit markup' in
theorem readStartTag_mode_ne : (readStartTag v pseudoClose m t).mode ≠ .embeddedContent := by
  unfold readStartTag
  rw [markup.closeStartTag]
  dsimp only
  generalize (if m.blankBefore then lengthWhile isAttributeNameChar t else 0) = name
  split_ifs <;> simp

omit markup' in
theorem readAttributeName_mode_ne : (readAttributeName v pseudoClose m t).mode ≠ .embeddedContent := by
  unfold readAttributeName
  dsimp only
  split_ifs
  · simp
  · simp
  · exact readStartTag_mode_ne markup

omit markup' in
theorem readAttributeValue_mode_ne :
    (readAttributeValue v pseudoClose m t).mode ≠ .embeddedContent := by
  have noted := holdsMarkup_noteValue markup (t.take (unquotedValueLength t))
  have quoted (quote : Char) (cs : Text) : (readQuotedValue m quote cs).mode ≠ .embeddedContent := by
    unfold readQuotedValue
    dsimp only
    split <;> simp
  unfold readAttributeValue
  dsimp only
  split_ifs
  · simp
  · simp
  · exact @readStartTag_mode_ne v pseudoClose { m.noteValue _ with blankBefore := false } t noted
  · split
    · exact quoted _ _
    · exact quoted _ _
    · exact @readStartTag_mode_ne v pseudoClose { m with blankBefore := false } t markup

omit markup markup' in
/-- After `<` there is a name, or the tag has none. -/
theorem readStartTagOpened_markup (some_ahead : t ≠ [])
    (named : (readStartTagOpened v pseudoClose m t).kind = .startTag →
      v.isEmbeddedContent (t.take (readStartTagOpened v pseudoClose m t).length) = false) :
    (readStartTagOpened v pseudoClose m t).mode ≠ .embeddedContent ∧
      (readStartTagOpened v pseudoClose m t).memory.HoldsMarkup v := by
  unfold readStartTagOpened at named ⊢
  by_cases some_name : 0 < tagNameLength t
  · simp only [if_pos some_name] at named ⊢
    exact ⟨by simp, .inr (named trivial)⟩
  · have no_name : t.take (tagNameLength t) = [] := by
      rw [Nat.eq_zero_of_not_pos some_name, List.take_zero]
    simp only [if_neg some_name, no_name]
    split_ifs with _ junk
    · exact ⟨by simp, .inl rfl⟩
    · exact ⟨by simp, .inl rfl⟩
    · -- The bracket comes next.
      obtain ⟨rest, rfl⟩ := startsWith_of_lengthUntil_eq_zero some_ahead (Nat.eq_zero_of_not_pos junk)
      rw [readStartTag_bracket, TagMemory.HoldsMarkup.closeStartTag (.inl rfl)]
      exact ⟨by simp, .inl rfl⟩

omit markup' in
/-- **Where no body is opaque, none becomes so.** -/
theorem readToken_markup {mode : Mode} (body : mode ≠ .embeddedContent) (some_ahead : t ≠ [])
    (named : (readToken v pseudoClose mode m t).kind = .startTag →
      v.isEmbeddedContent (t.take (readToken v pseudoClose mode m t).length) = false) :
    (readToken v pseudoClose mode m t).mode ≠ .embeddedContent ∧
      (readToken v pseudoClose mode m t).memory.HoldsMarkup v := by
  by_cases opened : mode = .startTagOpened
  · subst opened
    exact readStartTagOpened_markup some_ahead named
  · have same : (readToken v pseudoClose mode m t).memory.tag = m.tag := by
      have retagged := @readToken_retag v pseudoClose m m.tag t markup markup mode opened body
      exact congrArg (·.memory.tag) retagged
    refine ⟨?_, by rwa [TagMemory.HoldsMarkup, same]⟩
    have reads := readToken_reads v pseudoClose m mode some_ahead
    cases mode with
    | startTagOpened => exact absurd rfl opened
    | startTag => exact readStartTag_mode_ne markup
    | attributeName => exact readAttributeName_mode_ne markup
    | attributeValue => exact readAttributeValue_mode_ne markup
    | embeddedContent => exact absurd rfl body
    | _ =>
      -- Only the end of a start tag opens a body.
      intro opens
      rw [opens] at reads
      generalize (readToken v pseudoClose _ m t).kind = kind at reads
      cases reads with
      | startTagEndsBeforeBody inside => cases inside

end retag

/-! ## Before the name -/

/-- The name of a tag comes next. -/
def StartsTagName (t : Text) : Prop := ∃ c rest, t = c :: rest ∧ isTagNameStart c = true

section before

variable {v : Vocabulary} {pseudoClose : Bool} {m : TagMemory} {tag lexeme t u : Text}

theorem IsTagName.starts (name : IsTagName tag) (rest : Text) : StartsTagName (tag ++ rest) := by
  obtain ⟨first, others, rfl, start, -⟩ := name
  exact ⟨first, others ++ rest, rfl, start⟩

/-- A name does not complete the end of a comment. -/
theorem StartsTagName.keepsComments (h : StartsTagName t) : KeepsComments t := by
  obtain ⟨c, rest, rfl, start⟩ := h
  intro d head
  rw [← Option.some.inj head]
  exact ⟨ne_of_isTagNameStart start (by decide), ne_of_isTagNameStart start (by decide)⟩

/-- No blank comes before a name. -/
theorem StartsTagName.not_blank (h : StartsTagName t) : ∀ c ∈ t.head?, isAsciiBlank c = false := by
  obtain ⟨c, rest, rfl, start⟩ := h
  intro d head
  rw [← Option.some.inj head]
  by_contra blank
  rw [isTagNameStart_of_isAsciiBlank (by simpa using blank)] at start
  cases start

/-- Only `<` is read as the opening of a start tag. -/
theorem readContent_startTagOpen (opens : (readContent m t).kind = .startTagOpen) :
    t.take (readContent m t).length = ['<'] := by
  unfold readContent at opens ⊢
  split at opens
  · simp at opens
  · simp at opens
  · simp at opens
  · rfl
  · simp at opens

/-- What is read is the first part of the text. -/
theorem eq_of_take_append {length : Nat} (reaches : length = lexeme.length) :
    (lexeme ++ t).take length = lexeme := by
  rw [reaches, List.take_left]

/-- Blanks that are read up to the name. -/
theorem blank_of_lengthWhile_eq (reaches : lengthWhile isAsciiBlank (lexeme ++ t) = lexeme.length) :
    ∀ c ∈ lexeme, isAsciiBlank c = true := by
  intro c mem
  refine accepts_of_mem_take (t := lexeme ++ t) ?_
  rw [reaches, List.take_left]
  exact mem

/-- **What is read right before a name** is read before any other name as well. -/
theorem readToken_before_name {mode : Mode} (body : mode ≠ .embeddedContent)
    (starts : StartsTagName t) (starts' : StartsTagName u) (some_lexeme : lexeme ≠ [])
    (reaches : (readToken v pseudoClose mode m (lexeme ++ t)).length = lexeme.length)
    (opened : (readToken v pseudoClose mode m (lexeme ++ t)).mode = .startTagOpened ∨
      (readToken v pseudoClose mode m (lexeme ++ t)).mode = .endTagOpened) :
    readToken v pseudoClose mode m (lexeme ++ u) = readToken v pseudoClose mode m (lexeme ++ t) := by
  have some_ahead : lexeme ++ t ≠ [] := List.append_ne_nil_of_left_ne_nil some_lexeme t
  have reads := readToken_reads v pseudoClose m mode some_ahead
  have whole := eq_of_take_append (t := t) reaches
  -- Only a bracket and the blanks behind it lead to a name.
  generalize kind : (readToken v pseudoClose mode m (lexeme ++ t)).kind = k at reads
  generalize after : (readToken v pseudoClose mode m (lexeme ++ t)).mode = m' at reads opened
  cases reads with
  | startTagOpens outside =>
    cases mode with
    | content =>
      rw [readToken] at kind whole
      rw [readContent_startTagOpen kind] at whole
      subst whole
      obtain ⟨c, rest, rfl, start⟩ := starts
      obtain ⟨c', rest', rfl, start'⟩ := starts'
      exact (readContent_startTag start' rest').trans (readContent_startTag start rest).symm
    | embeddedContent => exact absurd rfl body
    | _ => cases outside
  | endTagOpens outside =>
    rw [readToken_endTagOpen v pseudoClose m outside kind] at whole
    subst whole
    cases mode with
    | content => rfl
    | embeddedContent => exact absurd rfl body
    | _ => cases outside
  | startTagBlank inside =>
    rcases opened with rfl | rfl
    · rw [readToken] at kind reaches ⊢
      have blank := blank_of_lengthWhile_eq ((readStartTagOpened_whitespace some_ahead kind).symm.trans reaches)
      rw [readToken, readStartTagOpened_blanks some_lexeme blank starts.not_blank,
        readStartTagOpened_blanks some_lexeme blank starts'.not_blank]
    · cases inside
  | endTagBlank inside =>
    rcases opened with rfl | rfl
    · cases inside
    · rw [readToken] at kind reaches ⊢
      have blank := blank_of_lengthWhile_eq ((readEndTagOpened_whitespace some_ahead kind).symm.trans reaches)
      rw [readToken, readEndTagOpened_blanks some_lexeme blank starts.not_blank,
        readEndTagOpened_blanks some_lexeme blank starts'.not_blank]
  | _ => simp at opened

end before

namespace Tokenizer

variable {s s' : Tokenizer} {passed : List Token}

/-! ## Places without an opaque body -/

/-- **No opaque body is being read**, nor is the tag of one. -/
structure ReadsMarkup (s : Tokenizer) : Prop where
  mode : s.mode ≠ .embeddedContent
  memory : s.memory.HoldsMarkup s.vocabulary

/-- The names of the start tags to come have no opaque bodies. -/
def NamesMarkup (s : Tokenizer) : Prop := ∀ token ∈ s.tokens, token.kind = .startTag →
  s.vocabulary.isEmbeddedContent token.text = false

theorem NamesMarkup.rest (h : s.NamesMarkup) (some_ahead : s.ahead ≠ []) : s.rest.NamesMarkup := by
  intro token mem
  refine h token ?_
  rw [tokens_of_ahead_ne_nil some_ahead]
  exact List.mem_cons_of_mem _ mem

theorem NamesMarkup.passes (h : s.NamesMarkup) (passes : s.Passes passed s') : s'.NamesMarkup :=
  passes.preserves (P := NamesMarkup) (fun _ some_ahead here => here.rest some_ahead) h

theorem ReadsMarkup.rest (h : s.ReadsMarkup) (names : s.NamesMarkup) (some_ahead : s.ahead ≠ []) :
    s.rest.ReadsMarkup := by
  have named : s.token.kind = .startTag → s.vocabulary.isEmbeddedContent s.token.text = false := by
    refine names s.token ?_
    rw [tokens_of_ahead_ne_nil some_ahead]
    exact List.mem_cons_self
  have reading := reading_eq some_ahead
  have kept := @readToken_markup s.vocabulary s.pseudoClose s.memory s.ahead h.memory s.mode h.mode
    some_ahead
  rw [← reading] at kept
  obtain ⟨mode, memory⟩ := kept named
  exact ⟨mode, memory⟩

theorem ReadsMarkup.passes (h : s.ReadsMarkup) (names : s.NamesMarkup) (passes : s.Passes passed s') :
    s'.ReadsMarkup :=
  (passes.preserves (P := fun s => s.ReadsMarkup ∧ s.NamesMarkup)
    (fun _ some_ahead here => ⟨here.1.rest here.2 some_ahead, here.2.rest some_ahead⟩) ⟨h, names⟩).1

/-! ## The way to the name -/

/-- The same place with another text ahead. -/
def withAhead (s : Tokenizer) (ahead : Text) : Tokenizer := { s with ahead }

/-- A token takes characters or leads back to the content. -/
theorem progress (some_ahead : s.ahead ≠ []) :
    s.lexeme ≠ [] ∨ s.rest.mode = .content ∧ s.mode ≠ .content := by
  obtain ⟨c, cs, split⟩ := List.exists_cons_of_ne_nil some_ahead
  have progress := readToken_progresses s.vocabulary s.pseudoClose s.mode s.memory c cs
  rw [← split, ← reading_eq some_ahead] at progress
  refine progress.imp_left fun taken => ?_
  rw [lexeme, Ne, List.take_eq_nil_iff, not_or]
  exact ⟨Nat.ne_of_gt taken, some_ahead⟩

/-- A token has as many characters as its reading takes. -/
theorem length_lexeme (s : Tokenizer) : s.lexeme.length = s.reading.length := by
  rw [lexeme, List.length_take, Nat.min_eq_left s.length_lexeme_le]

/-- The text ahead is that of the tokens passed over, and what is still ahead. -/
theorem Passes.ahead_eq (h : s.Passes passed s') :
    s.ahead = passed.flatMap (·.text) ++ s'.ahead := by
  induction h with
  | here => rfl
  | @step s _ _ _ _ ih =>
    rw [List.flatMap_cons, List.append_assoc, ← ih]
    exact s.lexeme_append_ahead_rest.symm

/-- **A passage to a name without characters** has no token. -/
theorem Passes.eq_of_ahead_eq (h : s.Passes passed s') (same : passed.flatMap (·.text) = [])
    (away : s'.mode ≠ .content) : passed = [] ∧ s = s' := by
  cases h with
  | here => exact ⟨rfl, rfl⟩
  | step some_ahead further =>
    obtain ⟨nothing, nothing_more⟩ := List.append_eq_nil_iff.mp same
    obtain ⟨content, -⟩ := (progress some_ahead).resolve_left (fun some_text => some_text nothing)
    cases further with
    | here => exact absurd content away
    | step some_ahead further =>
      -- The content never begins with an empty token.
      obtain ⟨nothing, -⟩ := List.append_eq_nil_iff.mp nothing_more
      obtain ⟨-, left⟩ := (progress some_ahead).resolve_left (fun some_text => some_text nothing)
      exact absurd content left

/-- A declaration ends with a bracket. -/
theorem text_of_endDoctype (h : s.token.kind = .endDoctype) : s.token.text = ['>'] := by
  have some_ahead := ahead_ne_nil h (by decide)
  have reads := reads some_ahead
  rw [h] at reads
  have mode : s.mode = .doctype := by
    generalize s.mode = m, s.rest.mode = m' at reads
    cases reads
    rfl
  have kind : s.reading.kind = .endDoctype := h
  show s.ahead.take s.reading.length = ['>']
  rw [reading_eq some_ahead, mode, readToken, readDoctype] at kind ⊢
  split at kind
  · rename_i bracket
    obtain ⟨rest, split⟩ := List.isPrefixOf_iff_prefix.mp bracket
    rw [if_pos bracket, ← split]
    rfl
  · cases kind

/-- The way out of a declaration is past its bracket. -/
theorem Passes.bracket_mem (h : s.Passes passed s') (mode : s.mode = .doctype)
    (away : s'.mode ≠ .doctype) : '>' ∈ passed.flatMap (·.text) := by
  induction h with
  | here => exact absurd mode away
  | @step s _ _ some_ahead _ ih =>
    have reads := reads some_ahead
    rw [mode] at reads
    rw [List.flatMap_cons, List.mem_append]
    rcases reads.of_doctype with ⟨-, after⟩ | ⟨kind, -⟩
    · exact .inr (ih after away)
    · exact .inl (by simp [text_of_endDoctype kind])

/-- **What is read on the way to a name** does not depend on the name. -/
theorem reading_respelled {further : List Token} (some_ahead : s.ahead ≠ []) (markup : s.ReadsMarkup)
    (passes : s.rest.Passes further s') (opened : s'.mode = .startTagOpened ∨ s'.mode = .endTagOpened)
    (starts : StartsTagName s'.ahead) {u : Text} (starts' : StartsTagName u) :
    readToken s.vocabulary s.pseudoClose s.mode s.memory
      (s.lexeme ++ (further.flatMap (·.text) ++ u)) = s.reading := by
  have away : s'.mode ≠ .content := by rcases opened with mode | mode <;> simp [mode]
  have split : s.lexeme ++ (further.flatMap (·.text) ++ s'.ahead) = s.ahead := by
    rw [← passes.ahead_eq]
    exact s.lexeme_append_ahead_rest
  have reading := reading_eq some_ahead
  rw [← split] at reading
  have length := s.length_lexeme
  by_cases more : further.flatMap (·.text) = []
  · -- The name comes right behind the token.
    obtain ⟨-, rfl⟩ := passes.eq_of_ahead_eq more away
    have some_lexeme := (progress some_ahead).resolve_right fun content => away content.1
    rw [more, List.nil_append] at reading
    rw [more, List.nil_append, reading]
    have opened : s.reading.mode = .startTagOpened ∨ s.reading.mode = .endTagOpened := opened
    rw [reading] at length opened
    exact readToken_before_name markup.mode starts starts' some_lexeme length.symm opened
  · -- Something comes between, and the token ends before it does.
    have declaration : s.reading.kind = .startDoctype → '>' ∈ s.lexeme ++ further.flatMap (·.text) := by
      intro kind
      have kind : s.token.kind = .startDoctype := kind
      have reads := reads some_ahead
      rw [kind] at reads
      have mode : s.rest.mode = .doctype := by
        generalize s.mode = m, s.rest.mode = m' at reads
        cases reads
        rfl
      refine List.mem_append_right _ (passes.bracket_mem mode ?_)
      rcases opened with mode | mode <;> simp [mode]
    have inside : s.reading.length < (s.lexeme ++ further.flatMap (·.text)).length := by
      have := List.length_pos_iff.mpr more
      rw [List.length_append]
      omega
    rw [← List.append_assoc] at reading ⊢
    rw [reading] at declaration inside ⊢
    exact readToken_congr (.inl starts.keepsComments) (fun body => absurd body markup.mode)
      (List.append_ne_nil_of_right_ne_nil _ more) (.inl inside) declaration u

/-- Where the same is read, the same token is handed out. -/
theorem withAhead_step {ahead : Text} (reading : (s.withAhead (s.lexeme ++ ahead)).reading = s.reading) :
    (s.withAhead (s.lexeme ++ ahead)).token = s.token ∧
      (s.withAhead (s.lexeme ++ ahead)).rest = s.rest.withAhead ahead := by
  have lexeme : (s.withAhead (s.lexeme ++ ahead)).lexeme = s.lexeme := by
    rw [Tokenizer.lexeme, reading]
    exact eq_of_take_append s.length_lexeme.symm
  refine ⟨?_, ?_⟩
  · simp only [token, reading, lexeme]
    rfl
  · simp only [rest, reading, lexeme]
    simp only [withAhead, ← s.length_lexeme, List.drop_left]

/-- **The way to a name** is the same if another name comes there. -/
theorem Passes.respelled (h : s.Passes passed s') {u : Text}
    (opened : s'.mode = .startTagOpened ∨ s'.mode = .endTagOpened) (starts : StartsTagName s'.ahead)
    (starts' : StartsTagName u) (markup : s.ReadsMarkup) (names : s.NamesMarkup) :
    (s.withAhead (passed.flatMap (·.text) ++ u)).Passes passed (s'.withAhead u) := by
  induction h with
  | here => exact .here _
  | @step s s' further some_ahead passes ih =>
    -- The rest of the way leads to the name as well, so this token is read without the name.
    have there := ih opened starts (markup.rest names some_ahead) (names.rest some_ahead)
    have still_ahead : (s.withAhead (s.lexeme ++ (further.flatMap (·.text) ++ u))).ahead ≠ [] := by
      obtain ⟨c, rest, rfl, -⟩ := starts'
      simp [withAhead]
    obtain ⟨same, same_rest⟩ := withAhead_step ((reading_eq still_ahead).trans
      (reading_respelled some_ahead markup passes opened starts starts'))
    rw [List.flatMap_cons, List.append_assoc]
    show (s.withAhead (s.lexeme ++ (further.flatMap (·.text) ++ u))).Passes _ _
    rw [← same]
    exact .step still_ahead (same_rest ▸ there)

/-! ## Behind the name -/

/-- **The same place behind another name**, which has `new` bytes and not `old` ones: the position is
another one, and so may be the tag that is remembered. -/
structure Retagged (old new : Nat) (s s' : Tokenizer) : Prop where
  same : s' = { s with position := s'.position, memory := s.memory.retag s'.memory.tag }
  position : s'.position + old = s.position + new
  markup : s.ReadsMarkup
  memory : s'.memory.HoldsMarkup s.vocabulary

namespace Retagged

variable {old new : Nat}

/-- Behind another name the same is read, but for the tag that is remembered. -/
theorem reading (h : Retagged old new s s') (some_ahead : s.ahead ≠ []) :
    s'.reading = s.reading.retag s'.reading.memory.tag ∧
      (s'.reading.memory.tag = s'.memory.tag ∨ s'.reading.memory.tag = s.reading.memory.tag) := by
  have ahead : s'.ahead ≠ [] := by
    rw [h.same]
    exact some_ahead
  have reading' : s'.reading = readToken s.vocabulary s.pseudoClose s.mode
      (s.memory.retag s'.memory.tag) s.ahead := by
    rw [reading_eq ahead]
    conv_lhs => rw [h.same]
  by_cases opened : s.mode = .startTagOpened
  · -- Another name is read, and it is the same in both texts.
    have same : s'.reading = s.reading := by
      rw [reading', reading_eq some_ahead, opened]
      rfl
    rw [same]
    exact ⟨rfl, .inr rfl⟩
  · have same : s'.reading = s.reading.retag s'.memory.tag := by
      rw [reading', reading_eq some_ahead]
      exact readToken_retag h.markup.memory h.memory opened h.markup.mode
    rw [same]
    exact ⟨rfl, .inl rfl⟩

/-- One step in both texts. -/
theorem step (h : Retagged old new s s') (names : s.NamesMarkup) (some_ahead : s.ahead ≠ []) :
    Retagged old new s.rest s'.rest ∧
      s'.token = { s.token with span := ⟨s'.position, s'.rest.position⟩ } := by
  obtain ⟨reading, tag⟩ := h.reading some_ahead
  have markup := h.markup.rest names some_ahead
  obtain ⟨kind, length, mode, error⟩ : s'.reading.kind = s.reading.kind ∧
      s'.reading.length = s.reading.length ∧ s'.reading.mode = s.reading.mode ∧
      s'.reading.error = s.reading.error := by
    rw [reading]
    exact ⟨rfl, rfl, rfl, rfl⟩
  obtain ⟨vocabulary, pseudoClose, ahead, finished⟩ : s'.vocabulary = s.vocabulary ∧
      s'.pseudoClose = s.pseudoClose ∧ s'.ahead = s.ahead ∧ s'.finished = s.finished := by
    rw [h.same]
    exact ⟨rfl, rfl, rfl, rfl⟩
  have lexeme : s'.lexeme = s.lexeme := by rw [Tokenizer.lexeme, Tokenizer.lexeme, ahead, length]
  refine ⟨⟨?same, ?position, markup, ?memory⟩, ?token⟩
  case same =>
    have memory : s'.reading.memory = s.reading.memory.retag s'.reading.memory.tag :=
      congrArg Reading.memory reading
    simp only [rest, vocabulary, pseudoClose, ahead, finished, length, mode, ← memory]
  case position =>
    show s'.position + s'.lexeme.byteLength + old = s.position + s.lexeme.byteLength + new
    have := h.position
    rw [lexeme]
    omega
  case memory =>
    show s'.reading.memory.tag = [] ∨ s.vocabulary.isEmbeddedContent s'.reading.memory.tag = false
    rcases tag with kept | read
    · rw [kept]
      exact h.memory
    · rw [read]
      exact markup.memory
  case token =>
    simp only [token, rest, kind, error, lexeme]

/-- **The tokens behind the name** move by as much as the name grows or shrinks. -/
theorem tokens (h : Retagged old new s s') (names : s.NamesMarkup) {σ : Nat → Nat}
    (shifts : ∀ offset, s.position ≤ offset → σ offset + old = offset + new) :
    s'.tokens = s.tokens.map fun token =>
      { token with span := ⟨σ token.span.start, σ token.span.stop⟩ } := by
  have moved {s s' : Tokenizer} (h : Retagged old new s s')
      (shifts : ∀ offset, s.position ≤ offset → σ offset + old = offset + new) :
      s'.position = σ s.position := by
    have := h.position
    have := shifts s.position (Nat.le_refl _)
    omega
  -- Along both scans at once: they stay at the same place of the text behind the name.
  induction s using Tokenizer.induction generalizing s' with
  | ended s ended =>
    have ended' : s'.ahead = [] := by
      rw [h.same]
      exact ended
    have nothing : s.lexeme = [] := by simp [lexeme, ended]
    have nothing' : s'.lexeme = [] := by simp [lexeme, ended']
    rw [tokens_of_ahead_eq_nil ended, tokens_of_ahead_eq_nil ended', List.map_singleton]
    simp only [token, reading_of_ahead_eq_nil ended, reading_of_ahead_eq_nil ended', nothing, nothing',
      byteLength_nil, Nat.add_zero, moved h shifts]
  | step s some_ahead ih =>
    obtain ⟨rest, token⟩ := h.step names some_ahead
    have ahead : s'.ahead ≠ [] := by
      rw [h.same]
      exact some_ahead
    have later : ∀ offset, s.rest.position ≤ offset → σ offset + old = offset + new :=
      fun offset behind => shifts offset (Nat.le_trans position_le_rest behind)
    rw [tokens_of_ahead_ne_nil some_ahead, tokens_of_ahead_ne_nil ahead, List.map_cons,
      ih rest (names.rest some_ahead) later, token, moved h shifts, moved rest later]
    rfl

end Retagged

/-! ## At the name -/

/-- The name of a tag comes next. -/
def AtName (s : Tokenizer) : Prop := s.token.kind = .startTag ∨ s.token.kind = .endTag

namespace AtName

theorem some_ahead (h : s.AtName) : s.ahead ≠ [] := by
  rcases h with kind | kind <;> exact ahead_ne_nil kind (by decide)

theorem mode (h : s.AtName) : s.mode = .startTagOpened ∨ s.mode = .endTagOpened :=
  h.imp mode_of_startTag mode_of_endTag

theorem name (h : s.AtName) : IsTagName s.token.text ∧ EndsTagName s.rest.ahead :=
  h.elim name_of_startTag name_of_endTag

theorem starts (h : s.AtName) : StartsTagName s.ahead :=
  s.lexeme_append_ahead_rest ▸ h.name.1.starts s.rest.ahead

/-- **Another name is read in the same way**, and a start tag remembers it. -/
theorem reading (h : s.AtName) (markup : s.ReadsMarkup) {tag : Text} (named : IsTagName tag)
    (tag_markup : s.vocabulary.isEmbeddedContent tag = false) :
    ∃ remembered, (s.withAhead (tag ++ s.rest.ahead)).reading =
        { s.reading.retag remembered with length := tag.length } ∧
      (s.reading.memory.retag remembered).HoldsMarkup s.vocabulary := by
  have there : (s.withAhead (tag ++ s.rest.ahead)).ahead ≠ [] :=
    List.append_ne_nil_of_left_ne_nil (List.length_pos_iff.mp named.length_pos) _
  have whole : s.ahead = s.token.text ++ s.rest.ahead := s.lexeme_append_ahead_rest.symm
  obtain ⟨old_name, stops⟩ := h.name
  have reading := reading_eq h.some_ahead
  have reading' := reading_eq there
  rcases h with kind | kind
  · rw [mode_of_startTag kind, readToken, whole, readStartTagOpened_name old_name stops] at reading
    refine ⟨tag, ?_, .inr tag_markup⟩
    rw [reading', reading]
    show readToken _ _ s.mode _ _ = _
    rw [mode_of_startTag kind]
    exact readStartTagOpened_name named stops
  · rw [mode_of_endTag kind, readToken, whole, readEndTagOpened_name old_name stops] at reading
    refine ⟨s.memory.tag, ?_, ?_⟩
    · rw [reading', reading]
      show readToken _ _ s.mode _ _ = _
      rw [mode_of_endTag kind]
      exact readEndTagOpened_name named stops
    · rw [reading]
      exact markup.memory

/-- **Another name and what comes behind it.** -/
theorem respelled (h : s.AtName) (markup : s.ReadsMarkup) (names : s.NamesMarkup) {tag : Text}
    (named : IsTagName tag) (tag_markup : s.vocabulary.isEmbeddedContent tag = false) :
    (s.withAhead (tag ++ s.rest.ahead)).token =
        { s.token with span := ⟨s.position, s.position + tag.byteLength⟩, text := tag } ∧
      Retagged s.token.text.byteLength tag.byteLength s.rest
        (s.withAhead (tag ++ s.rest.ahead)).rest := by
  obtain ⟨remembered, reading, memory⟩ := h.reading markup named tag_markup
  have lexeme : (s.withAhead (tag ++ s.rest.ahead)).lexeme = tag := by
    rw [lexeme, reading]
    exact eq_of_take_append rfl
  have rest : (s.withAhead (tag ++ s.rest.ahead)).rest =
      { s.rest with
        position := s.position + tag.byteLength
        memory := s.rest.memory.retag remembered } := by
    generalize behind : s.rest.ahead = ahead at reading lexeme ⊢
    rw [Tokenizer.rest, lexeme, reading]
    simp only [withAhead, List.drop_left, ← behind]
    rfl
  refine ⟨?token, ?same, ?position, markup.rest names h.some_ahead, ?memory⟩
  case token =>
    simp only [token, lexeme, reading]
    rfl
  case same =>
    rw [rest]
    rfl
  case position =>
    rw [rest]
    show s.position + tag.byteLength + s.lexeme.byteLength = s.position + s.lexeme.byteLength + _
    omega
  case memory =>
    rw [rest]
    exact memory

end AtName

/-- **A text in which one name is spelled in another way** has the same tokens up to the name, the name,
and behind it the same tokens in other places. -/
theorem Passes.tokens_respelled (h : s.Passes passed s') (name : s'.AtName) (markup : s.ReadsMarkup)
    (names : s.NamesMarkup) {tag : Text} (named : IsTagName tag)
    (tag_markup : s'.vocabulary.isEmbeddedContent tag = false) {σ : Nat → Nat}
    (shifts : ∀ offset, s'.rest.position ≤ offset →
      σ offset + s'.token.text.byteLength = offset + tag.byteLength) :
    (s.withAhead (passed.flatMap (·.text) ++ (tag ++ s'.rest.ahead))).tokens =
      passed ++ { s'.token with span := ⟨s'.position, s'.position + tag.byteLength⟩, text := tag } ::
        s'.rest.tokens.map fun token =>
          { token with span := ⟨σ token.span.start, σ token.span.stop⟩ } := by
  have markup' := markup.passes names h
  have names' := names.passes h
  have passes := h.respelled name.mode name.starts (named.starts s'.rest.ahead) markup names
  obtain ⟨token, retagged⟩ := name.respelled markup' names' named tag_markup
  have there : (s'.withAhead (tag ++ s'.rest.ahead)).ahead ≠ [] :=
    List.append_ne_nil_of_left_ne_nil (List.length_pos_iff.mp named.length_pos) _
  rw [passes.tokens_eq, tokens_of_ahead_ne_nil there, token,
    retagged.tokens (names'.rest name.some_ahead) shifts]

end Tokenizer

end MarkupAnalysis
