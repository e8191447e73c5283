import MarkupAnalysis.Proofs.Token.Casing
import MarkupAnalysis.Proofs.Token.Names

/-! # Where opaque bodies end

The body of an embedded element follows the bracket of its start tag. It runs up to the first `</` with
the element's name behind it, or to the end of the text. The name of the end tag there starts with the
element's name, in any case; it may be longer.

* **`embeddedBodyLength_stops`** — what stands behind a body.
* **`Reading.Recalls`**, **`readToken_recalls`** — which tag is remembered, and whether its body is
  opaque.
* **`Tokenizer.AtEndTagOf`**, **`Tokenizer.exists_passes_body`** — the way through a body to the end tag
  behind it.
* **`Tokenizer.Remembers`**, **`Tokenizer.Remembers.followsBody`** — along a scan every body is that of the
  latest start tag.
* **`Tokenizer.exists_passes_startTag`**, **`Tokenizer.body_of_startTagClose`** — the way from the name of an
  embedded element to its body. -/

namespace MarkupAnalysis

open Text

variable {tag t : Text}

/-! ## The end of a body -/

/-- Only an end tag of the element ends a script body. -/
theorem ScriptMarker.isEndTagOf_of_last {hidden : ScriptEscape} {marker : ScriptMarker} {size : Nat}
    (here : ScriptMarker.read? tag t = some (marker, size)) (last : hidden.after? marker = none) :
    isEndTagOf tag t = true := by
  have closes : marker = .endTag := by
    cases hidden <;> cases marker <;> first | rfl | cases last
  subst closes
  unfold read? at here
  split at here
  · cases here
  · unfold tagMarker? at here
    split at here
    · assumption
    · cases here
  · unfold tagMarker? at here
    split at here <;> cases here
  · cases here
  · cases here

/-- A script body stops at an end tag of the element, or at the end. -/
theorem scriptBodyLength_stops (tag : Text) (hidden : ScriptEscape) (skip : Nat) (t : Text) :
    t.drop (scriptBodyLength tag hidden skip t) = [] ∨
      isEndTagOf tag (t.drop (scriptBodyLength tag hidden skip t)) = true := by
  -- The recursion of the body: the end, a character of a marker, none, the last marker, another one.
  induction hidden, skip, t using scriptBodyLength.induct tag with
  | case1 => exact .inl List.drop_nil
  | case2 hidden skip c cs ih => simpa [scriptBodyLength] using ih
  | case3 hidden c cs none_here ih => simpa [scriptBodyLength, none_here] using ih
  | case4 hidden c cs marker length here last =>
    refine .inr ?_
    simpa [scriptBodyLength, here, last] using ScriptMarker.isEndTagOf_of_last here last
  | case5 hidden c cs marker length here hidden' further ih =>
    simpa [scriptBodyLength, here, further] using ih

/-- **A body stops** at an end tag of the element, or at the end of the text. -/
theorem embeddedBodyLength_stops (tag t : Text) :
    t.drop (embeddedBodyLength (some tag) t) = [] ∨
      isEndTagOf tag (t.drop (embeddedBodyLength (some tag) t)) = true := by
  rw [embeddedBodyLength]
  dsimp only [Option.getD_some]
  split
  · exact scriptBodyLength_stops tag .normal 0 t
  · exact lengthUntil_stops _ t

/-- An end tag is `</` and a name that starts with the element's name. -/
theorem isEndTagOf_iff :
    isEndTagOf tag t = true ↔
      ∃ name, t = '<' :: '/' :: name ∧ startsWithIgnoringCase tag name = true := by
  unfold isEndTagOf
  split
  · simp
  · rename_i other
    simp only [Bool.false_eq_true, false_iff]
    rintro ⟨name, rfl, -⟩
    exact other name rfl

/-! ## What is remembered -/

/-- **What a reading remembers** of the start tag: its name, and whether its body is opaque. -/
structure Reading.Recalls (v : Vocabulary) (tag : Text) (r : Reading) : Prop where
  /-- It is the tag of that name. -/
  name : r.memory.tag = tag
  /-- An opaque body belongs to it. -/
  body : r.mode = .embeddedContent →
    r.kind = .startTagClose ∧ r.memory.embeddedTag = some tag ∧ opensEmbeddedBody v r.memory = true
  /-- Its bracket leads to its opaque body, if it has one. -/
  opaque_body : r.kind = .startTagClose → 0 < r.length → opensEmbeddedBody v r.memory = true →
    r.mode = .embeddedContent

/-- Most readings neither close a start tag nor lead to an opaque body. -/
theorem Reading.Recalls.of_kind {v : Vocabulary} {r : Reading} (same : r.memory.tag = tag)
    (mode : r.mode ≠ .embeddedContent) (kind : r.kind ≠ .startTagClose) : r.Recalls v tag :=
  ⟨same, fun body => absurd body mode, fun closes => absurd closes kind⟩

section readings

variable (v : Vocabulary) (pseudoClose : Bool) (m : TagMemory) (t : Text)

theorem readContent_recalls : (readContent m t).Recalls v m.tag := by
  unfold readContent
  split <;> exact .of_kind rfl nofun nofun

theorem readComment_recalls : (readComment m t).Recalls v m.tag := by
  unfold readComment
  split <;> exact .of_kind rfl nofun nofun

theorem readDoctype_recalls : (readDoctype m t).Recalls v m.tag := by
  unfold readDoctype
  split <;> exact .of_kind rfl nofun nofun

theorem readEndTag_recalls : (readEndTag pseudoClose m t).Recalls v m.tag := by
  unfold readEndTag
  dsimp only
  split_ifs <;> exact .of_kind rfl nofun nofun

theorem readEndTagOpened_recalls : (readEndTagOpened pseudoClose m t).Recalls v m.tag := by
  unfold readEndTagOpened
  dsimp only
  split_ifs
  · exact .of_kind rfl nofun nofun
  · exact .of_kind rfl nofun nofun
  · exact .of_kind rfl nofun nofun
  · exact readEndTag_recalls v pseudoClose m t

theorem readEmbeddedContent_recalls : (readEmbeddedContent m t).Recalls v m.tag := by
  unfold readEmbeddedContent
  dsimp only
  split
  · exact .of_kind rfl nofun nofun
  · exact readContent_recalls v m t

/-- The bracket of a start tag decides on its body. -/
theorem closeStartTag_recalls : (closeStartTag v m).Recalls v m.tag := by
  unfold closeStartTag
  split
  · rename_i opens
    exact ⟨rfl, fun _ => ⟨rfl, rfl, opens⟩, fun _ _ _ => rfl⟩
  · rename_i plain
    exact ⟨rfl, nofun, fun _ _ opens => absurd opens plain⟩

theorem readStartTag_recalls : (readStartTag v pseudoClose m t).Recalls v m.tag := by
  unfold readStartTag
  dsimp only
  -- How the name is found does not matter here.
  generalize (if m.blankBefore then lengthWhile isAttributeNameChar t else 0) = name
  split_ifs
  · exact .of_kind rfl nofun nofun
  · exact .of_kind rfl nofun nofun
  · exact .of_kind rfl nofun nofun
  · exact closeStartTag_recalls v m
  · -- An interrupted tag has no bracket.
    exact ⟨rfl, nofun, fun _ some_length => absurd some_length (Nat.lt_irrefl 0)⟩
  · exact .of_kind rfl nofun nofun

theorem readAttributeName_recalls : (readAttributeName v pseudoClose m t).Recalls v m.tag := by
  unfold readAttributeName
  dsimp only
  split_ifs
  · exact .of_kind rfl nofun nofun
  · exact .of_kind rfl nofun nofun
  · exact readStartTag_recalls v pseudoClose m t

/-- A value does not change the tag. -/
theorem tag_noteValue (value : Text) : (m.noteValue value).tag = m.tag := by
  unfold TagMemory.noteValue
  split <;> rfl

theorem readQuotedValue_recalls (quote : Char) : (readQuotedValue m quote t).Recalls v m.tag := by
  unfold readQuotedValue
  dsimp only
  split <;> exact .of_kind (tag_noteValue m _) nofun nofun

theorem readAttributeValue_recalls : (readAttributeValue v pseudoClose m t).Recalls v m.tag := by
  unfold readAttributeValue
  dsimp only
  split_ifs
  · exact .of_kind rfl nofun nofun
  · exact .of_kind (tag_noteValue m _) nofun nofun
  · have plain := readStartTag_recalls v pseudoClose
      { m.noteValue (t.take (unquotedValueLength t)) with blankBefore := false } t
    exact tag_noteValue m _ ▸ plain
  · split
    · exact readQuotedValue_recalls v m _ _
    · exact readQuotedValue_recalls v m _ _
    · exact readStartTag_recalls v pseudoClose { m with blankBefore := false } t

/-- After `<` the tag is named anew. -/
theorem readStartTagOpened_recalls :
    (readStartTagOpened v pseudoClose m t).Recalls v (t.take (tagNameLength t)) := by
  unfold readStartTagOpened
  dsimp only
  split_ifs
  · exact .of_kind rfl nofun nofun
  · exact .of_kind rfl nofun nofun
  · exact .of_kind rfl nofun nofun
  · exact readStartTag_recalls v pseudoClose
      { m with tag := t.take (tagNameLength t), typeValue := none, attributeName := [] } t

/-- **Which tag is remembered**: the one that is named, or the same one as before. -/
theorem readToken_recalls (mode : Mode) :
    (readToken v pseudoClose mode m t).Recalls v
      (if mode = .startTagOpened then t.take (tagNameLength t) else m.tag) := by
  cases mode with
  | content => exact readContent_recalls v m t
  | startTagOpened => exact readStartTagOpened_recalls v pseudoClose m t
  | endTagOpened => exact readEndTagOpened_recalls v pseudoClose m t
  | doctype => exact readDoctype_recalls v m t
  | startTag => exact readStartTag_recalls v pseudoClose m t
  | endTag => exact readEndTag_recalls v pseudoClose m t
  | comment => exact readComment_recalls v m t
  | embeddedContent => exact readEmbeddedContent_recalls v m t
  | attributeName => exact readAttributeName_recalls v pseudoClose m t
  | attributeValue => exact readAttributeValue_recalls v pseudoClose m t

end readings

/-! ## Names that start with a tag -/

/-- The name of a tag is one in lower case. -/
theorem IsTagName.lower (name : IsTagName tag) : IsTagName (lower tag) := by
  obtain ⟨first, others, rfl, start, chars⟩ := name
  refine ⟨first.toLower, Text.lower others, rfl, ?_, ?_⟩
  · exact (toLower_of_capitals (by decide) first).trans start
  · intro c lowered
    obtain ⟨d, mem, rfl⟩ := List.mem_map.mp lowered
    exact (toLower_of_capitals (by decide) d).trans (chars d mem)

/-- A name goes on at least as far as any part of it. -/
theorem length_le_tagNameLength (name : IsTagName tag) (rest : Text) :
    tag.length ≤ tagNameLength (tag ++ rest) := by
  obtain ⟨first, others, rfl, start, chars⟩ := name
  rw [List.cons_append, tagNameLength, if_pos start, lengthWhile, List.takeWhile_append_of_pos chars]
  simp

/-- What starts with a tag's name is a name that does so. -/
theorem tagNameLength_of_starts (name : IsTagName tag) (starts : startsWithIgnoringCase tag t = true) :
    0 < tagNameLength t ∧ startsWithIgnoringCase tag (t.take (tagNameLength t)) = true := by
  obtain ⟨rest, split⟩ := startsWithIgnoringCase_iff.mp starts
  have reaches : tag.length ≤ tagNameLength t := by
    rw [← tagNameLength_lower, ← split, ← length_lower]
    exact length_le_tagNameLength name.lower rest
  refine ⟨Nat.lt_of_lt_of_le name.length_pos reaches, ?_⟩
  rw [startsWithIgnoringCase_iff, lower_take, List.prefix_take_iff, length_lower]
  exact ⟨⟨rest, split⟩, reaches⟩

/-! ## Inside a start tag -/

/-- What stands in a start tag behind its name, brackets apart. -/
def TokenKind.isInStartTag : TokenKind → Bool
  | whitespace | unknown | attributeName | delimiterAssign | attributeValue => true
  | _ => false

/-- Behind its name a start tag ends or goes on. -/
theorem Mode.Reads.of_named {m m' : Mode} {kind : TokenKind} (reads : m.Reads kind m')
    (inside : m.inStartTag) (named : m ≠ .startTagOpened) :
    (kind = .startTagSelfClose ∨ kind = .startTagClose) ∨
      kind.isInStartTag = true ∧ m'.inStartTag ∧ m' ≠ .startTagOpened := by
  have not_between : m.betweenTags ≠ true := by
    cases m <;> first | exact Bool.false_ne_true | cases inside
  have not_endTag : m.inEndTag ≠ true := by
    cases m <;> first | exact Bool.false_ne_true | cases inside
  cases reads with
  | startTagName => exact absurd rfl named
  | startTagBlank => exact .inr ⟨rfl, inside, named⟩
  | startTagJunk | attributeOpens | assignment | value => exact .inr ⟨rfl, rfl, nofun⟩
  | startTagEnds | startTagEndsBeforeBody => exact .inl (.inr rfl)
  | elementEnds => exact .inl (.inl rfl)
  | text between | commentOpens between | declarationOpens between | startTagOpens between
  | endTagOpens between => exact absurd between not_between
  | endTagBlank within | endTagEnds within => exact absurd within not_endTag
  | _ => cases inside

/-! ## Behind a body -/

/-- The name of the latest start tag among tokens. -/
def latestTag (tokens : List Token) : Option Text :=
  (tokens.reverse.find? (·.kind == .startTag)).map (·.text)

/-- Every start tag is the latest one for a while. -/
theorem latestTag_concat (tokens : List Token) (token : Token) :
    latestTag (tokens ++ [token]) =
      if token.kind = .startTag then some token.text else latestTag tokens := by
  by_cases named : token.kind = .startTag
  · simp [latestTag, named]
  · simp [latestTag, List.find?_cons_of_neg, named]

/-- **What follows an opaque body**: the end of the text, or an end tag with a name of that sort. -/
def FollowsBody (own : Text → Bool) (after : List Token) : Prop :=
  (∃ last, after = [last] ∧ last.kind = .eof) ∨
    ∃ opening stop more, after = opening :: stop :: more ∧ opening.kind = .endTagOpen ∧
      stop.kind = .endTag ∧ own stop.text = true

/-- Before an end tag there is some text. -/
theorem ne_nil_of_isEndTagOf (ends : isEndTagOf tag t = true) : t ≠ [] := by
  obtain ⟨name, rfl, -⟩ := isEndTagOf_iff.mp ends
  exact List.cons_ne_nil _ _

namespace Tokenizer

variable {s : Tokenizer}

/-- **At an end tag of the element**: `</` comes next, and then a name that starts with that of the
element. -/
structure AtEndTagOf (tag : Text) (s : Tokenizer) : Prop where
  /-- The `</` comes next. -/
  opening : s.token.kind = .endTagOpen
  /-- Then the name of an end tag comes. -/
  name : s.rest.token.kind = .endTag
  /-- It starts with the name of the element. -/
  starts : startsWithIgnoringCase tag s.rest.token.text = true

/-- An end tag of the element is read as one where content is read. -/
theorem atEndTagOf (name : IsTagName tag) (ends : isEndTagOf tag s.ahead = true)
    (reading : s.reading = readContent s.memory s.ahead) : s.AtEndTagOf tag := by
  obtain ⟨t, ahead, starts⟩ := isEndTagOf_iff.mp ends
  obtain ⟨some_name, starts'⟩ := tagNameLength_of_starts name starts
  have opens : s.reading = ⟨.endTagOpen, 2, .endTagOpened, s.memory, none⟩ := by
    rw [reading, ahead]
    rfl
  have behind : s.rest.ahead = t := by
    show s.ahead.drop s.reading.length = t
    rw [opens, ahead]
    rfl
  have some_behind : s.rest.ahead ≠ [] := by
    rintro none_behind
    rw [← behind, none_behind] at some_name
    exact Nat.lt_irrefl 0 some_name
  have mode : s.rest.mode = .endTagOpened := congrArg Reading.mode opens
  have names : s.rest.reading = ⟨.endTag, tagNameLength t, .endTag, s.rest.memory, none⟩ := by
    rw [reading_eq some_behind, mode, behind, readToken, readEndTagOpened]
    exact if_pos some_name
  refine ⟨congrArg Reading.kind opens, congrArg Reading.kind names, ?_⟩
  show startsWithIgnoringCase tag (s.rest.ahead.take s.rest.reading.length) = true
  rwa [behind, names]

/-- In a body comes what stands of it, if anything does. -/
theorem reading_of_body (mode : s.mode = .embeddedContent) (some_ahead : s.ahead ≠ [])
    (embedded : s.memory.embeddedTag = some tag) :
    s.reading = if 0 < embeddedBodyLength (some tag) s.ahead
      then ⟨.embeddedContent, embeddedBodyLength (some tag) s.ahead, .content, s.memory, none⟩
      else readContent s.memory s.ahead := by
  rw [reading_eq some_ahead, mode, readToken, readEmbeddedContent, embedded]

/-- Bodies are read in a mode of their own. -/
theorem mode_of_embeddedContent (body : s.token.kind = .embeddedContent) : s.mode = .embeddedContent := by
  have reads := reads (ahead_ne_nil body (by decide))
  rw [body] at reads
  generalize s.mode = m, s.rest.mode = m' at reads
  cases reads
  rfl

/-- **Behind a body** the text ends, or its end tag comes. -/
theorem behind_body (name : IsTagName tag) (body : s.token.kind = .embeddedContent)
    (embedded : s.memory.embeddedTag = some tag) : s.rest.ahead = [] ∨ s.rest.AtEndTagOf tag := by
  have some_ahead := ahead_ne_nil body (by decide)
  have reading := reading_of_body (mode_of_embeddedContent body) some_ahead embedded
  split_ifs at reading
  · have behind : s.rest.ahead = s.ahead.drop (embeddedBodyLength (some tag) s.ahead) := by
      show s.ahead.drop s.reading.length = _
      rw [reading]
    refine (embeddedBodyLength_stops tag s.ahead).imp behind.trans fun ends => ?_
    rw [← behind] at ends
    have back : s.rest.mode = .content := congrArg Reading.mode reading
    refine atEndTagOf name ends ?_
    rw [reading_eq (ne_nil_of_isEndTagOf ends), back, readToken]
  · -- What is read as content is no body.
    have kind : s.reading.kind = .embeddedContent := body
    have reads := readContent_reads (m := .content) s.memory rfl s.ahead
    rw [← reading, kind] at reads
    generalize s.reading.mode = m' at reads
    cases reads

/-- An empty body gives no token: its end tag comes at once. -/
theorem atEndTagOf_of_no_body (name : IsTagName tag) (mode : s.mode = .embeddedContent)
    (some_ahead : s.ahead ≠ []) (embedded : s.memory.embeddedTag = some tag)
    (no_body : s.token.kind ≠ .embeddedContent) : s.AtEndTagOf tag := by
  have reading := reading_of_body mode some_ahead embedded
  split_ifs at reading with some_body
  · exact absurd (congrArg Reading.kind reading) no_body
  · have ends := embeddedBodyLength_stops tag s.ahead
    rw [Nat.eq_zero_of_not_pos some_body, List.drop_zero] at ends
    exact atEndTagOf name (ends.resolve_left some_ahead) reading

/-- **The way through a body**, which is one token at most. -/
theorem exists_passes_body (name : IsTagName tag) (mode : s.mode = .embeddedContent)
    (embedded : s.memory.embeddedTag = some tag) :
    ∃ body s', s.Passes body s' ∧ (∀ token ∈ body, token.kind = .embeddedContent) ∧
      (s'.ahead = [] ∨ s'.AtEndTagOf tag) := by
  by_cases ended : s.ahead = []
  · exact ⟨[], s, .here s, by simp, .inl ended⟩
  by_cases body : s.token.kind = .embeddedContent
  · exact ⟨[s.token], s.rest, .step ended (.here _), by simpa using body,
      behind_body name body embedded⟩
  · exact ⟨[], s, .here s, by simp, .inr (atEndTagOf_of_no_body name mode ended embedded body)⟩

/-- What follows a body, as a list of tokens. -/
theorem followsBody_of_behind (behind : s.ahead = [] ∨ s.AtEndTagOf tag) :
    FollowsBody (startsWithIgnoringCase tag) s.tokens := by
  rcases behind with ended | stop
  · exact .inl ⟨s.token, tokens_of_ahead_eq_nil ended, token_kind_eq_eof_iff.mpr ended⟩
  · refine .inr ⟨s.token, s.rest.token, s.rest.rest.tokens, ?_, stop.opening, stop.name, stop.starts⟩
    rw [tokens_of_ahead_ne_nil (ahead_ne_nil stop.opening (by decide)),
      tokens_of_ahead_ne_nil (ahead_ne_nil stop.name (by decide))]

/-! ## Which body it is -/

/-- What is remembered after a token. -/
theorem recalls_rest (some_ahead : s.ahead ≠ []) : s.reading.Recalls s.vocabulary
    (if s.mode = .startTagOpened then s.ahead.take (tagNameLength s.ahead) else s.memory.tag) := by
  rw [reading_eq some_ahead]
  exact readToken_recalls s.vocabulary s.pseudoClose s.memory s.ahead s.mode

/-- Behind the name of a tag the same tag is remembered. -/
theorem tag_rest (some_ahead : s.ahead ≠ []) (named : s.mode ≠ .startTagOpened) :
    s.rest.memory.tag = s.memory.tag :=
  (recalls_rest some_ahead).name.trans (if_neg named)

/-- The name of a start tag is read as a whole. -/
theorem reading_of_name (some_ahead : s.ahead ≠ []) (opened : s.mode = .startTagOpened)
    (some_name : 0 < tagNameLength s.ahead) :
    s.reading.kind = .startTag ∧ s.reading.length = tagNameLength s.ahead := by
  rw [reading_eq some_ahead, opened, readToken, readStartTagOpened]
  dsimp only
  rw [if_pos some_name]
  exact ⟨rfl, rfl⟩

/-- The name of a start tag is remembered. -/
theorem tag_rest_of_startTag (kind : s.token.kind = .startTag) : s.rest.memory.tag = s.token.text := by
  have some_ahead := ahead_ne_nil kind (by decide)
  have opened := mode_of_startTag kind
  have some_name : 0 < tagNameLength s.ahead := by
    have name : s.reading.kind = .startTag := kind
    rw [reading_eq some_ahead, opened, readToken] at name
    exact tagNameLength_pos_of_startTag name
  show s.reading.memory.tag = s.ahead.take s.reading.length
  rw [(recalls_rest some_ahead).name, if_pos opened, (reading_of_name some_ahead opened some_name).2]

/-- Behind its name a start tag goes on. -/
theorem mode_rest_of_startTag (kind : s.token.kind = .startTag) : s.rest.mode = .startTag := by
  have reads := reads (ahead_ne_nil kind (by decide))
  rw [kind] at reads
  generalize s.mode = m, s.rest.mode = m' at reads
  cases reads
  rfl

/-- A start tag without a name is remembered as such. -/
theorem tag_rest_of_nameless (some_ahead : s.ahead ≠ []) (opened : s.mode = .startTagOpened)
    (nameless : s.token.kind ≠ .startTag) : s.rest.memory.tag = [] := by
  have no_name : ¬ 0 < tagNameLength s.ahead := fun some_name =>
    nameless (reading_of_name some_ahead opened some_name).1
  show s.reading.memory.tag = []
  rw [(recalls_rest some_ahead).name, if_pos opened, Nat.eq_zero_of_not_pos no_name, List.take_zero]

/-- **What is remembered along a scan**: the latest start tag, and whether its body comes. -/
structure Remembers (s : Tokenizer) (passed : List Token) : Prop where
  /-- The tag that is remembered is the latest one, or it has no name. -/
  tag : s.memory.tag = [] ∨ IsTagName s.memory.tag ∧ latestTag passed = some s.memory.tag
  /-- An opaque body is that of this tag. -/
  body : s.mode = .embeddedContent →
    s.memory.embeddedTag = some s.memory.tag ∧ opensEmbeddedBody s.vocabulary s.memory = true

/-- One more token. Which body is open before it does not matter. -/
theorem remembers_rest {passed : List Token}
    (tag : s.memory.tag = [] ∨ IsTagName s.memory.tag ∧ latestTag passed = some s.memory.tag)
    (some_ahead : s.ahead ≠ []) : s.rest.Remembers (passed ++ [s.token]) := by
  constructor
  · rw [latestTag_concat]
    by_cases kind : s.token.kind = .startTag
    · rw [if_pos kind, tag_rest_of_startTag kind]
      exact .inr ⟨(name_of_startTag kind).1, rfl⟩
    · rw [if_neg kind]
      by_cases opened : s.mode = .startTagOpened
      · exact .inl (tag_rest_of_nameless some_ahead opened kind)
      · rw [tag_rest some_ahead opened]
        exact tag
  · intro body
    have recalls := recalls_rest some_ahead
    obtain ⟨-, embedded, opens⟩ := recalls.body body
    rw [← recalls.name] at embedded
    exact ⟨embedded, opens⟩

theorem Remembers.rest {passed : List Token} (h : s.Remembers passed) (some_ahead : s.ahead ≠ []) :
    s.rest.Remembers (passed ++ [s.token]) :=
  remembers_rest h.tag some_ahead

/-- Only named tags that are embedded have opaque bodies. -/
theorem opensEmbeddedBody_iff {v : Vocabulary} {m : TagMemory} : opensEmbeddedBody v m = true ↔
    m.tag ≠ [] ∧ v.isEmbeddedContent m.tag = true ∧
      (isScript m.tag && m.typeValue.any markupScriptTypes.contains) = false := by
  rw [opensEmbeddedBody, Bool.and_eq_true, Bool.and_eq_true, Bool.not_eq_true', Bool.not_eq_true',
    List.isEmpty_eq_false_iff, and_assoc]

/-- **Every body is that of the latest start tag**, and it stops at an end tag of that name. -/
theorem Remembers.followsBody {passed : List Token} (h : s.Remembers passed)
    (body : s.token.kind = .embeddedContent) :
    ∃ tag, latestTag passed = some tag ∧ s.vocabulary.isEmbeddedContent tag = true ∧
      FollowsBody (startsWithIgnoringCase tag) s.rest.tokens := by
  obtain ⟨embedded, opens⟩ := h.body (mode_of_embeddedContent body)
  obtain ⟨some_name, is_embedded, -⟩ := opensEmbeddedBody_iff.mp opens
  obtain ⟨name, latest⟩ := h.tag.resolve_left some_name
  exact ⟨_, latest, is_embedded, followsBody_of_behind (behind_body name body embedded)⟩

/-! ## From the name to the body -/

/-- **The way through a start tag** whose name has been read, up to its bracket or to the end of the
text. -/
theorem exists_passes_startTag (s : Tokenizer) (inside : s.mode.inStartTag)
    (named : s.mode ≠ .startTagOpened) :
    ∃ tokens s', s.Passes tokens s' ∧ (∀ token ∈ tokens, token.kind.isInStartTag = true) ∧
      s'.memory.tag = s.memory.tag ∧ s'.mode ≠ .startTagOpened ∧
      (s'.ahead = [] ∨ s'.token.kind = .startTagSelfClose ∨ s'.token.kind = .startTagClose) := by
  induction s using Tokenizer.induction with
  | ended s ended => exact ⟨[], s, .here s, by simp, rfl, named, .inl ended⟩
  | step s some_ahead ih =>
    rcases (reads some_ahead).of_named inside named with stops | ⟨goes_on, inside', named'⟩
    · exact ⟨[], s, .here s, by simp, rfl, named, .inr stops⟩
    · obtain ⟨tokens, s', further, all, tag, last⟩ := ih inside' named'
      refine ⟨s.token :: tokens, s', .step some_ahead further, ?_,
        tag.trans (tag_rest some_ahead named), last⟩
      exact List.forall_mem_cons.mpr ⟨goes_on, all⟩

/-- **The bracket of an embedded element** leads to its body. -/
theorem body_of_startTagClose (kind : s.token.kind = .startTagClose) (some_text : s.token.text ≠ [])
    (named : s.mode ≠ .startTagOpened) (name : IsTagName s.memory.tag)
    (embedded : s.vocabulary.isEmbeddedContent s.memory.tag = true)
    (plain : isScript s.memory.tag = false) :
    s.rest.mode = .embeddedContent ∧ s.rest.memory.embeddedTag = some s.memory.tag := by
  have some_ahead := ahead_ne_nil kind (by decide)
  have recalls := recalls_rest some_ahead
  rw [if_neg named] at recalls
  have some_length : 0 < s.reading.length := by
    refine Nat.pos_of_ne_zero fun none_taken => some_text ?_
    show s.ahead.take s.reading.length = []
    rw [none_taken, List.take_zero]
  have opens : opensEmbeddedBody s.vocabulary s.reading.memory = true := by
    rw [opensEmbeddedBody_iff, recalls.name, plain]
    exact ⟨List.ne_nil_of_length_pos name.length_pos, embedded, rfl⟩
  have mode := recalls.opaque_body kind some_length opens
  exact ⟨mode, (recalls.body mode).2.1⟩

end Tokenizer

end MarkupAnalysis
