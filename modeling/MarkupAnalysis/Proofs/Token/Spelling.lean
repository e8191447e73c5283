import MarkupAnalysis.Proofs.Token.Names

/-! # How tokens are spelled

What the characters of a token are, and what a reading remembers of the blanks before it.

* **`Text.BlankBetween`** — blanks between two offsets.
* **`TokenKind.Spells`** — the characters of a token and what may follow it.
* **`Reading.Spelled`**, **`readToken_spelled`** — every reading is spelled in this way.
* **`Tokenizer.token_spells`** — and so is every token.
* **`Tokenizer.blankBefore_of_attributeName`**, **`Tokenizer.blankBefore_rest`** — attributes come after
  blanks. -/

namespace MarkupAnalysis

open Text

/-! ## Stretches of blanks -/

/-- There are ASCII blanks only between two offsets of the text. -/
def Text.BlankBetween (t : Text) (start stop : Nat) : Prop :=
  ∃ blanks, t.slice? ⟨start, stop⟩ = some blanks ∧ ∀ c ∈ blanks, isAsciiBlank c = true

namespace Text.BlankBetween

variable {t : Text} {start middle stop : Nat}

/-- Nothing at all is between a boundary and itself. -/
theorem refl (boundary : t.isBoundary start = true) : t.BlankBetween start start :=
  ⟨[], slice?_empty boundary, nofun⟩

/-- Blanks that follow blanks. -/
theorem join (left : t.BlankBetween start middle) (right : t.BlankBetween middle stop) :
    t.BlankBetween start stop := by
  obtain ⟨first, here, blank⟩ := left
  obtain ⟨second, there, blank'⟩ := right
  exact ⟨first ++ second, slice?_join here there, fun c mem =>
    (List.mem_append.mp mem).elim (blank c) (blank' c)⟩

end Text.BlankBetween

/-! ## Readings -/

/-- **The characters of a token** of some kind, and what may follow them. -/
def TokenKind.Spells (kind : TokenKind) (text rest : Text) : Prop :=
  match kind with
  | .startTagOpen => text = ['<'] ∧ rest.head? ≠ some '/' ∧ rest.head? ≠ some '!'
  | .startTagClose | .endTagClose => text = [] ∨ text = ['>']
  | .startTagSelfClose => text = "/>".toList
  | .delimiterAssign => text = ['=']
  | .whitespace => ∀ c ∈ text, isAsciiBlank c = true
  | _ => True

/-- A name or a value has been read, behind which there are no blanks yet. -/
def TokenKind.isPart : TokenKind → Bool
  | startTag | attributeName | attributeValue => true
  | _ => false

/-- **How a reading is spelled**, and what it says of blanks. -/
structure Reading.Spelled (memory : TagMemory) (t : Text) (r : Reading) : Prop where
  /-- It takes the characters of its kind. -/
  spells : r.kind.Spells (t.take r.length) (t.drop r.length)
  /-- Attributes come after blanks. -/
  spaced : r.kind = .attributeName → memory.blankBefore = true
  /-- Right behind a name or a value there are no blanks. -/
  unspaced : r.kind.isPart = true → r.memory.blankBefore = false

section readings

variable {v : Vocabulary} {pseudoClose : Bool} {memory : TagMemory} {t : Text}

/-- The reading of a token that is neither a name nor a value of a start tag. -/
theorem Reading.Spelled.of_spells {r : Reading} (other : r.kind.isPart = false)
    (spells : r.kind.Spells (t.take r.length) (t.drop r.length)) : r.Spelled memory t where
  spells := spells
  spaced := by
    intro kind
    rw [kind] at other
    cases other
  unspaced := fun part => absurd (other.symm.trans part) nofun

/-- A reading after blanks may be read with any memory of them. -/
theorem Reading.Spelled.remember {memory' : TagMemory} {r : Reading} (h : r.Spelled memory' t)
    (remembered : memory'.blankBefore = true → memory.blankBefore = true) : r.Spelled memory t :=
  ⟨h.spells, fun kind => remembered (h.spaced kind), h.unspaced⟩

theorem readContent_spelled : (readContent memory t).Spelled memory t := by
  unfold readContent
  split
  · exact .of_spells rfl trivial
  · exact .of_spells rfl trivial
  · exact .of_spells rfl trivial
  · rename_i rest not_comment not_bang not_slash
    refine .of_spells rfl ⟨rfl, fun slash => ?_, fun bang => ?_⟩
    · obtain ⟨tail, split⟩ := List.head?_eq_some_iff.mp slash
      exact not_slash tail split
    · obtain ⟨name, split⟩ := List.head?_eq_some_iff.mp bang
      exact not_bang name split
  · exact .of_spells rfl trivial

theorem readComment_spelled : (readComment memory t).Spelled memory t := by
  unfold readComment
  split <;> exact .of_spells rfl trivial

theorem readDoctype_spelled : (readDoctype memory t).Spelled memory t := by
  unfold readDoctype
  split <;> exact .of_spells rfl trivial

theorem readEmbeddedContent_spelled : (readEmbeddedContent memory t).Spelled memory t := by
  unfold readEmbeddedContent
  dsimp only
  split
  · exact .of_spells rfl trivial
  · exact readContent_spelled

theorem readEndTag_spelled : (readEndTag pseudoClose memory t).Spelled memory t := by
  unfold readEndTag
  dsimp only
  split_ifs with blanks bracket
  · exact .of_spells rfl fun _ => accepts_of_mem_take
  · obtain ⟨rest, rfl⟩ := List.isPrefixOf_iff_prefix.mp bracket
    exact .of_spells rfl (.inr rfl)
  · exact .of_spells rfl (.inl rfl)
  · exact .of_spells rfl trivial

theorem readEndTagOpened_spelled : (readEndTagOpened pseudoClose memory t).Spelled memory t := by
  unfold readEndTagOpened
  dsimp only
  split_ifs
  · exact .of_spells rfl trivial
  · exact .of_spells rfl fun _ => accepts_of_mem_take
  · exact .of_spells rfl trivial
  · exact readEndTag_spelled

theorem readStartTag_spelled : (readStartTag v pseudoClose memory t).Spelled memory t := by
  unfold readStartTag
  dsimp only
  generalize name_eq : (if memory.blankBefore then lengthWhile isAttributeNameChar t else 0) = name
  split_ifs with blanks named slash bracket
  · exact .of_spells rfl fun _ => accepts_of_mem_take
  · -- A name needs a blank before it.
    refine ⟨trivial, fun _ => ?_, fun _ => rfl⟩
    by_contra no_blank
    simp only [no_blank] at name_eq
    simp [← name_eq] at named
  · obtain ⟨rest, rfl⟩ := List.isPrefixOf_iff_prefix.mp slash
    exact .of_spells rfl rfl
  · obtain ⟨rest, rfl⟩ := List.isPrefixOf_iff_prefix.mp bracket
    unfold closeStartTag
    split <;> exact .of_spells rfl (.inr rfl)
  · exact .of_spells rfl (.inl rfl)
  · exact .of_spells rfl trivial

theorem readStartTagOpened_spelled : (readStartTagOpened v pseudoClose memory t).Spelled memory t := by
  unfold readStartTagOpened
  dsimp only
  split_ifs
  · exact ⟨trivial, nofun, fun _ => rfl⟩
  · exact .of_spells rfl fun _ => accepts_of_mem_take
  · exact .of_spells rfl trivial
  · exact readStartTag_spelled.remember id

theorem readAttributeName_spelled : (readAttributeName v pseudoClose memory t).Spelled memory t := by
  unfold readAttributeName
  dsimp only
  split_ifs with blanks assignment
  · exact .of_spells rfl fun _ => accepts_of_mem_take
  · obtain ⟨rest, rfl⟩ := List.isPrefixOf_iff_prefix.mp assignment
    exact .of_spells rfl rfl
  · exact readStartTag_spelled

theorem readAttributeValue_spelled : (readAttributeValue v pseudoClose memory t).Spelled memory t := by
  have quoted (quote : Char) (cs : Text) : (readQuotedValue memory quote cs).Spelled memory t := by
    unfold readQuotedValue
    dsimp only
    split <;> exact ⟨trivial, nofun, fun _ => rfl⟩
  unfold readAttributeValue
  dsimp only
  split_ifs
  · exact .of_spells rfl fun _ => accepts_of_mem_take
  · exact ⟨trivial, nofun, fun _ => rfl⟩
  · exact readStartTag_spelled.remember nofun
  · split
    · exact quoted _ _
    · exact quoted _ _
    · exact readStartTag_spelled.remember nofun

/-- **Every reading is spelled as its kind says.** -/
theorem readToken_spelled (m : Mode) : (readToken v pseudoClose m memory t).Spelled memory t := by
  cases m with
  | content => exact readContent_spelled
  | startTagOpened => exact readStartTagOpened_spelled
  | endTagOpened => exact readEndTagOpened_spelled
  | doctype => exact readDoctype_spelled
  | startTag => exact readStartTag_spelled
  | endTag => exact readEndTag_spelled
  | comment => exact readComment_spelled
  | embeddedContent => exact readEmbeddedContent_spelled
  | attributeName => exact readAttributeName_spelled
  | attributeValue => exact readAttributeValue_spelled

end readings

/-! ## Tokens -/

namespace Tokenizer

variable {s : Tokenizer} {t : Text}

/-- The next reading is spelled as its kind says. -/
theorem reading_spelled (some_ahead : s.ahead ≠ []) : s.reading.Spelled s.memory s.ahead := by
  rw [reading_eq some_ahead]
  exact readToken_spelled s.mode

/-- **The next token is spelled as its kind says.** -/
theorem token_spells (some_ahead : s.ahead ≠ []) : s.token.kind.Spells s.token.text s.rest.ahead :=
  (reading_spelled some_ahead).spells

/-- A token that closes nothing has characters. -/
theorem text_ne_nil {kind : TokenKind} (h : s.token.kind = kind)
    (other : kind ≠ .eof ∧ kind ≠ .startTagClose ∧ kind ≠ .endTagClose) : s.token.text ≠ [] := by
  have some_text := position_lt_rest (ahead_ne_nil h other.1) (h ▸ other.2.1) (h ▸ other.2.2)
  rw [position_rest] at some_text
  intro empty
  rw [empty] at some_text
  exact Nat.lt_irrefl _ some_text

/-- A start tag opens with `<`, and neither `/` nor `!` follows. -/
theorem text_of_startTagOpen (h : s.token.kind = .startTagOpen) :
    s.token.text = ['<'] ∧ s.rest.ahead.head? ≠ some '/' ∧ s.rest.ahead.head? ≠ some '!' := by
  have spells := token_spells (ahead_ne_nil h (by decide))
  rw [h] at spells
  exact spells

/-- A start tag that is not interrupted closes with `>`. -/
theorem text_of_startTagClose (h : s.token.kind = .startTagClose)
    (some_text : s.token.span.isEmpty = false) : s.token.text = ['>'] := by
  have spells := token_spells (ahead_ne_nil h (by decide))
  rw [h] at spells
  refine spells.resolve_left fun empty => ?_
  simp [Span.isEmpty, token_span, position_rest, empty] at some_text

/-- A start tag that is its whole element closes with `/>`. -/
theorem text_of_startTagSelfClose (h : s.token.kind = .startTagSelfClose) :
    s.token.text = "/>".toList := by
  have spells := token_spells (ahead_ne_nil h (by decide))
  rw [h] at spells
  exact spells

/-- An end tag closes with `>`, unless it is interrupted. -/
theorem text_of_endTagClose (h : s.token.kind = .endTagClose) :
    s.token.text = [] ∨ s.token.text = ['>'] := by
  have spells := token_spells (ahead_ne_nil h (by decide))
  rw [h] at spells
  exact spells

/-- A value comes after `=`. -/
theorem text_of_delimiterAssign (h : s.token.kind = .delimiterAssign) : s.token.text = ['='] := by
  have spells := token_spells (ahead_ne_nil h (by decide))
  rw [h] at spells
  exact spells

/-- The next place is right behind the characters of the token. -/
theorem position_rest_of_text {text : Text} (same : s.token.text = text) :
    s.rest.position = s.position + byteLength text := by
  rw [position_rest, same]

/-- **Attributes come after blanks.** -/
theorem blankBefore_of_attributeName (h : s.token.kind = .attributeName) :
    s.memory.blankBefore = true :=
  (reading_spelled (ahead_ne_nil h (by decide))).spaced h

/-- **Behind a name or a value** of a start tag there are no blanks yet. -/
theorem blankBefore_rest (part : s.token.kind.isPart = true) : s.rest.memory.blankBefore = false := by
  have some_ahead : s.ahead ≠ [] := by
    intro ended
    rw [token_kind_eq_eof_iff.mpr ended] at part
    cases part
  exact (reading_spelled some_ahead).unspaced part

/-- A value comes after `=`. -/
theorem mode_of_attributeValue (h : s.token.kind = .attributeValue) : s.mode = .attributeValue := by
  have reads := reads (ahead_ne_nil h (by decide))
  rw [h] at reads
  generalize s.mode = m, s.rest.mode = m' at reads
  cases reads
  rfl

/-! ## Tokens in the text -/

namespace At

/-- A start tag opens with `<` in the text. -/
theorem exists_dropBytes?_of_startTagOpen (here : s.At t) (kind : s.token.kind = .startTagOpen) :
    ∃ rest, t.dropBytes? s.position = some ('<' :: rest) ∧
      rest.head? ≠ some '/' ∧ rest.head? ≠ some '!' := by
  obtain ⟨text, other⟩ := text_of_startTagOpen kind
  obtain ⟨before, split, same⟩ := here
  have ahead : '<' :: s.rest.ahead = s.ahead := by
    rw [← s.lexeme_append_ahead_rest]
    exact congrArg (· ++ s.rest.ahead) text.symm
  rw [← ahead] at split
  exact ⟨s.rest.ahead, dropBytes?_eq_some_iff.mpr ⟨before, split, same.symm⟩, other⟩

/-- A start tag that is not interrupted ends with `>` in the text. -/
theorem slice_of_startTagClose (here : s.At t) (kind : s.token.kind = .startTagClose)
    (some_text : s.token.span.isEmpty = false) :
    t.slice? ⟨s.rest.position - 1, s.rest.position⟩ = some ['>'] := by
  have text := text_of_startTagClose kind some_text
  have start : s.rest.position - 1 = s.position := by
    rw [position_rest_of_text text]
    rfl
  rw [start, ← text]
  exact here.slice

/-- A start tag that is its whole element ends with `/>` in the text. -/
theorem slice_of_startTagSelfClose (here : s.At t) (kind : s.token.kind = .startTagSelfClose) :
    t.slice? ⟨s.rest.position - 1, s.rest.position⟩ = some ['>'] ∧
      t.slice? ⟨s.rest.position - 2, s.rest.position⟩ = some "/>".toList := by
  have text := text_of_startTagSelfClose kind
  have whole := here.slice
  rw [text] at whole
  have bracket : t.slice? ⟨s.position + 1, s.rest.position⟩ = some ['>'] :=
    (@slice?_split t ['/'] ['>'] _ _ whole).2
  have start : s.rest.position - 2 = s.position ∧ s.rest.position - 1 = s.position + 1 := by
    rw [position_rest_of_text text]
    exact ⟨rfl, rfl⟩
  rw [start.1, start.2]
  exact ⟨bracket, whole⟩

/-- A token of blanks is a stretch of blanks. -/
theorem blankBetween (here : s.At t) (kind : s.token.kind = .whitespace) :
    t.BlankBetween s.position s.rest.position := by
  have spells := token_spells (ahead_ne_nil kind (by decide))
  rw [kind] at spells
  exact ⟨s.token.text, here.slice, spells⟩

end At

end Tokenizer

end MarkupAnalysis
