import MarkupAnalysis.Proofs.Text.Case
import MarkupAnalysis.Proofs.Vocabulary.Index
import MarkupAnalysis.Token.Reading

/-! # Reading in any case

The reading of a token does not depend on the case of tag names: where a vocabulary ignores case, spellings
of a text are cut into tokens of the same kinds and lengths. The one thing that is compared as it is
written is the value of a `type` attribute.

* **`isEndTagOf_eq`**, **`ScriptMarker.read?_eq`**, **`readContent_eq`** — what is read by what comes first.
* **`embeddedBodyLength_of_lower`** — where an embedded body ends.
* **`TagMemory.lowered`**, **`Reading.lowered`** — what is remembered, with names in lower case.
* **`readToken_lowered`** — one step over a text and over a spelling of it. -/

namespace MarkupAnalysis

open Text

variable {t t' : Text}

/-! ## What comes first -/

/-- A text that starts with a literal is that literal and more. -/
theorem Text.startsWith_iff {literal : Text} :
    startsWith literal t = true ↔ ∃ rest, t = literal ++ rest := by
  rw [startsWith, List.isPrefixOf_iff_prefix]
  exact exists_congr fun rest => eq_comm

/-- An end tag is `</` and the name. -/
theorem isEndTagOf_eq (tag t : Text) :
    isEndTagOf tag t = (startsWith "</".toList t && startsWithIgnoringCase tag (t.drop 2)) := by
  by_cases opens : startsWith "</".toList t = true
  · obtain ⟨rest, rfl⟩ := startsWith_iff.mp opens
    rw [opens, Bool.true_and]
    rfl
  · unfold isEndTagOf
    split
    · exact absurd rfl opens
    · rw [Bool.eq_false_iff.mpr opens, Bool.false_and]

/-- The slash and the bracket of a tag come after blanks. -/
theorem tagTailLength_eq (t : Text) :
    tagTailLength t = lengthWhile isAsciiBlank t +
      if startsWith "/>".toList (t.drop (lengthWhile isAsciiBlank t)) then 2
      else if startsWith ['/'] (t.drop (lengthWhile isAsciiBlank t)) then 1
      else if startsWith ['>'] (t.drop (lengthWhile isAsciiBlank t)) then 1
      else 0 := by
  rw [tagTailLength]
  generalize t.drop (lengthWhile isAsciiBlank t) = rest
  split <;> split_ifs <;> simp_all [startsWith_iff]

/-- The markers of a script body. -/
theorem ScriptMarker.read?_eq (tag t : Text) :
    read? tag t =
      if startsWith "<!--".toList t then some (.commentOpen, 4)
      else if startsWith "</".toList t then tagMarker? tag .endTag 2 (t.drop 2)
      else if startsWith ['<'] t then tagMarker? tag .startTag 1 (t.drop 1)
      else if startsWith "-->".toList t then some (.commentClose, 3)
      else none := by
  unfold read?
  split <;> split_ifs <;> simp_all [startsWith_iff]

/-- What opens in the content. -/
theorem readContent_eq (memory : TagMemory) (t : Text) :
    readContent memory t =
      if startsWith "<!--".toList t then ⟨.startComment, 4, .comment, memory, none⟩
      else if startsWith "<!".toList t then
        ⟨.startDoctype, if startsWithIgnoringCase "doctype".toList (t.drop 2) then 9 else 2, .doctype,
          memory, none⟩
      else if startsWith "</".toList t then ⟨.endTagOpen, 2, .endTagOpened, memory, none⟩
      else if startsWith ['<'] t then ⟨.startTagOpen, 1, .startTagOpened, memory, none⟩
      else ⟨.content, lengthUntil (startsWith ['<']) t, .content, memory, none⟩ := by
  unfold readContent
  split <;> split_ifs <;> simp_all [startsWith_iff]

/-- What follows `=` where there is neither a blank nor an unquoted value. -/
theorem readAttributeValue_eq (v : Vocabulary) (pseudoClose : Bool) (memory : TagMemory)
    (no_blank : ¬ 0 < lengthWhile isAsciiBlank t) (no_run : ¬ 0 < lengthWhile isUnquotedValueChar t) :
    readAttributeValue v pseudoClose memory t =
      if startsWith ['\x22'] t then readQuotedValue memory '\x22' (t.drop 1)
      else if startsWith ['\''] t then readQuotedValue memory '\'' (t.drop 1)
      else readStartTag v pseudoClose { memory with blankBefore := false } t := by
  simp only [readAttributeValue, if_neg no_blank, if_neg no_run]
  split <;> split_ifs <;> simp_all [startsWith_iff]

/-! ## Embedded bodies -/

variable {tag tag' : Text}

/-- Blanks are no letters. -/
theorem lengthWhile_isAsciiBlank_lower (t : Text) :
    lengthWhile isAsciiBlank (lower t) = lengthWhile isAsciiBlank t :=
  lengthWhile_lower (toLower_of_capitals (by decide)) t

/-- An end tag may be spelled in any case. -/
theorem isEndTagOf_of_lower (tags : lower tag = lower tag') (same : lower t = lower t') :
    isEndTagOf tag t = isEndTagOf tag' t' := by
  rw [isEndTagOf_eq, isEndTagOf_eq, startsWith_of_lower _ (by decide) same,
    startsWithIgnoringCase_of_lower tags (drop_of_lower same 2)]

/-- What follows the name of a tag is no letter. -/
theorem tagTailLength_lower (t : Text) : tagTailLength (lower t) = tagTailLength t := by
  simp only [tagTailLength_eq, lengthWhile_isAsciiBlank_lower, ← lower_drop]
  generalize t.drop (lengthWhile isAsciiBlank t) = rest
  simp only [startsWith_lower "/>".toList (by decide),
    startsWith_lower ['/'] (by decide), startsWith_lower ['>'] (by decide)]

/-- A tag marker may be spelled in any case. -/
theorem tagMarker?_of_lower (tags : lower tag = lower tag') (marker : ScriptMarker) (opening : Nat)
    (same : lower t = lower t') : tagMarker? tag marker opening t = tagMarker? tag' marker opening t' := by
  have tails : lower (t.drop tag.length) = lower (t'.drop tag'.length) := by
    rw [lower_drop, same, lower_drop, length_eq_of_lower tags]
  rw [tagMarker?, tagMarker?, startsWithIgnoringCase_of_lower tags same,
    congr_of_lower tagTailLength_lower tails, length_eq_of_lower tags]

/-- The markers of a script body may be spelled in any case. -/
theorem ScriptMarker.read?_of_lower (tags : lower tag = lower tag') (same : lower t = lower t') :
    read? tag t = read? tag' t' := by
  have first {literal : Text} (no_letters : literal.all (!·.isAlpha) = true) :
      startsWith literal t = startsWith literal t' := startsWith_of_lower literal no_letters same
  rw [read?_eq, read?_eq, first (by decide), first (by decide), first (by decide), first (by decide),
    tagMarker?_of_lower tags .endTag 2 (drop_of_lower same 2),
    tagMarker?_of_lower tags .startTag 1 (drop_of_lower same 1)]

/-- A script body ends at the same place. -/
theorem scriptBodyLength_of_lower (tags : lower tag = lower tag') (hidden : ScriptEscape) (skip : Nat)
    (same : lower t = lower t') : scriptBodyLength tag hidden skip t = scriptBodyLength tag' hidden skip t' := by
  induction t generalizing hidden skip t' with
  | nil =>
    obtain rfl : t' = [] := List.map_eq_nil_iff.mp same.symm
    simp only [scriptBodyLength]
  | cons c cs ih =>
    cases t' with
    | nil => simp at same
    | cons c' cs' =>
      have later : lower cs = lower cs' := (List.cons.inj same).2
      cases skip with
      | succ skip => rw [scriptBodyLength, scriptBodyLength, ih hidden skip later]
      | zero =>
        rw [scriptBodyLength, scriptBodyLength, ScriptMarker.read?_of_lower tags same]
        simp only [fun hidden skip => ih hidden skip later]

/-- An embedded body ends at the same place. -/
theorem embeddedBodyLength_of_lower {tag tag' : Option Text} (tags : tag.map lower = tag'.map lower)
    (same : lower t = lower t') : embeddedBodyLength tag t = embeddedBodyLength tag' t' := by
  have names : lower (tag.getD []) = lower (tag'.getD []) := by
    cases tag <;> cases tag' <;> simp_all
  have script : isScript (tag.getD []) = isScript (tag'.getD []) := equalsIgnoringCase_congr names rfl
  have plain : lengthUntil (isEndTagOf (tag.getD [])) t = lengthUntil (isEndTagOf (tag'.getD [])) t' :=
    lengthUntil_of_lower (isEndTagOf_of_lower names) same
  rw [embeddedBodyLength, embeddedBodyLength, script, plain,
    scriptBodyLength_of_lower names .normal 0 same]

/-! ## Names and values -/

/-- The letters of a tag name may be in any case. -/
theorem tagNameLength_lower (t : Text) : tagNameLength (lower t) = tagNameLength t := by
  cases t with
  | nil => rfl
  | cons c t =>
    have start : isTagNameStart c.toLower = isTagNameStart c := toLower_of_capitals (by decide) c
    rw [lower_cons, tagNameLength, start, lengthWhile_lower (toLower_of_capitals (by decide)), tagNameLength]

/-- The letters of an attribute's name may be in any case. -/
theorem lengthWhile_isAttributeNameChar_lower (t : Text) :
    lengthWhile isAttributeNameChar (lower t) = lengthWhile isAttributeNameChar t :=
  lengthWhile_lower (toLower_of_capitals (by decide)) t

/-- The letters of an unquoted value may be in any case. -/
theorem lengthWhile_isUnquotedValueChar_lower (t : Text) :
    lengthWhile isUnquotedValueChar (lower t) = lengthWhile isUnquotedValueChar t :=
  lengthWhile_lower (toLower_of_capitals (by decide)) t

/-- The case of letters does not matter for where an unquoted value ends. -/
theorem unquotedValueLength_lower (t : Text) :
    unquotedValueLength (lower t) = unquotedValueLength t := by
  have is_char {d : Char} (no_letter : d.isAlpha = false) (c : Option Char) :
      c.map Char.toLower = some d ↔ c = some d := by
    cases c <;> simp [toLower_eq_iff no_letter]
  simp only [unquotedValueLength, lengthWhile_isUnquotedValueChar_lower, ← lower_take, ← lower_drop]
  simp only [lower, List.getLast?_map, List.head?_map, is_char (d := '/') (by decide),
    is_char (d := '>') (by decide)]

/-! ## What is remembered -/

/-- What is remembered, with names in lower case. -/
def TagMemory.lowered (m : TagMemory) : TagMemory :=
  { m with
    tag := lower m.tag
    attributeName := lower m.attributeName
    embeddedTag := m.embeddedTag.map lower }

/-- Memories are the same with names in lower case if they differ in the case of names only. -/
theorem TagMemory.lowered_inj {m m' : TagMemory} : m.lowered = m'.lowered ↔
    lower m.tag = lower m'.tag ∧ lower m.attributeName = lower m'.attributeName ∧
      m.typeValue = m'.typeValue ∧ m.embeddedTag.map lower = m'.embeddedTag.map lower ∧
        m.blankBefore = m'.blankBefore := by
  simp only [lowered, TagMemory.mk.injEq]

/-- A reading, with what is remembered in lower case. -/
def Reading.lowered (r : Reading) : Reading := { r with memory := r.memory.lowered }

/-- Readings with names in lower case are the same if they differ in the case of names only. -/
theorem Reading.lowered_inj {r r' : Reading} : r.lowered = r'.lowered ↔
    r.kind = r'.kind ∧ r.length = r'.length ∧ r.mode = r'.mode ∧
      r.memory.lowered = r'.memory.lowered ∧ r.error = r'.error := by
  simp only [lowered, Reading.mk.injEq]

section readings

variable {v : Vocabulary} {pseudoClose : Bool} {m m' : TagMemory}

/-- What opens in the content does not depend on letters. -/
theorem readContent_lowered (same : lower t = lower t') (alike : m.lowered = m'.lowered) :
    (readContent m t).lowered = (readContent m' t').lowered := by
  have first {literal : Text} (no_letters : literal.all (!·.isAlpha) = true) :
      startsWith literal t = startsWith literal t' := startsWith_of_lower literal no_letters same
  rw [readContent_eq, readContent_eq, first (by decide), first (by decide), first (by decide),
    first (by decide), startsWithIgnoringCase_of_lower rfl (drop_of_lower same 2),
    lengthUntil_startsWith_of_lower _ (by decide) same]
  split_ifs <;> simp only [Reading.lowered, alike]

theorem readComment_lowered (same : lower t = lower t') (alike : m.lowered = m'.lowered) :
    (readComment m t).lowered = (readComment m' t').lowered := by
  simp only [readComment, startsWith_of_lower "-->".toList (by decide) same,
    lengthUntil_startsWith_of_lower "-->".toList (by decide) same,
    isEmpty_of_lower (drop_of_lower same _)]
  split_ifs <;> simp only [Reading.lowered, alike]

theorem readDoctype_lowered (same : lower t = lower t') (alike : m.lowered = m'.lowered) :
    (readDoctype m t).lowered = (readDoctype m' t').lowered := by
  simp only [readDoctype, startsWith_of_lower ['>'] (by decide) same,
    lengthUntil_startsWith_of_lower ['>'] (by decide) same]
  split_ifs <;> simp only [Reading.lowered, alike]

theorem readEndTag_lowered (same : lower t = lower t') (alike : m.lowered = m'.lowered) :
    (readEndTag pseudoClose m t).lowered = (readEndTag pseudoClose m' t').lowered := by
  simp only [readEndTag, congr_of_lower lengthWhile_isAsciiBlank_lower same,
    startsWith_of_lower ['>'] (by decide) same,
    startsWith_of_lower ['<'] (by decide) same]
  split_ifs <;> simp only [Reading.lowered, alike]

theorem readEndTagOpened_lowered (same : lower t = lower t') (alike : m.lowered = m'.lowered) :
    (readEndTagOpened pseudoClose m t).lowered = (readEndTagOpened pseudoClose m' t').lowered := by
  simp only [readEndTagOpened, congr_of_lower tagNameLength_lower same,
    congr_of_lower lengthWhile_isAsciiBlank_lower same,
    lengthUntil_startsWith_of_lower ['>'] (by decide) same]
  split_ifs
  · simp only [Reading.lowered, alike]
  · simp only [Reading.lowered, alike]
  · simp only [Reading.lowered, alike]
  · exact readEndTag_lowered same alike

theorem readEmbeddedContent_lowered (same : lower t = lower t') (alike : m.lowered = m'.lowered) :
    (readEmbeddedContent m t).lowered = (readEmbeddedContent m' t').lowered := by
  obtain ⟨-, -, -, tags, -⟩ := TagMemory.lowered_inj.mp alike
  simp only [readEmbeddedContent, embeddedBodyLength_of_lower tags same]
  split_ifs
  · simp only [Reading.lowered, alike]
  · exact readContent_lowered same alike

/-- Whether the body of a tag is opaque does not depend on the case of its name. -/
theorem closeStartTag_lowered (v_ignores : v.IgnoresCase) (alike : m.lowered = m'.lowered) :
    (closeStartTag v m).lowered = (closeStartTag v m').lowered := by
  obtain ⟨tags, names, types, -, blanks⟩ := TagMemory.lowered_inj.mp alike
  have script : isScript m.tag = isScript m'.tag := equalsIgnoringCase_congr tags rfl
  have opens : opensEmbeddedBody v m = opensEmbeddedBody v m' := by
    rw [opensEmbeddedBody, opensEmbeddedBody, isEmpty_of_lower tags, v_ignores.isEmbeddedContent tags,
      script, types]
  rw [closeStartTag, closeStartTag, opens]
  split
  · simp only [Reading.lowered, TagMemory.lowered, tags, names, types, blanks, Option.map_some]
  · simp only [Reading.lowered, alike]

theorem readStartTag_lowered (v_ignores : v.IgnoresCase) (same : lower t = lower t')
    (alike : m.lowered = m'.lowered) :
    (readStartTag v pseudoClose m t).lowered = (readStartTag v pseudoClose m' t').lowered := by
  obtain ⟨tags, names, types, bodies, blanks⟩ := TagMemory.lowered_inj.mp alike
  simp only [readStartTag, blanks, congr_of_lower lengthWhile_isAsciiBlank_lower same,
    congr_of_lower lengthWhile_isAttributeNameChar_lower same,
    startsWith_of_lower "/>".toList (by decide) same,
    startsWith_of_lower ['>'] (by decide) same,
    startsWith_of_lower ['<'] (by decide) same]
  generalize (if m'.blankBefore = true then lengthWhile isAttributeNameChar t' else 0) = name
  split_ifs
  · simp only [Reading.lowered, TagMemory.lowered, tags, names, types, bodies]
  · simp only [Reading.lowered, TagMemory.lowered, tags, types, bodies, take_of_lower same]
  · simp only [Reading.lowered, alike]
  · exact closeStartTag_lowered v_ignores alike
  · simp only [Reading.lowered, alike]
  · simp only [Reading.lowered, alike]

theorem readStartTagOpened_lowered (v_ignores : v.IgnoresCase) (same : lower t = lower t')
    (alike : m.lowered = m'.lowered) :
    (readStartTagOpened v pseudoClose m t).lowered = (readStartTagOpened v pseudoClose m' t').lowered := by
  obtain ⟨-, -, -, bodies, blanks⟩ := TagMemory.lowered_inj.mp alike
  simp only [readStartTagOpened, congr_of_lower tagNameLength_lower same,
    congr_of_lower lengthWhile_isAsciiBlank_lower same,
    lengthUntil_startsWith_of_lower ['>'] (by decide) same]
  have memories (n : Nat) :
      ({ m with tag := t.take n, typeValue := none, attributeName := [] } : TagMemory).lowered =
        ({ m' with tag := t'.take n, typeValue := none, attributeName := [] } : TagMemory).lowered :=
    TagMemory.lowered_inj.mpr ⟨take_of_lower same n, rfl, rfl, bodies, blanks⟩
  split_ifs
  · simp only [Reading.lowered, TagMemory.lowered, take_of_lower same, bodies]
  · simp only [Reading.lowered, memories]
  · simp only [Reading.lowered, memories]
  · exact readStartTag_lowered v_ignores same (memories _)

theorem readAttributeName_lowered (v_ignores : v.IgnoresCase) (same : lower t = lower t')
    (alike : m.lowered = m'.lowered) :
    (readAttributeName v pseudoClose m t).lowered = (readAttributeName v pseudoClose m' t').lowered := by
  obtain ⟨tags, names, types, bodies, -⟩ := TagMemory.lowered_inj.mp alike
  simp only [readAttributeName, congr_of_lower lengthWhile_isAsciiBlank_lower same,
    startsWith_of_lower ['='] (by decide) same]
  split_ifs
  · simp only [Reading.lowered, TagMemory.lowered, tags, names, types, bodies]
  · simp only [Reading.lowered, alike]
  · exact readStartTag_lowered v_ignores same alike

/-- A value that is noted under names in any case. -/
theorem noteValue_lowered (alike : m.lowered = m'.lowered) (value : Text) :
    ({ m.noteValue value with blankBefore := false } : TagMemory).lowered =
      ({ m'.noteValue value with blankBefore := false } : TagMemory).lowered := by
  obtain ⟨tags, names, types, bodies, -⟩ := TagMemory.lowered_inj.mp alike
  rw [TagMemory.noteValue, TagMemory.noteValue, equalsIgnoringCase_congr names rfl]
  split_ifs
  · exact TagMemory.lowered_inj.mpr ⟨tags, names, rfl, bodies, rfl⟩
  · exact TagMemory.lowered_inj.mpr ⟨tags, names, types, bodies, rfl⟩

/-- A quoted value that is read has to be the same. -/
theorem readQuotedValue_lowered {quote : Char} (no_letter : quote.isAlpha = false)
    (opens : startsWith [quote] t = true) (same : lower t = lower t') (alike : m.lowered = m'.lowered)
    (value : (readQuotedValue m quote (t.drop 1)).kind = .attributeValue →
      t.take (readQuotedValue m quote (t.drop 1)).length =
        t'.take (readQuotedValue m quote (t.drop 1)).length) :
    (readQuotedValue m quote (t.drop 1)).lowered = (readQuotedValue m' quote (t'.drop 1)).lowered := by
  have alone : [quote].all (!·.isAlpha) = true := by simpa using no_letter
  obtain ⟨rest', rfl⟩ := startsWith_iff.mp ((startsWith_of_lower _ alone same).symm.trans opens)
  obtain ⟨rest, rfl⟩ := startsWith_iff.mp opens
  simp only [List.singleton_append, List.drop_succ_cons, List.drop_zero, lower_cons,
    List.cons.injEq, true_and] at same value ⊢
  have stops := lengthUntil_startsWith_of_lower _ alone same
  have ended := isEmpty_of_lower (drop_of_lower same (lengthUntil (startsWith [quote]) rest))
  -- The lexeme is longer than the value by its quotes.
  have values : rest.take (lengthUntil (startsWith [quote]) rest) =
      rest'.take (lengthUntil (startsWith [quote]) rest) := by
    have longer : lengthUntil (startsWith [quote]) rest + 1 ≤ (readQuotedValue m quote rest).length := by
      rw [readQuotedValue]
      dsimp only
      split_ifs <;> simp
    have kind : (readQuotedValue m quote rest).kind = .attributeValue := by
      rw [readQuotedValue]
      dsimp only
      split_ifs <;> rfl
    have shorter := congrArg (List.take (lengthUntil (startsWith [quote]) rest + 1)) (value kind)
    rw [List.take_take, List.take_take, Nat.min_eq_left longer, List.take_succ_cons,
      List.take_succ_cons] at shorter
    exact (List.cons.inj shorter).2
  simp only [readQuotedValue, ← stops, ← ended, ← values]
  split_ifs <;> simp only [Reading.lowered, noteValue_lowered alike]

/-- A value that is read has to be the same. -/
theorem readAttributeValue_lowered (v_ignores : v.IgnoresCase) (same : lower t = lower t')
    (alike : m.lowered = m'.lowered)
    (value : (readAttributeValue v pseudoClose m t).kind = .attributeValue →
      t.take (readAttributeValue v pseudoClose m t).length =
        t'.take (readAttributeValue v pseudoClose m t).length) :
    (readAttributeValue v pseudoClose m t).lowered =
      (readAttributeValue v pseudoClose m' t').lowered := by
  have blanks := congr_of_lower lengthWhile_isAsciiBlank_lower same
  have run := congr_of_lower lengthWhile_isUnquotedValueChar_lower same
  have size := congr_of_lower unquotedValueLength_lower same
  by_cases blank : 0 < lengthWhile isAsciiBlank t
  · simp only [readAttributeValue, ← blanks, if_pos blank, Reading.lowered, alike]
  by_cases unquoted : 0 < lengthWhile isUnquotedValueChar t
  · simp only [readAttributeValue, ← blanks, ← run, ← size, if_neg blank, if_pos unquoted] at value ⊢
    by_cases some_value : 0 < unquotedValueLength t
    · simp only [if_pos some_value, forall_const] at value ⊢
      simp only [Reading.lowered, value, noteValue_lowered alike]
    · -- The run is the slash of `/>`, and its value is empty.
      have no_value : unquotedValueLength t = 0 := Nat.eq_zero_of_not_pos some_value
      simp only [no_value, List.take_zero]
      exact readStartTag_lowered v_ignores same (noteValue_lowered alike [])
  obtain ⟨tags, names, types, bodies, -⟩ := TagMemory.lowered_inj.mp alike
  have no_blank : ({ m with blankBefore := false } : TagMemory).lowered =
      ({ m' with blankBefore := false } : TagMemory).lowered :=
    TagMemory.lowered_inj.mpr ⟨tags, names, types, bodies, rfl⟩
  rw [readAttributeValue_eq v pseudoClose m blank unquoted] at value ⊢
  rw [readAttributeValue_eq v pseudoClose m' (blanks ▸ blank) (run ▸ unquoted)]
  rw [← startsWith_of_lower ['\x22'] (by decide) same,
    ← startsWith_of_lower ['\''] (by decide) same]
  split_ifs at value ⊢ with double single
  · exact readQuotedValue_lowered (by decide) double same alike value
  · exact readQuotedValue_lowered (by decide) single same alike value
  · exact readStartTag_lowered v_ignores same no_blank

/-- **One step over spellings of a text**, if an attribute's value that is read is the same. -/
theorem readToken_lowered (v_ignores : v.IgnoresCase) (mode : Mode) (same : lower t = lower t')
    (alike : m.lowered = m'.lowered)
    (value : (readToken v pseudoClose mode m t).kind = .attributeValue →
      t.take (readToken v pseudoClose mode m t).length =
        t'.take (readToken v pseudoClose mode m t).length) :
    (readToken v pseudoClose mode m t).lowered = (readToken v pseudoClose mode m' t').lowered := by
  cases mode with
  | content => exact readContent_lowered same alike
  | startTagOpened => exact readStartTagOpened_lowered v_ignores same alike
  | endTagOpened => exact readEndTagOpened_lowered same alike
  | doctype => exact readDoctype_lowered same alike
  | startTag => exact readStartTag_lowered v_ignores same alike
  | endTag => exact readEndTag_lowered same alike
  | comment => exact readComment_lowered same alike
  | embeddedContent => exact readEmbeddedContent_lowered same alike
  | attributeName => exact readAttributeName_lowered v_ignores same alike
  | attributeValue => exact readAttributeValue_lowered v_ignores same alike value

end readings

end MarkupAnalysis
