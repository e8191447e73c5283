import Mathlib.Tactic.Common
import MarkupAnalysis.Token.Tokenizer

/-! # The grammar of tokens

Which token may come in which mode, and which tokens hold no character. Everything that is proved about
whole scans goes back to these two tables, so no other module opens the reading functions.

* **`Mode.Reads`** — the kinds of token that a mode reads, and the mode after each.
* **`Reading.Interrupts`** — the closing tokens that stand for the `<` of the next tag.
* **`readToken_reads`** — every reading follows the grammar.
* **`readToken_length_eq_zero_iff`** — exactly the interrupting readings take no character. -/

namespace MarkupAnalysis

open Text

/-! ## The table -/

namespace Mode

/-- Text or the next tag comes here; an embedded body may be empty. -/
def betweenTags : Mode → Bool
  | content | embeddedContent => true
  | _ => false

/-- The `<` of a start tag has been read, but not its end. -/
def inStartTag : Mode → Bool
  | startTagOpened | startTag | attributeName | attributeValue => true
  | _ => false

/-- The `</` of an end tag has been read, but not its end. -/
def inEndTag : Mode → Bool
  | endTagOpened | endTag => true
  | _ => false

/-- **What a mode reads**: the kind of the token that comes next, and the mode after it. -/
inductive Reads : Mode → TokenKind → Mode → Prop
  /-- Text between tags. -/
  | text {m : Mode} (outside : m.betweenTags) : Reads m .content content
  /-- The body of an embedded element. -/
  | body : Reads embeddedContent .embeddedContent content
  /-- A comment opens. -/
  | commentOpens {m : Mode} (outside : m.betweenTags) : Reads m .startComment comment
  /-- The text of a comment. -/
  | commentText : Reads comment .comment comment
  /-- A comment ends. -/
  | commentEnds : Reads comment .endComment content
  /-- A declaration opens. -/
  | declarationOpens {m : Mode} (outside : m.betweenTags) : Reads m .startDoctype doctype
  /-- The text of a declaration. -/
  | declarationText : Reads doctype .doctype doctype
  /-- A declaration ends. -/
  | declarationEnds : Reads doctype .endDoctype content
  /-- A start tag opens. -/
  | startTagOpens {m : Mode} (outside : m.betweenTags) : Reads m .startTagOpen startTagOpened
  /-- The name of a start tag. -/
  | startTagName : Reads startTagOpened .startTag startTag
  /-- Blanks anywhere in a start tag. -/
  | startTagBlank {m : Mode} (inside : m.inStartTag) : Reads m .whitespace m
  /-- Characters that fit nowhere in a start tag. -/
  | startTagJunk {m : Mode} (inside : m.inStartTag) : Reads m .unknown startTag
  /-- The name of an attribute, after the name of the tag. -/
  | attributeOpens {m : Mode} (inside : m = startTag ∨ m = attributeName) :
      Reads m .attributeName attributeName
  /-- The `=` of an attribute. -/
  | assignment : Reads attributeName .delimiterAssign attributeValue
  /-- The value of an attribute. -/
  | value : Reads attributeValue .attributeValue startTag
  /-- A start tag ends, and text follows. -/
  | startTagEnds {m : Mode} (inside : m.inStartTag) : Reads m .startTagClose content
  /-- A start tag ends, and an embedded body follows. -/
  | startTagEndsBeforeBody {m : Mode} (inside : m.inStartTag) :
      Reads m .startTagClose embeddedContent
  /-- A start tag that is its whole element ends. -/
  | elementEnds {m : Mode} (inside : m.inStartTag) (named : m ≠ startTagOpened) :
      Reads m .startTagSelfClose content
  /-- An end tag opens. -/
  | endTagOpens {m : Mode} (outside : m.betweenTags) : Reads m .endTagOpen endTagOpened
  /-- The name of an end tag. -/
  | endTagName : Reads endTagOpened .endTag endTag
  /-- Blanks anywhere in an end tag. -/
  | endTagBlank {m : Mode} (inside : m.inEndTag) : Reads m .whitespace m
  /-- Characters that stand in place of the name of an end tag. -/
  | endTagJunk : Reads endTagOpened .unknown endTag
  /-- A character after the name of an end tag; the end tag is given up. -/
  | endTagGivenUp : Reads endTag .unknown content
  /-- An end tag ends. -/
  | endTagEnds {m : Mode} (inside : m.inEndTag) : Reads m .endTagClose content

namespace Reads

variable {m m' : Mode} {kind : TokenKind}

/-- Outside of content and tags there are only comments and declarations, each with readings of its own. -/
theorem of_outside (reads : m.Reads kind m') (between : m.betweenTags = false)
    (start : m.inStartTag = false) (stop : m.inEndTag = false) :
    m = comment ∧ (kind = .comment ∧ m' = comment ∨ kind = .endComment ∧ m' = content) ∨
      m = doctype ∧ (kind = .doctype ∧ m' = doctype ∨ kind = .endDoctype ∧ m' = content) := by
  cases reads with
  | commentText => exact .inl ⟨rfl, .inl ⟨rfl, rfl⟩⟩
  | commentEnds => exact .inl ⟨rfl, .inr ⟨rfl, rfl⟩⟩
  | declarationText => exact .inr ⟨rfl, .inl ⟨rfl, rfl⟩⟩
  | declarationEnds => exact .inr ⟨rfl, .inr ⟨rfl, rfl⟩⟩
  | attributeOpens inside => rcases inside with rfl | rfl <;> cases start
  | _ => simp_all [betweenTags, inStartTag, inEndTag]

/-- In a comment its text or its end comes next. -/
theorem of_comment (reads : comment.Reads kind m') :
    kind = .comment ∧ m' = comment ∨ kind = .endComment ∧ m' = content := by
  simpa using reads.of_outside rfl rfl rfl

/-- In a declaration its text or its end comes next. -/
theorem of_doctype (reads : doctype.Reads kind m') :
    kind = .doctype ∧ m' = doctype ∨ kind = .endDoctype ∧ m' = content := by
  simpa using reads.of_outside rfl rfl rfl

/-- After `<` and before a name there are blanks only. -/
theorem to_startTagOpened (reads : m.Reads kind startTagOpened) :
    kind = .startTagOpen ∨ kind = .whitespace ∧ m = startTagOpened := by
  cases reads with
  | startTagOpens => exact .inl rfl
  | startTagBlank => exact .inr ⟨rfl, rfl⟩
  | endTagBlank inside => cases inside

/-- After `</` and before a name there are blanks only. -/
theorem to_endTagOpened (reads : m.Reads kind endTagOpened) :
    kind = .endTagOpen ∨ kind = .whitespace ∧ m = endTagOpened := by
  cases reads with
  | endTagOpens => exact .inl rfl
  | startTagBlank inside => cases inside
  | endTagBlank => exact .inr ⟨rfl, rfl⟩

/-- After the name of an end tag, or what stands in its place, there are blanks only. -/
theorem to_endTag (reads : m.Reads kind endTag) :
    m = endTagOpened ∧ (kind = .endTag ∨ kind = .unknown) ∨ kind = .whitespace ∧ m = endTag := by
  cases reads with
  | startTagBlank inside => cases inside
  | endTagName => exact .inl ⟨rfl, .inl rfl⟩
  | endTagBlank => exact .inr ⟨rfl, rfl⟩
  | endTagJunk => exact .inl ⟨rfl, .inr rfl⟩

/-- After the name of an attribute there are blanks only. -/
theorem to_attributeName (reads : m.Reads kind attributeName) :
    kind = .attributeName ∨ kind = .whitespace ∧ m = attributeName := by
  cases reads with
  | startTagBlank => exact .inr ⟨rfl, rfl⟩
  | attributeOpens => exact .inl rfl
  | endTagBlank inside => cases inside

/-- After the `=` of an attribute there are blanks only. -/
theorem to_attributeValue (reads : m.Reads kind attributeValue) :
    kind = .delimiterAssign ∧ m = attributeName ∨ kind = .whitespace ∧ m = attributeValue := by
  cases reads with
  | startTagBlank => exact .inr ⟨rfl, rfl⟩
  | assignment => exact .inl ⟨rfl, rfl⟩
  | endTagBlank inside => cases inside

/-- A start tag goes on with tokens that close nothing. -/
theorem to_inStartTag (reads : m.Reads kind m') (inside : m'.inStartTag) :
    kind ≠ .startTagClose ∧ kind ≠ .endTagClose := by
  cases reads with
  | startTagEnds | startTagEndsBeforeBody | endTagEnds => cases inside
  | _ => exact ⟨nofun, nofun⟩

end Reads

end Mode

/-- A closing token that stands for the `<` of the next tag. -/
def Reading.Interrupts (r : Reading) : Prop :=
  (r.kind = .startTagClose ∨ r.kind = .endTagClose) ∧ r.error = some .closingBracketMissing

/-! ## What comes next -/

/-- The way to a bracket is empty only if the bracket comes next. -/
theorem startsWith_of_lengthUntil_eq_zero {c : Char} {t : Text} (some_ahead : t ≠ [])
    (h : lengthUntil (startsWith [c]) t = 0) : ∃ rest, t = c :: rest := by
  cases t with
  | nil => exact absurd rfl some_ahead
  | cons d rest =>
    simp only [lengthUntil, startsWith, List.isPrefixOf, Bool.and_true, beq_iff_eq] at h
    split at h
    · rename_i found
      exact ⟨rest, by rw [found]⟩
    · simp at h

/-- A closing bracket is neither a blank nor part of a name. -/
theorem readStartTag_bracket (v : Vocabulary) (pseudoClose : Bool) (memory : TagMemory)
    (rest : Text) :
    readStartTag v pseudoClose memory ('>' :: rest) = closeStartTag v memory := by
  simp [readStartTag, lengthWhile, isAsciiBlank, isAttributeNameChar, startsWith]

/-- A text reaches up to the next tag. -/
theorem readContent_text {memory : TagMemory} {c : Char} (no_tag : c ≠ '<') (rest : Text) :
    readContent memory (c :: rest) =
      ⟨.content, lengthUntil (startsWith ['<']) (c :: rest), .content, memory, none⟩ := by
  unfold readContent
  split <;> simp_all

/-! ## Every reading follows the table -/

section readings

variable (v : Vocabulary) (pseudoClose : Bool) (memory : TagMemory)

theorem readContent_reads {m : Mode} (outside : m.betweenTags) (t : Text) :
    m.Reads (readContent memory t).kind (readContent memory t).mode := by
  unfold readContent
  -- The openings are tried one after the other, and `<` alone opens a start tag.
  split
  · exact .commentOpens outside
  · exact .declarationOpens outside
  · exact .endTagOpens outside
  · exact .startTagOpens outside
  · exact .text outside

theorem readEmbeddedContent_reads (t : Text) :
    Mode.Reads .embeddedContent (readEmbeddedContent memory t).kind
      (readEmbeddedContent memory t).mode := by
  unfold readEmbeddedContent
  dsimp only
  split
  · exact .body
  · -- Behind an empty body comes what comes in content.
    exact readContent_reads memory rfl t

theorem readComment_reads (t : Text) :
    Mode.Reads .comment (readComment memory t).kind (readComment memory t).mode := by
  unfold readComment
  split
  · exact .commentEnds
  · exact .commentText

theorem readDoctype_reads (t : Text) :
    Mode.Reads .doctype (readDoctype memory t).kind (readDoctype memory t).mode := by
  unfold readDoctype
  split
  · exact .declarationEnds
  · exact .declarationText

theorem readEndTag_reads (t : Text) :
    Mode.Reads .endTag (readEndTag pseudoClose memory t).kind
      (readEndTag pseudoClose memory t).mode := by
  unfold readEndTag
  dsimp only
  split_ifs
  · exact .endTagBlank rfl
  · exact .endTagEnds rfl
  · exact .endTagEnds rfl
  · exact .endTagGivenUp

theorem readEndTagOpened_reads {t : Text} (some_ahead : t ≠ []) :
    Mode.Reads .endTagOpened (readEndTagOpened pseudoClose memory t).kind
      (readEndTagOpened pseudoClose memory t).mode := by
  unfold readEndTagOpened
  dsimp only
  split_ifs with _ _ junk
  · exact .endTagName
  · exact .endTagBlank rfl
  · exact .endTagJunk
  · -- No name, no blank and no junk: the bracket itself comes next.
    obtain ⟨rest, rfl⟩ := startsWith_of_lengthUntil_eq_zero some_ahead (Nat.eq_zero_of_not_pos junk)
    simp only [readEndTag, lengthWhile, startsWith]
    exact .endTagEnds rfl

theorem closeStartTag_reads {m : Mode} (inside : m.inStartTag) :
    m.Reads (closeStartTag v memory).kind (closeStartTag v memory).mode := by
  unfold closeStartTag
  split
  · exact .startTagEndsBeforeBody inside
  · exact .startTagEnds inside

/-- The rest of a start tag may be read in three modes; in two of them the blanks have been read before,
and only after blanks a name may follow. -/
theorem readStartTag_reads {m : Mode} (inside : m.inStartTag) (named : m ≠ .startTagOpened) (t : Text)
    (no_blank : m ≠ .startTag → lengthWhile isAsciiBlank t = 0)
    (no_name : m = .attributeValue → memory.blankBefore = false) :
    m.Reads (readStartTag v pseudoClose memory t).kind (readStartTag v pseudoClose memory t).mode := by
  unfold readStartTag
  dsimp only
  generalize name_eq : (if memory.blankBefore then lengthWhile isAttributeNameChar t else 0) = name
  split_ifs with blanks named_next
  · -- Blanks are left here in the mode of start tags only.
    by_cases h : m = .startTag
    · subst h
      exact .startTagBlank rfl
    · exact absurd (no_blank h) (Nat.ne_of_gt blanks)
  · -- A name needs a blank before it, and no blank has been noted where a value was expected.
    have after_blank : memory.blankBefore = true := by
      by_contra h
      simp only [h] at name_eq
      simp [← name_eq] at named_next
    have : m ≠ .attributeValue := fun h => by simp [no_name h] at after_blank
    exact .attributeOpens (by cases m <;> simp_all [Mode.inStartTag])
  · exact .elementEnds inside named
  · exact closeStartTag_reads v memory inside
  · exact .startTagEnds inside
  · exact .startTagJunk inside

theorem readStartTagOpened_reads {t : Text} (some_ahead : t ≠ []) :
    Mode.Reads .startTagOpened (readStartTagOpened v pseudoClose memory t).kind
      (readStartTagOpened v pseudoClose memory t).mode := by
  unfold readStartTagOpened
  dsimp only
  split_ifs with _ _ junk
  · exact .startTagName
  · exact .startTagBlank rfl
  · exact .startTagJunk rfl
  · -- As in an end tag, only the bracket itself is left.
    obtain ⟨rest, rfl⟩ := startsWith_of_lengthUntil_eq_zero some_ahead (Nat.eq_zero_of_not_pos junk)
    rw [readStartTag_bracket]
    exact closeStartTag_reads v _ rfl

theorem readAttributeName_reads (t : Text) :
    Mode.Reads .attributeName (readAttributeName v pseudoClose memory t).kind
      (readAttributeName v pseudoClose memory t).mode := by
  unfold readAttributeName
  dsimp only
  split_ifs with blanks
  · exact .startTagBlank rfl
  · exact .assignment
  · exact readStartTag_reads v pseudoClose memory rfl (by decide) t
      (fun _ => Nat.eq_zero_of_not_pos blanks) (by simp)

theorem readAttributeValue_reads (t : Text) :
    Mode.Reads .attributeValue (readAttributeValue v pseudoClose memory t).kind
      (readAttributeValue v pseudoClose memory t).mode := by
  have quoted (quote : Char) (cs : Text) : Mode.Reads .attributeValue
      (readQuotedValue memory quote cs).kind (readQuotedValue memory quote cs).mode := by
    unfold readQuotedValue
    dsimp only
    split <;> exact .value
  unfold readAttributeValue
  dsimp only
  split_ifs with blanks
  · exact .startTagBlank rfl
  · exact .value
  · -- Where there is no value, the rest is read as that of a start tag without a blank before it.
    exact readStartTag_reads v pseudoClose _ rfl (by decide) t
      (fun _ => Nat.eq_zero_of_not_pos blanks) (fun _ => rfl)
  · split
    · exact quoted _ _
    · exact quoted _ _
    · exact readStartTag_reads v pseudoClose _ rfl (by decide) t
        (fun _ => Nat.eq_zero_of_not_pos blanks) (fun _ => rfl)

/-- **Every reading follows the grammar.** -/
theorem readToken_reads (m : Mode) {t : Text} (some_ahead : t ≠ []) :
    m.Reads (readToken v pseudoClose m memory t).kind (readToken v pseudoClose m memory t).mode := by
  cases m with
  | content => exact readContent_reads memory rfl t
  | startTagOpened => exact readStartTagOpened_reads v pseudoClose memory some_ahead
  | endTagOpened => exact readEndTagOpened_reads pseudoClose memory some_ahead
  | doctype => exact readDoctype_reads memory t
  | startTag => exact readStartTag_reads v pseudoClose memory rfl (by decide) t (by simp) (by simp)
  | endTag => exact readEndTag_reads pseudoClose memory t
  | comment => exact readComment_reads memory t
  | embeddedContent => exact readEmbeddedContent_reads memory t
  | attributeName => exact readAttributeName_reads v pseudoClose memory t
  | attributeValue => exact readAttributeValue_reads v pseudoClose memory t

/-- An end tag opens with `</`. -/
theorem readContent_endTagOpen {t : Text} (opens : (readContent memory t).kind = .endTagOpen) :
    t.take (readContent memory t).length = "</".toList := by
  unfold readContent at opens ⊢
  split at opens
  · simp at opens
  · simp at opens
  · rfl
  · simp at opens
  · simp at opens

/-- **Between tags an end tag opens with `</`.** -/
theorem readToken_endTagOpen {m : Mode} (outside : m.betweenTags) {t : Text}
    (opens : (readToken v pseudoClose m memory t).kind = .endTagOpen) :
    t.take (readToken v pseudoClose m memory t).length = "</".toList := by
  cases m with
  | content => exact readContent_endTagOpen memory opens
  | embeddedContent =>
    -- A body with characters is a token of another kind.
    have no_body : ¬ 0 < embeddedBodyLength memory.embeddedTag t := fun some_body => by
      simp [readToken, readEmbeddedContent, some_body] at opens
    simp only [readToken, readEmbeddedContent, if_neg no_body] at opens ⊢
    exact readContent_endTagOpen memory opens
  | _ => simp [Mode.betweenTags] at outside

end readings

/-! ## Readings without characters -/

/-- Whether a reading takes characters or stands for an interruption, but not both. -/
def Reading.Taking (r : Reading) : Prop := r.length = 0 ↔ r.Interrupts

section lengths

variable (v : Vocabulary) (pseudoClose : Bool) (memory : TagMemory)

/-- A reading with characters is no interruption as long as it reports another problem. -/
theorem Reading.taking_of_pos {r : Reading} (some_taken : 0 < r.length)
    (other : r.error ≠ some .closingBracketMissing) : r.Taking :=
  ⟨fun h => absurd h (Nat.ne_of_gt some_taken), fun h => absurd h.2 other⟩

theorem readContent_taking (c : Char) (cs : Text) : (readContent memory (c :: cs)).Taking := by
  refine Reading.taking_of_pos (readContent_length_pos memory c cs) ?_
  unfold readContent
  split <;> simp

theorem readComment_taking (c : Char) (cs : Text) : (readComment memory (c :: cs)).Taking := by
  refine Reading.taking_of_pos (readComment_length_pos memory c cs) ?_
  unfold readComment
  dsimp only
  split_ifs <;> simp

theorem readDoctype_taking (c : Char) (cs : Text) : (readDoctype memory (c :: cs)).Taking := by
  refine Reading.taking_of_pos (readDoctype_length_pos memory c cs) ?_
  unfold readDoctype
  split <;> simp

theorem readEmbeddedContent_taking (c : Char) (cs : Text) :
    (readEmbeddedContent memory (c :: cs)).Taking := by
  unfold readEmbeddedContent
  dsimp only
  split_ifs with some_body
  · exact Reading.taking_of_pos some_body (by simp)
  · exact readContent_taking memory c cs

theorem readEndTag_taking (t : Text) : (readEndTag pseudoClose memory t).Taking := by
  unfold readEndTag
  dsimp only
  split_ifs with blanks
  · exact Reading.taking_of_pos blanks (by simp)
  · exact Reading.taking_of_pos Nat.one_pos (by simp)
  · -- The `<` of the next tag stays ahead.
    exact iff_of_true rfl ⟨.inr rfl, rfl⟩
  · exact Reading.taking_of_pos Nat.one_pos (by simp)

theorem readEndTagOpened_taking (t : Text) : (readEndTagOpened pseudoClose memory t).Taking := by
  unfold readEndTagOpened
  dsimp only
  split_ifs with name blanks junk
  · exact Reading.taking_of_pos name (by simp)
  · exact Reading.taking_of_pos blanks (by simp)
  · exact Reading.taking_of_pos junk (by simp)
  · exact readEndTag_taking pseudoClose memory t

theorem readStartTag_taking (t : Text) : (readStartTag v pseudoClose memory t).Taking := by
  unfold readStartTag
  dsimp only
  -- How the name is found does not matter here, only that it is not empty.
  generalize (if memory.blankBefore then lengthWhile isAttributeNameChar t else 0) = name
  split_ifs with blanks named_next
  · exact Reading.taking_of_pos blanks (by simp)
  · exact Reading.taking_of_pos named_next (by simp)
  · exact Reading.taking_of_pos Nat.two_pos (by simp)
  · refine Reading.taking_of_pos (by rw [closeStartTag_length]; exact Nat.one_pos) ?_
    unfold closeStartTag
    split <;> simp
  · -- The `<` of the next tag stays ahead.
    exact iff_of_true rfl ⟨.inl rfl, rfl⟩
  · exact Reading.taking_of_pos Nat.one_pos (by simp)

theorem readStartTagOpened_taking (t : Text) :
    (readStartTagOpened v pseudoClose memory t).Taking := by
  unfold readStartTagOpened
  dsimp only
  split_ifs with name blanks junk
  · exact Reading.taking_of_pos name (by simp)
  · exact Reading.taking_of_pos blanks (by simp)
  · exact Reading.taking_of_pos junk (by simp)
  · exact readStartTag_taking v pseudoClose _ t

theorem readAttributeName_taking (t : Text) :
    (readAttributeName v pseudoClose memory t).Taking := by
  unfold readAttributeName
  dsimp only
  split_ifs with blanks
  · exact Reading.taking_of_pos blanks (by simp)
  · exact Reading.taking_of_pos Nat.one_pos (by simp)
  · exact readStartTag_taking v pseudoClose memory t

theorem readAttributeValue_taking (t : Text) :
    (readAttributeValue v pseudoClose memory t).Taking := by
  have quoted (quote : Char) (cs : Text) : (readQuotedValue memory quote cs).Taking := by
    unfold readQuotedValue
    dsimp only
    split <;> exact Reading.taking_of_pos (Nat.succ_pos _) (by simp)
  unfold readAttributeValue
  dsimp only
  split_ifs with blanks _ value
  · exact Reading.taking_of_pos blanks (by simp)
  · exact Reading.taking_of_pos value (by simp)
  · exact readStartTag_taking v pseudoClose _ t
  · split
    · exact quoted _ _
    · exact quoted _ _
    · exact readStartTag_taking v pseudoClose _ t

/-- **Exactly the interruptions take no character.** -/
theorem readToken_length_eq_zero_iff (m : Mode) {t : Text} (some_ahead : t ≠ []) :
    (readToken v pseudoClose m memory t).length = 0 ↔
      (readToken v pseudoClose m memory t).Interrupts := by
  obtain ⟨c, cs, rfl⟩ := List.exists_cons_of_ne_nil some_ahead
  cases m with
  | content => exact readContent_taking memory c cs
  | startTagOpened => exact readStartTagOpened_taking v pseudoClose memory _
  | endTagOpened => exact readEndTagOpened_taking pseudoClose memory _
  | doctype => exact readDoctype_taking memory c cs
  | startTag => exact readStartTag_taking v pseudoClose memory _
  | endTag => exact readEndTag_taking pseudoClose memory _
  | comment => exact readComment_taking memory c cs
  | embeddedContent => exact readEmbeddedContent_taking memory c cs
  | attributeName => exact readAttributeName_taking v pseudoClose memory _
  | attributeValue => exact readAttributeValue_taking v pseudoClose memory _

end lengths

end MarkupAnalysis
