import MarkupAnalysis.Token.Reading

/-! # Readings make progress

A reading takes at least one character, or it goes back to the content, where the next one does. This is
why cutting a text into tokens comes to an end, from every mode.

* **`Reading.Progresses`** — the property.
* **`readContent_length_pos`** — the content itself always takes a character.
* **`readToken_progresses`** — every mode makes progress. -/

namespace MarkupAnalysis

open Text

namespace Text

/-- Before a place that is not the first one there is a character. -/
theorem lengthUntil_pos {found : Text → Bool} {c : Char} {cs : Text} (h : found (c :: cs) = false) :
    0 < lengthUntil found (c :: cs) := by
  simp [lengthUntil, h]

end Text

/-- The reading takes a character or leads to the content. -/
def Reading.Progresses (r : Reading) : Prop := 0 < r.length ∨ r.mode = .content

/-- The content always takes a character. -/
theorem readContent_length_pos (memory : TagMemory) (c : Char) (cs : Text) :
    0 < (readContent memory (c :: cs)).length := by
  unfold readContent
  split <;> simp only [Nat.lt_add_one, Nat.zero_lt_succ]
  · split <;> omega
  · rename_i h
    apply lengthUntil_pos
    simp only [startsWith, List.isPrefixOf, Bool.and_true, beq_eq_false_iff_ne, ne_eq]
    rintro rfl
    exact h _ rfl

/-- A comment always takes a character. -/
theorem readComment_length_pos (memory : TagMemory) (c : Char) (cs : Text) :
    0 < (readComment memory (c :: cs)).length := by
  unfold readComment
  split
  · simp
  · rename_i h
    exact lengthUntil_pos (by simpa using h)

/-- A declaration always takes a character. -/
theorem readDoctype_length_pos (memory : TagMemory) (c : Char) (cs : Text) :
    0 < (readDoctype memory (c :: cs)).length := by
  unfold readDoctype
  split
  · simp
  · rename_i h
    exact lengthUntil_pos (by simpa using h)

/-- After the name of an end tag there is progress. -/
theorem readEndTag_progresses (pseudoClose : Bool) (memory : TagMemory) (t : Text) :
    (readEndTag pseudoClose memory t).Progresses := by
  unfold readEndTag
  dsimp only
  split
  · rename_i blanks
    exact .inl blanks
  · split
    · exact .inl Nat.one_pos
    · split
      · exact .inr rfl
      · exact .inl Nat.one_pos

/-- After `</` there is progress. -/
theorem readEndTagOpened_progresses (pseudoClose : Bool) (memory : TagMemory) (t : Text) :
    (readEndTagOpened pseudoClose memory t).Progresses := by
  unfold readEndTagOpened
  dsimp only
  split
  · rename_i name
    exact .inl name
  · split
    · rename_i blanks
      exact .inl blanks
    · split
      · rename_i junk
        exact .inl junk
      · exact readEndTag_progresses pseudoClose memory t

/-- The bracket of a start tag is a character. -/
theorem closeStartTag_length (v : Vocabulary) (memory : TagMemory) :
    (closeStartTag v memory).length = 1 := by
  unfold closeStartTag; split <;> rfl

/-- In an attribute list there is progress. -/
theorem readStartTag_progresses (v : Vocabulary) (pseudoClose : Bool) (memory : TagMemory)
    (t : Text) : (readStartTag v pseudoClose memory t).Progresses := by
  unfold readStartTag
  dsimp only
  generalize (if memory.blankBefore then lengthWhile isAttributeNameChar t else 0) = name
  split
  · rename_i blanks
    exact .inl blanks
  · split
    · rename_i named
      exact .inl named
    · split
      · exact .inl Nat.two_pos
      · split
        · rw [Reading.Progresses, closeStartTag_length]
          exact .inl Nat.one_pos
        · split
          · exact .inr rfl
          · exact .inl Nat.one_pos

/-- After `<` there is progress. -/
theorem readStartTagOpened_progresses (v : Vocabulary) (pseudoClose : Bool) (memory : TagMemory)
    (t : Text) : (readStartTagOpened v pseudoClose memory t).Progresses := by
  unfold readStartTagOpened
  dsimp only
  split
  · rename_i name
    exact .inl name
  · split
    · rename_i blanks
      exact .inl blanks
    · split
      · rename_i junk
        exact .inl junk
      · exact readStartTag_progresses v pseudoClose _ t

/-- After an attribute's name there is progress. -/
theorem readAttributeName_progresses (v : Vocabulary) (pseudoClose : Bool) (memory : TagMemory)
    (t : Text) : (readAttributeName v pseudoClose memory t).Progresses := by
  unfold readAttributeName
  dsimp only
  split
  · rename_i blanks
    exact .inl blanks
  · split
    · exact .inl Nat.one_pos
    · exact readStartTag_progresses v pseudoClose memory t

/-- A quoted value takes its opening quote. -/
theorem readQuotedValue_progresses (memory : TagMemory) (quote : Char) (t : Text) :
    (readQuotedValue memory quote t).Progresses := by
  unfold readQuotedValue
  dsimp only
  split
  · exact .inl (Nat.succ_pos _)
  · exact .inl (Nat.succ_pos _)

/-- After `=` there is progress. -/
theorem readAttributeValue_progresses (v : Vocabulary) (pseudoClose : Bool) (memory : TagMemory)
    (t : Text) : (readAttributeValue v pseudoClose memory t).Progresses := by
  unfold readAttributeValue
  dsimp only
  split
  · rename_i blanks
    exact .inl blanks
  · split
    · split
      · rename_i value
        exact .inl value
      · exact readStartTag_progresses v pseudoClose _ t
    · split
      · exact readQuotedValue_progresses memory _ _
      · exact readQuotedValue_progresses memory _ _
      · exact readStartTag_progresses v pseudoClose _ t

/-- In an embedded body there is progress. -/
theorem readEmbeddedContent_length_pos (memory : TagMemory) (c : Char) (cs : Text) :
    0 < (readEmbeddedContent memory (c :: cs)).length := by
  unfold readEmbeddedContent
  dsimp only
  split
  · simpa
  · exact readContent_length_pos ..

/-- Every mode makes progress, and the content takes a character. -/
theorem readToken_progresses (v : Vocabulary) (pseudoClose : Bool) (mode : Mode) (memory : TagMemory)
    (c : Char) (cs : Text) :
    0 < (readToken v pseudoClose mode memory (c :: cs)).length ∨
      ((readToken v pseudoClose mode memory (c :: cs)).mode = .content ∧ mode ≠ .content) := by
  -- Where the content is reached without a character, it is reached from another mode.
  have away {r : Reading} (progresses : r.Progresses) (other : mode ≠ .content) :
      0 < r.length ∨ r.mode = .content ∧ mode ≠ .content :=
    progresses.imp_right fun back => ⟨back, other⟩
  cases mode with
  | content => exact .inl (readContent_length_pos memory c cs)
  | startTagOpened => exact away (readStartTagOpened_progresses v pseudoClose memory _) (by decide)
  | endTagOpened => exact away (readEndTagOpened_progresses pseudoClose memory _) (by decide)
  | doctype => exact .inl (readDoctype_length_pos memory c cs)
  | startTag => exact away (readStartTag_progresses v pseudoClose memory _) (by decide)
  | endTag => exact away (readEndTag_progresses pseudoClose memory _) (by decide)
  | comment => exact .inl (readComment_length_pos memory c cs)
  | embeddedContent => exact .inl (readEmbeddedContent_length_pos memory c cs)
  | attributeName => exact away (readAttributeName_progresses v pseudoClose memory _) (by decide)
  | attributeValue => exact away (readAttributeValue_progresses v pseudoClose memory _) (by decide)

end MarkupAnalysis
