import MarkupAnalysis.Proofs.Rendering.Forest
import MarkupAnalysis.Proofs.Text.Prefix
import MarkupAnalysis.Proofs.Token.Grammar

/-! # Scanning what was rendered

What is read at each place of a rendered text. The text ahead always goes on after the token, so each
reading is stated with what follows it.

* **`readToken_attributeName`**, **`readAttributeValue_quote`**, … — what is read at each place. -/

namespace MarkupAnalysis

open Text

/-! ## Tags -/

section readings

variable {v : Vocabulary} {memory : TagMemory}

/-- A character of attribute names is no blank. -/
theorem not_isAsciiBlank_of_isAttributeNameChar {c : Char} (h : isAttributeNameChar c = true) :
    isAsciiBlank c = false := by
  by_contra blank
  have := isBlank_of_isAsciiBlank (by simpa using blank)
  simp [isAttributeNameChar, this] at h

/-- The modes in which attributes are read: after the name of the tag or a value, and after the name of
an attribute. -/
def Mode.takesAttributes (m : Mode) : Prop := m = .startTag ∨ m = .attributeName

/-- A blank before an attribute. -/
theorem readToken_blank {m : Mode} (inside : m.takesAttributes) {c : Char}
    (stops : isAsciiBlank c = false) (rest : Text) :
    readToken v true m memory (' ' :: c :: rest) =
      ⟨.whitespace, 1, m, { memory with blankBefore := true }, none⟩ := by
  have one : lengthWhile isAsciiBlank (' ' :: c :: rest) = 1 :=
    lengthWhile_append [' '] (List.forall_mem_singleton.mpr rfl) stops rest
  rcases inside with rfl | rfl
  · simp only [readToken, readStartTag, one, Nat.one_pos, if_true]
  · simp only [readToken, readAttributeName, one, Nat.one_pos, if_true]

/-- Before a character that is no blank there are none. -/
theorem lengthWhile_isAsciiBlank_eq_zero {c : Char} (other : isAsciiBlank c = false) (rest : Text) :
    lengthWhile isAsciiBlank (c :: rest) = 0 :=
  lengthWhile_append [] (by simp) other rest

/-- The name of an attribute, after a blank. -/
theorem readToken_attributeName {m : Mode} (inside : m.takesAttributes)
    (after_blank : memory.blankBefore = true) {a : PlainAttribute} (wf : a.WellFormed) {c : Char}
    (stops : isAttributeNameChar c = false) (rest : Text) :
    readToken v true m memory (a.name ++ c :: rest) =
      ⟨.attributeName, a.name.length, .attributeName,
        { memory with attributeName := a.name, blankBefore := false }, none⟩ := by
  obtain ⟨name_ne_nil, chars, -⟩ := wf
  have whole : lengthWhile isAttributeNameChar (a.name ++ c :: rest) = a.name.length :=
    lengthWhile_append _ chars stops rest
  have some_name : 0 < a.name.length := List.length_pos_iff.mpr name_ne_nil
  obtain ⟨first, others, split⟩ := List.exists_cons_of_ne_nil name_ne_nil
  have first_char : isAttributeNameChar first = true := chars first (by simp [split])
  have no_blank : lengthWhile isAsciiBlank (a.name ++ c :: rest) = 0 := by
    rw [split]
    exact lengthWhile_isAsciiBlank_eq_zero (not_isAsciiBlank_of_isAttributeNameChar first_char) _
  -- After the name of an attribute an `=` would belong to that attribute.
  have no_assignment : startsWith ['='] (a.name ++ c :: rest) = false := by
    have : first ≠ '=' := by
      rintro rfl
      simp [isAttributeNameChar] at first_char
    simp [split, startsWith, List.isPrefixOf, Ne.symm this]
  have listed : readStartTag v true memory (a.name ++ c :: rest) =
      ⟨.attributeName, a.name.length, .attributeName,
        { memory with attributeName := a.name, blankBefore := false }, none⟩ := by
    simp only [readStartTag, no_blank, Nat.lt_irrefl, if_false, after_blank, if_true, whole, some_name,
      List.take_left]
  rcases inside with rfl | rfl
  · exact listed
  · simp only [readToken, readAttributeName, no_blank, Nat.lt_irrefl, if_false, no_assignment,
      Bool.false_eq_true, listed]

/-- The `=` of an attribute. -/
theorem readAttributeName_assignment (rest : Text) :
    readAttributeName v true memory ('=' :: rest) =
      ⟨.delimiterAssign, 1, .attributeValue, memory, none⟩ := by
  simp [readAttributeName, lengthWhile, isAsciiBlank, startsWith]

/-- A value in double quotes. -/
theorem readAttributeValue_quote {value : Text} (chars : '\x22' ∉ value) (rest : Text) :
    readAttributeValue v true memory (quote value ++ rest) =
      ⟨.attributeValue, (quote value).length, .startTag,
        { memory.noteValue value with blankBefore := false }, none⟩ := by
  have upto : lengthUntil (startsWith ['\x22']) (value ++ '\x22' :: rest) = value.length := by
    rw [lengthUntil_char chars]
    simp [lengthUntil, startsWith, List.isPrefixOf]
  have quoted : quote value ++ rest = '\x22' :: (value ++ '\x22' :: rest) := by simp [quote]
  have no_blank : lengthWhile isAsciiBlank ('\x22' :: (value ++ '\x22' :: rest)) = 0 :=
    lengthWhile_isAsciiBlank_eq_zero (by decide) _
  -- A quote is not part of a value without quotes.
  have no_run : lengthWhile isUnquotedValueChar ('\x22' :: (value ++ '\x22' :: rest)) = 0 :=
    lengthWhile_append [] (by simp) (by decide) _
  rw [quoted]
  simp only [readAttributeValue, no_blank, no_run, Nat.lt_irrefl, if_false, readQuotedValue, upto,
    List.take_left, List.drop_left, List.isEmpty_cons, Bool.false_eq_true]
  simp [quote]

/-- The bracket of a start tag whose body is not opaque. -/
theorem readToken_bracket {m : Mode} (inside : m.takesAttributes)
    (not_embedded : v.isEmbeddedContent memory.tag = false) (rest : Text) :
    readToken v true m memory ('>' :: rest) = ⟨.startTagClose, 1, .content, memory, none⟩ := by
  have closes : closeStartTag v memory = ⟨.startTagClose, 1, .content, memory, none⟩ := by
    simp [closeStartTag, opensEmbeddedBody, not_embedded]
  rcases inside with rfl | rfl
  · exact (readStartTag_bracket v true memory rest).trans closes
  · simp only [readToken, readAttributeName, lengthWhile_isAsciiBlank_eq_zero (c := '>') (by decide),
      Nat.lt_irrefl, if_false, startsWith, List.isPrefixOf, readStartTag_bracket, closes]
    simp

/-- The bracket of an end tag. -/
theorem readEndTag_bracket (rest : Text) :
    readEndTag true memory ('>' :: rest) = ⟨.endTagClose, 1, .content, memory, none⟩ := by
  simp [readEndTag, lengthWhile, isAsciiBlank, startsWith]

/-- The body of a comment. -/
theorem readComment_body {body : Text} (chars : ¬ "-->".toList <:+: body) (some_body : body ≠ [])
    (rest : Text) :
    readComment memory (body ++ ("-->".toList ++ rest)) =
      ⟨.comment, body.length, .comment, memory, none⟩ := by
  have upto := lengthUntil_commentEnd chars rest
  -- Otherwise the body would have no characters before the end that was found.
  have not_yet : startsWith "-->".toList (body ++ ("-->".toList ++ rest)) = false := by
    by_contra here
    obtain ⟨c, others, rfl⟩ := List.exists_cons_of_ne_nil some_body
    rw [List.cons_append, lengthUntil, ← List.cons_append, if_pos (by simpa using here)] at upto
    simp at upto
  simp only [readComment, not_yet, Bool.false_eq_true, if_false, upto, List.drop_left]
  simp

/-- The end of a comment. -/
theorem readComment_end (rest : Text) :
    readComment memory ("-->".toList ++ rest) = ⟨.endComment, 3, .content, memory, none⟩ := by
  simp [readComment, startsWith]

end readings

end MarkupAnalysis
