import Mathlib.Data.List.TakeWhile
import MarkupAnalysis.Proofs.Text.Prefix
import MarkupAnalysis.Proofs.Token.Passage

/-! # Tag names

What is read as the name of a tag: a run of its own characters that nothing behind it continues.

* **`IsTagName`** — a name that a tag may have.
* **`EndsTagName`** — what may follow a tag's name.
* **`readStartTagOpened_name`**, **`readEndTagOpened_name`** — a name is read as such.
* **`readStartTagOpened_blanks`**, **`readEndTagOpened_blanks`** — blanks before a name.
* **`Tokenizer.name_of_startTag`**, **`Tokenizer.name_of_endTag`** — what is read as a name is one. -/

namespace MarkupAnalysis

open Text

/-- A name that a tag may have. -/
def IsTagName (tag : Text) : Prop :=
  ∃ first others, tag = first :: others ∧ isTagNameStart first = true ∧
    ∀ c ∈ others, isTagNameChar c = true

/-- The name of a tag ends where the text does or before a character foreign to it. -/
def EndsTagName (rest : Text) : Prop := ∀ c ∈ rest.head?, isTagNameChar c = false

section names

variable {v : Vocabulary} {pseudoClose : Bool} {memory : TagMemory} {tag rest t : Text}

theorem endsTagName_cons {c : Char} (stops : isTagNameChar c = false) (rest : Text) :
    EndsTagName (c :: rest) := by
  intro d head
  rw [← Option.some.inj head]
  exact stops

/-- A character that starts tag names is none of those that may follow a bracket. -/
theorem ne_of_isTagNameStart {c d : Char} (h : isTagNameStart c = true)
    (other : isTagNameStart d = false) : c ≠ d := by
  rintro rfl
  simp [h] at other

/-- A tag's name is not empty. -/
theorem IsTagName.length_pos (name : IsTagName tag) : 0 < tag.length := by
  obtain ⟨first, others, rfl, -, -⟩ := name
  exact Nat.succ_pos _

/-- A tag's name has characters of its own only. -/
theorem IsTagName.chars (name : IsTagName tag) : ∀ c ∈ tag, isTagNameChar c = true := by
  obtain ⟨first, others, rfl, start, chars⟩ := name
  intro c mem
  rcases List.mem_cons.mp mem with rfl | later
  · simp [isTagNameChar, start]
  · exact chars c later

/-- The length of a tag's name. -/
theorem tagNameLength_append (name : IsTagName tag) (stops : EndsTagName rest) :
    tagNameLength (tag ++ rest) = tag.length := by
  obtain ⟨first, others, rfl, start, chars⟩ := name
  rw [List.cons_append, tagNameLength, if_pos start, lengthWhile_of_ends chars stops, List.length_cons]

/-- No name comes before a character that starts none. -/
theorem tagNameLength_eq_zero {c : Char} (other : isTagNameStart c = false) (rest : Text) :
    tagNameLength (c :: rest) = 0 := by
  rw [tagNameLength, other]
  rfl

/-- A blank starts no name. -/
theorem isTagNameStart_of_isAsciiBlank {c : Char} (blank : isAsciiBlank c = true) :
    isTagNameStart c = false := by
  simp only [isAsciiBlank, Bool.or_eq_true, decide_eq_true_eq] at blank
  rcases blank with (((rfl | rfl) | rfl) | rfl) | rfl <;> decide

/-- What is read as a name is one, and nothing behind it continues it. -/
theorem exists_name_of_tagNameLength_pos (some_name : 0 < tagNameLength t) :
    ∃ tag rest, t = tag ++ rest ∧ tag.length = tagNameLength t ∧ IsTagName tag ∧ EndsTagName rest := by
  cases t with
  | nil => exact absurd some_name (Nat.lt_irrefl 0)
  | cons first t =>
    rw [tagNameLength] at some_name ⊢
    split at some_name
    · rename_i start
      refine ⟨first :: t.takeWhile isTagNameChar, t.dropWhile isTagNameChar, ?_, ?_,
        ⟨first, _, rfl, start, fun c => List.mem_takeWhile_imp⟩, ?_⟩
      · rw [List.cons_append, List.takeWhile_append_dropWhile]
      · rw [if_pos start]
        rfl
      · intro c head
        have := List.head?_dropWhile_not isTagNameChar t
        rw [head] at this
        simpa using this
    · exact absurd some_name (Nat.lt_irrefl 0)

/-! ## Readings -/

/-- A start tag opens before a name. -/
theorem readContent_startTag {c : Char} (start : isTagNameStart c = true) (rest : Text) :
    readContent memory ('<' :: c :: rest) = ⟨.startTagOpen, 1, .startTagOpened, memory, none⟩ := by
  have not_bang : c ≠ '!' := ne_of_isTagNameStart start (by decide)
  have not_slash : c ≠ '/' := ne_of_isTagNameStart start (by decide)
  unfold readContent
  split <;> simp_all

/-- The name of a start tag. -/
theorem readStartTagOpened_name (name : IsTagName tag) (stops : EndsTagName rest) :
    readStartTagOpened v pseudoClose memory (tag ++ rest) =
      ⟨.startTag, tag.length, .startTag,
        { memory with tag, typeValue := none, attributeName := [], blankBefore := false }, none⟩ := by
  unfold readStartTagOpened
  simp only [tagNameLength_append name stops, if_pos name.length_pos, List.take_left]

/-- The name of an end tag. -/
theorem readEndTagOpened_name (name : IsTagName tag) (stops : EndsTagName rest) :
    readEndTagOpened pseudoClose memory (tag ++ rest) = ⟨.endTag, tag.length, .endTag, memory, none⟩ := by
  unfold readEndTagOpened
  simp only [tagNameLength_append name stops, if_pos name.length_pos]

/-- The blanks between `<` and the name. -/
theorem readStartTagOpened_blanks {blanks : Text} (some_blank : blanks ≠ [])
    (blank : ∀ c ∈ blanks, isAsciiBlank c = true) (stops : ∀ c ∈ rest.head?, isAsciiBlank c = false) :
    readStartTagOpened v pseudoClose memory (blanks ++ rest) =
      ⟨.whitespace, blanks.length, .startTagOpened,
        { memory with tag := [], typeValue := none, attributeName := [] }, some .tagNameNotAdjacent⟩ := by
  have length := lengthWhile_of_ends blank stops
  obtain ⟨c, blanks, rfl⟩ := List.exists_cons_of_ne_nil some_blank
  have nameless : tagNameLength (c :: blanks ++ rest) = 0 :=
    tagNameLength_eq_zero (isTagNameStart_of_isAsciiBlank (blank c List.mem_cons_self)) _
  unfold readStartTagOpened
  simp only [nameless, length, List.take_zero, Nat.lt_irrefl, if_false, List.length_cons, Nat.succ_pos,
    if_true]

/-- The blanks between `</` and the name. -/
theorem readEndTagOpened_blanks {blanks : Text} (some_blank : blanks ≠ [])
    (blank : ∀ c ∈ blanks, isAsciiBlank c = true) (stops : ∀ c ∈ rest.head?, isAsciiBlank c = false) :
    readEndTagOpened pseudoClose memory (blanks ++ rest) =
      ⟨.whitespace, blanks.length, .endTagOpened, memory, some .tagNameNotAdjacent⟩ := by
  have length := lengthWhile_of_ends blank stops
  obtain ⟨c, blanks, rfl⟩ := List.exists_cons_of_ne_nil some_blank
  have nameless : tagNameLength (c :: blanks ++ rest) = 0 :=
    tagNameLength_eq_zero (isTagNameStart_of_isAsciiBlank (blank c List.mem_cons_self)) _
  unfold readEndTagOpened
  simp only [nameless, length, Nat.lt_irrefl, if_false, List.length_cons, Nat.succ_pos, if_true]

/-- What is read as blanks after `<` are blanks. -/
theorem readStartTagOpened_whitespace (some_ahead : t ≠ [])
    (blank : (readStartTagOpened v pseudoClose memory t).kind = .whitespace) :
    (readStartTagOpened v pseudoClose memory t).length = lengthWhile isAsciiBlank t := by
  unfold readStartTagOpened at blank ⊢
  dsimp only at blank ⊢
  split_ifs at blank ⊢ with _ _ junk
  · rfl
  · obtain ⟨rest, rfl⟩ := startsWith_of_lengthUntil_eq_zero some_ahead (Nat.eq_zero_of_not_pos junk)
    rw [readStartTag_bracket, closeStartTag] at blank
    split_ifs at blank

/-- What is read as blanks after `</` are blanks. -/
theorem readEndTagOpened_whitespace (some_ahead : t ≠ [])
    (blank : (readEndTagOpened pseudoClose memory t).kind = .whitespace) :
    (readEndTagOpened pseudoClose memory t).length = lengthWhile isAsciiBlank t := by
  unfold readEndTagOpened at blank ⊢
  dsimp only at blank ⊢
  split_ifs at blank ⊢ with _ _ junk
  · rfl
  · obtain ⟨rest, rfl⟩ := startsWith_of_lengthUntil_eq_zero some_ahead (Nat.eq_zero_of_not_pos junk)
    simp [readEndTag, lengthWhile, isAsciiBlank, startsWith] at blank

/-- Only a name is read as the name of a start tag. -/
theorem tagNameLength_pos_of_startTag
    (name : (readStartTagOpened v pseudoClose memory t).kind = .startTag) : 0 < tagNameLength t := by
  by_contra nameless
  unfold readStartTagOpened at name
  simp only [if_neg nameless] at name
  split_ifs at name
  -- The end of the tag, or a character in it.
  unfold readStartTag closeStartTag at name
  dsimp only at name
  split_ifs at name

/-- Only a name is read as the name of an end tag. -/
theorem tagNameLength_pos_of_endTag
    (name : (readEndTagOpened pseudoClose memory t).kind = .endTag) : 0 < tagNameLength t := by
  by_contra nameless
  unfold readEndTagOpened at name
  simp only [if_neg nameless] at name
  split_ifs at name
  unfold readEndTag at name
  dsimp only at name
  split_ifs at name

end names

/-! ## Tokens -/

namespace Tokenizer

variable {s : Tokenizer}

/-- The name of a start tag comes after `<`. -/
theorem mode_of_startTag (h : s.token.kind = .startTag) : s.mode = .startTagOpened := by
  have reads := reads (ahead_ne_nil h (by decide))
  rw [h] at reads
  generalize s.mode = m, s.rest.mode = m' at reads
  cases reads
  rfl

/-- The next token has the characters that its reading takes. -/
theorem text_of_length_eq {lexeme rest : Text} (split : s.ahead = lexeme ++ rest)
    (length : s.reading.length = lexeme.length) : s.token.text = lexeme ∧ s.rest.ahead = rest := by
  show s.ahead.take s.reading.length = lexeme ∧ s.ahead.drop s.reading.length = rest
  rw [split, length]
  exact ⟨List.take_left, List.drop_left⟩

/-- **What is read as the name of a start tag is a name.** -/
theorem name_of_startTag (h : s.token.kind = .startTag) :
    IsTagName s.token.text ∧ EndsTagName s.rest.ahead := by
  have reading := reading_eq (ahead_ne_nil h (by decide))
  rw [mode_of_startTag h, readToken] at reading
  have kind : s.reading.kind = .startTag := h
  obtain ⟨tag, rest, split, -, name, stops⟩ :=
    exists_name_of_tagNameLength_pos (tagNameLength_pos_of_startTag (reading ▸ kind))
  rw [split, readStartTagOpened_name name stops] at reading
  obtain ⟨text, behind⟩ := text_of_length_eq split (by rw [reading])
  rw [text, behind]
  exact ⟨name, stops⟩

/-- **What is read as the name of an end tag is a name.** -/
theorem name_of_endTag (h : s.token.kind = .endTag) :
    IsTagName s.token.text ∧ EndsTagName s.rest.ahead := by
  have reading := reading_eq (ahead_ne_nil h (by decide))
  rw [mode_of_endTag h, readToken] at reading
  have kind : s.reading.kind = .endTag := h
  obtain ⟨tag, rest, split, -, name, stops⟩ :=
    exists_name_of_tagNameLength_pos (tagNameLength_pos_of_endTag (reading ▸ kind))
  rw [split, readEndTagOpened_name name stops] at reading
  obtain ⟨text, behind⟩ := text_of_length_eq split (by rw [reading])
  rw [text, behind]
  exact ⟨name, stops⟩

end Tokenizer

end MarkupAnalysis
