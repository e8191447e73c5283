import MarkupAnalysis.Proofs.Document.Pairing
import MarkupAnalysis.Proofs.Token.Names

/-! # New names for elements

There are two notions of a tag's name. A name that is scanned is a run of the characters of tag names, the
first of which starts one. A name that an element may be given is any text without blanks, brackets, slashes,
quotes and `=`. Every name that can be scanned may be given, but not the other way round: the second notion
rules out the characters that end a name, and not those that are foreign to names.

* **`exists_startTag_iff`** — between angle brackets the names are scanned as such, and nothing else is.
* **`separatesNames`**, **`Document.isTagName_iff`** — what an element may be given as its name.
* **`NewName`** — texts of which both notions say the same.
* **`Document.rename_takesNewName`** — when a renaming has edits. -/

namespace MarkupAnalysis

open Text

variable {v : Vocabulary} {t newName : Text} {offset : Nat}

/-! ## Names that are scanned -/

namespace Tokenizer

/-- A tokenizer at the `<` before a name reads the name after it. -/
theorem startTag_mem_tokens {s : Tokenizer} (name : IsTagName newName) {rest : Text}
    (stops : EndsTagName rest) (content : s.mode = .content) (ahead : s.ahead = '<' :: (newName ++ rest)) :
    ∃ token ∈ s.tokens, token.kind = .startTag ∧ token.text = newName := by
  obtain ⟨first, others, split, start, -⟩ := id name
  have some_ahead : s.ahead ≠ [] := by simp [ahead]
  have opens : s.reading = ⟨.startTagOpen, 1, .startTagOpened, s.memory, none⟩ := by
    rw [reading_eq some_ahead, content, ahead, split]
    exact readContent_startTag start (others ++ rest)
  have behind : s.rest.ahead = newName ++ rest := by
    show s.ahead.drop s.reading.length = _
    rw [opens, ahead]
    rfl
  have more_ahead : s.rest.ahead ≠ [] := by simp [behind, split]
  have names : s.rest.reading = ⟨.startTag, newName.length, .startTag,
      { s.memory with tag := newName, typeValue := none, attributeName := [], blankBefore := false },
      none⟩ := by
    have opened : s.rest.mode = .startTagOpened := congrArg Reading.mode opens
    have remembers : s.rest.memory = s.memory := congrArg Reading.memory opens
    rw [reading_eq more_ahead, opened, remembers, behind]
    exact readStartTagOpened_name name stops
  refine ⟨s.rest.token, ?_, congrArg Reading.kind names, ?_⟩
  · rw [tokens_of_ahead_ne_nil some_ahead, tokens_of_ahead_ne_nil more_ahead]
    exact List.mem_cons_of_mem _ List.mem_cons_self
  · exact (text_of_length_eq behind (congrArg Reading.length names)).1

/-- **Between angle brackets** a text is scanned as the name of a start tag if it is a name. It makes no
difference whether interrupted tags are closed. -/
theorem exists_startTag_iff (v : Vocabulary) (newName : Text) (pseudoClose : Bool) :
    (∃ token ∈ ((start v ('<' :: (newName ++ ['>'])) 0).withPseudoClose pseudoClose).tokens,
      token.kind = .startTag ∧ token.text = newName) ↔ IsTagName newName := by
  constructor
  · rintro ⟨token, mem, kind, text⟩
    obtain ⟨before, after, split⟩ := List.mem_iff_append.mp mem
    obtain ⟨s, -, rfl, -⟩ := passes_of_tokens_eq split
    have name := (name_of_startTag kind).1
    rwa [text] at name
  · intro name
    have stops : EndsTagName ['>'] := endsTagName_cons (by decide) []
    apply startTag_mem_tokens name stops
    · simp [start, withPseudoClose, dropBytes?]
    · simp [start, withPseudoClose, dropBytes?]

end Tokenizer

/-! ## Names that may be given -/

/-- A character that no name may have that an element is given. -/
def separatesNames (c : Char) : Bool :=
  isBlank c || ['<', '>', '/', '\x22', '\'', '='].contains c

/-- The characters of tag names are ASCII characters. -/
theorem toNat_lt_of_isTagNameChar {c : Char} (char : isTagNameChar c = true) : c.toNat < 128 := by
  unfold isTagNameChar isTagNameStart Char.isAlphanum Char.isAlpha Char.isUpper Char.isLower
    Char.isDigit at char
  simp only [Bool.or_eq_true, Bool.and_eq_true, decide_eq_true_eq, UInt32.le_iff_toNat_le] at char
  rcases char with (((((⟨-, h⟩ | ⟨-, h⟩) | ⟨-, h⟩) | rfl) | rfl) | rfl) | rfl
  all_goals first | decide | exact Nat.lt_of_le_of_lt h (by decide)

/-- No character of tag names separates names. -/
theorem separatesNames_of_isTagNameChar {c : Char} (char : isTagNameChar c = true) :
    separatesNames c = false := by
  have none_of_them : ∀ n < 128, isTagNameChar (Char.ofNat n) = true →
      separatesNames (Char.ofNat n) = false := by
    decide
  have here := none_of_them c.toNat (toNat_lt_of_isTagNameChar char)
  rw [Char.ofNat_toNat] at here
  exact here char

namespace Document

/-- **What an element may be given** as its name. -/
theorem isTagName_iff :
    isTagName newName = true ↔ newName ≠ [] ∧ ∀ c ∈ newName, separatesNames c = false := by
  simp [isTagName, separatesNames, not_or, and_assoc]

/-- Every name that can be scanned may be given. -/
theorem isTagName_of_isTagName (name : MarkupAnalysis.IsTagName newName) : isTagName newName = true := by
  rw [isTagName_iff]
  constructor
  · exact List.ne_nil_of_length_pos name.length_pos
  · intro c mem
    exact separatesNames_of_isTagNameChar (name.chars c mem)

end Document

/-- A text for which **both notions of a name are the same**: its first character starts names or separates
them, and each other one is a character of names or separates them. -/
def NewName (newName : Text) : Prop :=
  (∀ c ∈ newName.head?, isTagNameStart c = true ∨ separatesNames c = true) ∧
    ∀ c ∈ newName, isTagNameChar c = true ∨ separatesNames c = true

/-- Where both notions are the same, a name may be given only if it can be scanned. -/
theorem NewName.isTagName_iff (plain : NewName newName) :
    Document.isTagName newName = true ↔ IsTagName newName := by
  refine ⟨fun given => ?_, Document.isTagName_of_isTagName⟩
  obtain ⟨some_char, separate⟩ := Document.isTagName_iff.mp given
  obtain ⟨first, others, rfl⟩ := List.exists_cons_of_ne_nil some_char
  have kept {c : Char} {p : Prop} (mem : c ∈ first :: others) (h : p ∨ separatesNames c = true) : p := by
    refine h.resolve_right ?_
    simp [separate c mem]
  refine ⟨first, others, rfl, kept List.mem_cons_self (plain.1 first rfl), fun c mem => ?_⟩
  exact kept (List.mem_cons_of_mem first mem) (plain.2 c (List.mem_cons_of_mem first mem))

/-! ## Renaming -/

namespace Document

/-- The offset touches the name of an element, in its start tag or in its end tag. -/
def AtName (d : Document) (offset : Nat) : Prop :=
  ∃ id, d.IsElement id ∧ ∃ span ∈ (d.node id).nameSpans, span.touches offset = true

/-- There are highlights where there is a name. -/
theorem highlights_ne_nil_iff : (parse v t).highlights offset ≠ [] ↔ (parse v t).AtName offset := by
  constructor
  · intro some_name
    obtain ⟨entry, named, touches⟩ := exists_name_of_highlights some_name
    exact ⟨entry.node, named.1, entry.span, Node.mem_nameSpans_iff.mpr ⟨entry.isEnd, named.2⟩, touches⟩
  · rintro ⟨id, element, span, mem, touches⟩
    obtain ⟨isEnd, listed⟩ := Node.mem_nameSpans_iff.mp mem
    have named : (parse v t).HasName ⟨span, id, isEnd⟩ := .of_mem element.2 listed
    rw [named.highlights_eq touches]
    exact List.ne_nil_of_mem mem

/-- A renaming has edits where there is a name, if the new name may be given. -/
theorem rename_ne_nil_iff : (parse v t).rename offset newName ≠ [] ↔
    (parse v t).AtName offset ∧ isTagName newName = true := by
  rw [← highlights_ne_nil_iff, rename]
  split
  · rename_i given
    simp [given]
  · rename_i refused
    simp [refused]

/-- **When a renaming has edits**, and what is scanned. -/
structure TakesNewName (v : Vocabulary) (t : Text) (offset : Nat) (newName : Text) : Prop where
  /-- Between angle brackets the new name is scanned as the name of a start tag if it is a name, whether or
  not interrupted tags are closed. -/
  scanned : ∀ pseudoClose,
    (∃ token ∈ ((Tokenizer.start v ('<' :: (newName ++ ['>'])) 0).withPseudoClose pseudoClose).tokens,
      token.kind = .startTag ∧ token.text = newName) ↔ IsTagName newName
  /-- There are edits if there is a name at the offset, and the new name is not empty and has no character
  that separates names. -/
  edits : (parse v t).rename offset newName ≠ [] ↔
    (parse v t).AtName offset ∧ newName ≠ [] ∧ ∀ c ∈ newName, separatesNames c = false
  /-- A name that is scanned as such can always be given. -/
  named : IsTagName newName → ((parse v t).rename offset newName ≠ [] ↔ (parse v t).AtName offset)
  /-- A text in which every character is one of names, or separates them, can be given only if it is scanned
  as a name. -/
  plain : NewName newName →
    ((parse v t).rename offset newName ≠ [] ↔ (parse v t).AtName offset ∧ IsTagName newName)

/-- **A renaming takes every name that is scanned as such**, and no text with a character that separates
names; a character of neither kind goes through. -/
theorem rename_takesNewName (v : Vocabulary) (t : Text) (offset : Nat) (newName : Text) :
    TakesNewName v t offset newName where
  scanned pseudoClose := Tokenizer.exists_startTag_iff v newName pseudoClose
  edits := by rw [rename_ne_nil_iff, isTagName_iff]
  named name := by
    rw [rename_ne_nil_iff]
    exact and_iff_left (isTagName_of_isTagName name)
  plain plain := by rw [rename_ne_nil_iff, plain.isTagName_iff]

/-- A new name that is given though it cannot be scanned. -/
theorem rename_foreign_character :
    (parse Vocabulary.empty "<p>".toList).rename 1 "!".toList = [⟨⟨1, 2⟩, "!".toList⟩] ∧
      ¬ IsTagName "!".toList := by
  constructor
  · decide +kernel
  · rintro ⟨first, others, split, start, -⟩
    obtain ⟨rfl, -⟩ := List.cons.inj split
    exact absurd start (by decide)

end Document

end MarkupAnalysis
