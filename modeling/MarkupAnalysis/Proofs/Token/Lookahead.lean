import MarkupAnalysis.Proofs.Token.Body
import MarkupAnalysis.Proofs.Token.Grammar

/-! # How far a reading looks ahead

A token that ends before the text does has been read for good: whatever else comes behind the text, the
same token is read. The exception is a declaration without its bracket, since `<!-` and `<!doc` may still
become something else. And tokens that close something need no character behind them at all.

* **`TokenKind.closes`** — the tokens that close something.
* **`Reading.SettledBy`** — readings that a first part of the text settles.
* **`readComment_congr`**, **`readStartTag_congr`**, … — one lemma for each mode.
* **`readToken_congr`** — two texts with a common first part that settles the reading.
* **`readToken_append`** — a text that goes on.
* **`readToken_length_le`** — a token takes no more characters than there are. -/

namespace MarkupAnalysis

open Text

/-- The tokens that end a start tag, an element or a comment. -/
def TokenKind.closes : TokenKind → Bool
  | startTagClose | startTagSelfClose | endTagClose | endComment => true
  | _ => false

namespace Reading

/-- **A first part of the text settles the reading**: the token ends before that part does, or it closes
something. -/
def SettledBy (r : Reading) (s : Text) : Prop := r.length < s.length ∨ r.kind.closes = true

variable {r r' : Reading} {s : Text}

/-- A token that closes nothing ends before the part that settles it does. -/
theorem SettledBy.length_lt (h : r.SettledBy s) (other : r.kind.closes = false) :
    r.length < s.length := by
  rcases h with inside | closes
  · exact inside
  · exact absurd (other.symm.trans closes) (by simp)

/-- What is tried first, and taken if there is any of it, ends in the part that settles the reading. -/
theorem SettledBy.lt_of_tried {size : Nat} (h : (if 0 < size then r else r').SettledBy s)
    (length : r.length = size) (other : r.kind.closes = false) (some_common : s ≠ []) :
    size < s.length := by
  by_cases taken : 0 < size
  · rw [if_pos taken] at h
    rw [← length]
    exact h.length_lt other
  · have := List.length_pos_iff.mpr some_common
    omega

end Reading

/-! ## Between tags -/

section modes

variable {v : Vocabulary} {pseudoClose : Bool} {memory : TagMemory} {s t : Text}

/-- The first character says whether a certain one comes next. -/
theorem startsWith_char_congr (c : Char) (some_common : s ≠ []) (u : Text) :
    startsWith [c] (s ++ u) = startsWith [c] (s ++ t) := by
  obtain ⟨first, s, rfl⟩ := List.exists_cons_of_ne_nil some_common
  rfl

/-- After `<!` a comment opens or a declaration. -/
theorem readContent_bang (memory : TagMemory) (name : Text) :
    readContent memory ('<' :: '!' :: name) =
      if startsWith "--".toList name then ⟨.startComment, 4, .comment, memory, none⟩
      else ⟨.startDoctype, if startsWithIgnoringCase "doctype".toList name then 9 else 2, .doctype,
        memory, none⟩ := by
  split
  · rename_i dashes
    obtain ⟨rest, rfl⟩ := List.isPrefixOf_iff_prefix.mp dashes
    rfl
  · rename_i other
    rw [readContent]
    · rfl
    · rintro rest rfl
      exact other rfl

/-- After `<!` the bracket of the declaration settles what opens. -/
theorem readContent_bang_congr {name : Text}
    (settled : (readContent memory ('<' :: '!' :: (name ++ t))).SettledBy ('<' :: '!' :: name))
    (declaration : (readContent memory ('<' :: '!' :: (name ++ t))).kind = .startDoctype → '>' ∈ name)
    (u : Text) :
    readContent memory ('<' :: '!' :: (name ++ u)) = readContent memory ('<' :: '!' :: (name ++ t)) := by
  rw [readContent_bang] at settled declaration
  rw [readContent_bang, readContent_bang]
  by_cases dashes : startsWith "--".toList (name ++ t) = true
  · -- The dashes are in the common part, since the token ends in there.
    rw [if_pos dashes] at settled
    have inside := settled.length_lt rfl
    have reaches : "--".toList.length ≤ name.length := by
      simp only [List.length_cons] at inside
      show 2 ≤ name.length
      omega
    have bounded := bounded_startsWith "--".toList
    rw [bounded.append name t reaches] at dashes ⊢
    rw [bounded.append name u reaches, if_pos dashes, if_pos dashes]
  · rw [if_neg dashes] at declaration
    have bracket := declaration rfl
    rw [startsWith_congr t u bracket (by decide),
      startsWithIgnoringCase_congr t u bracket (by decide)]

/-- After `<` any other character opens a start tag. -/
theorem readContent_other {c : Char} (not_bang : c ≠ '!') (not_slash : c ≠ '/') (rest : Text) :
    readContent memory ('<' :: c :: rest) = ⟨.startTagOpen, 1, .startTagOpened, memory, none⟩ := by
  unfold readContent
  split <;> simp_all

/-- Between tags. -/
theorem readContent_congr (some_common : s ≠ [])
    (settled : (readContent memory (s ++ t)).SettledBy s)
    (declaration : (readContent memory (s ++ t)).kind = .startDoctype → '>' ∈ s) (u : Text) :
    readContent memory (s ++ u) = readContent memory (s ++ t) := by
  obtain ⟨c, s, rfl⟩ := List.exists_cons_of_ne_nil some_common
  by_cases tag : c = '<'
  · subst tag
    match s with
    | [] =>
      -- The `<` alone does not say what it opens.
      have opens : (readContent memory ('<' :: t)).kind.closes = false := by
        unfold readContent
        split <;> rfl
      have inside : (readContent memory ('<' :: t)).length < 1 := settled.length_lt opens
      have taken := readContent_length_pos memory '<' t
      omega
    | '!' :: name =>
      refine readContent_bang_congr settled (fun kind => ?_) u
      simpa using declaration kind
    | '/' :: rest => rfl
    | c :: rest =>
      by_cases bang : c = '!'
      · subst bang
        refine readContent_bang_congr settled (fun kind => ?_) u
        simpa using declaration kind
      · by_cases slash : c = '/'
        · subst slash
          rfl
        · exact (readContent_other bang slash _).trans (readContent_other bang slash _).symm
  · rw [List.cons_append, readContent_text tag] at settled ⊢
    rw [List.cons_append, readContent_text tag]
    have same := lengthUntil_char_congr (s := c :: s) u (settled.length_lt rfl)
    rw [List.cons_append, List.cons_append] at same
    rw [same]

/-- In a declaration. -/
theorem readDoctype_congr (some_common : s ≠ [])
    (settled : (readDoctype memory (s ++ t)).SettledBy s) (u : Text) :
    readDoctype memory (s ++ u) = readDoctype memory (s ++ t) := by
  unfold readDoctype at settled ⊢
  rw [startsWith_char_congr (t := t) '>' some_common u]
  split
  · rfl
  · rename_i not_yet
    rw [if_neg not_yet] at settled
    rw [lengthUntil_char_congr u (settled.length_lt rfl)]

/-! ## Comments -/

/-- What follows a text does not complete the end of a comment that the text ends with. -/
def KeepsComments (t : Text) : Prop := ∀ c ∈ t.head?, c ≠ '-' ∧ c ≠ '>'

/-- What follows a first part and the first part itself, which may end with `<`, complete no end of a comment
or tag together. -/
def KeepsApart (s t : Text) : Prop := KeepsComments t ∨ s.getLast? = some '<'

/-- A text that is kept apart from what follows is so without its first character, if it has another. -/
theorem KeepsApart.of_cons {c : Char} (h : KeepsApart (c :: s) t) (some_left : s ≠ []) :
    KeepsApart s t := by
  refine h.imp_right fun bracket => ?_
  rwa [List.getLast?_cons_of_ne_nil some_left] at bracket

/-- The end of a comment that starts in a text is in the text. -/
theorem startsWith_commentEnd_append (keeps : KeepsApart s t) (some_common : s ≠ []) :
    startsWith "-->".toList (s ++ t) = startsWith "-->".toList s := by
  match s, t with
  | [], _ => exact absurd rfl some_common
  | s, [] => rw [List.append_nil]
  | [c], d :: t =>
    rcases keeps with keeps | bracket
    · simp [startsWith, List.isPrefixOf, Ne.symm (keeps d rfl).1]
    · obtain rfl : c = '<' := by simpa using bracket
      simp [startsWith, List.isPrefixOf]
  | [c, e], d :: t =>
    rcases keeps with keeps | bracket
    · simp [startsWith, List.isPrefixOf, Ne.symm (keeps d rfl).2]
    · obtain rfl : e = '<' := by simpa using bracket
      simp [startsWith, List.isPrefixOf]
  | c :: d :: e :: s, t => simp [startsWith, List.isPrefixOf]

/-- The way to the end of a comment is the same without what follows the text. -/
theorem lengthUntil_commentEnd_of_lt (keeps : KeepsApart s t)
    (inside : lengthUntil (startsWith "-->".toList) (s ++ t) < s.length) :
    lengthUntil (startsWith "-->".toList) s = lengthUntil (startsWith "-->".toList) (s ++ t) := by
  induction s with
  | nil => simp at inside
  | cons c s ih =>
    have same := startsWith_commentEnd_append keeps (List.cons_ne_nil c s)
    rw [List.cons_append] at same inside ⊢
    rw [lengthUntil, same] at inside
    rw [lengthUntil, lengthUntil, same]
    split
    · rfl
    · rename_i not_yet
      rw [if_neg not_yet, List.length_cons] at inside
      have some_left : s ≠ [] := List.ne_nil_of_length_pos (by omega)
      rw [ih (keeps.of_cons some_left) (by omega)]

/-- In a comment. -/
theorem readComment_congr (keeps : KeepsApart s t) (some_common : s ≠ [])
    (settled : (readComment memory (s ++ t)).SettledBy s) (u : Text) :
    readComment memory (s ++ u) = readComment memory (s ++ t) := by
  have bounded := bounded_startsWith "-->".toList
  have without := startsWith_commentEnd_append keeps some_common
  unfold readComment at settled ⊢
  by_cases ends : startsWith "-->".toList s = true
  · have reaches := bounded.size_le s ends
    rw [without, bounded.append s u reaches, if_pos ends, if_pos ends]
  · rw [without, if_neg ends] at settled
    have inside : lengthUntil (startsWith "-->".toList) (s ++ t) < s.length := settled.length_lt rfl
    have upto := lengthUntil_commentEnd_of_lt keeps inside
    obtain ⟨same, reaches⟩ := lengthUntil_append_of_bounded bounded u (upto ▸ inside)
    have some_left (u : Text) :
        ((s ++ u).drop (lengthUntil (startsWith "-->".toList) (s ++ t))).isEmpty = false := by
      rw [List.drop_append_of_le_length (Nat.le_of_lt inside), List.isEmpty_eq_false_iff]
      refine List.append_ne_nil_of_left_ne_nil (List.ne_nil_of_length_pos ?_) _
      rw [List.length_drop]
      exact Nat.sub_pos_of_lt inside
    rw [without, bounded.append s u reaches, if_neg ends, if_neg ends]
    dsimp only
    rw [same, upto, some_left, some_left]

/-! ## End tags -/

/-- After the name of an end tag. -/
theorem readEndTag_congr (some_common : s ≠ [])
    (settled : (readEndTag pseudoClose memory (s ++ t)).SettledBy s) (u : Text) :
    readEndTag pseudoClose memory (s ++ u) = readEndTag pseudoClose memory (s ++ t) := by
  unfold readEndTag at settled ⊢
  dsimp only at settled ⊢
  rw [lengthWhile_congr u (settled.lt_of_tried rfl rfl some_common),
    startsWith_char_congr (t := t) '>' some_common u, startsWith_char_congr (t := t) '<' some_common u]

/-- The name of a tag that ends in the common part. -/
theorem tagNameLength_congr (inside : tagNameLength (s ++ t) < s.length) (u : Text) :
    tagNameLength (s ++ u) = tagNameLength (s ++ t) := by
  cases s with
  | nil => simp at inside
  | cons c s =>
    simp only [List.cons_append, tagNameLength] at inside ⊢
    split
    · rename_i start
      rw [if_pos start, List.length_cons] at inside
      rw [lengthWhile_congr u (Nat.lt_of_succ_lt_succ inside)]
    · rfl

/-- After `</`. -/
theorem readEndTagOpened_congr (some_common : s ≠ [])
    (settled : (readEndTagOpened pseudoClose memory (s ++ t)).SettledBy s) (u : Text) :
    readEndTagOpened pseudoClose memory (s ++ u) = readEndTagOpened pseudoClose memory (s ++ t) := by
  unfold readEndTagOpened at settled ⊢
  dsimp only at settled ⊢
  rw [tagNameLength_congr (settled.lt_of_tried rfl rfl some_common) u]
  split
  · rfl
  · rename_i nameless
    rw [if_neg nameless] at settled
    rw [lengthWhile_congr u (settled.lt_of_tried rfl rfl some_common)]
    split
    · rfl
    · rename_i no_blank
      rw [if_neg no_blank] at settled
      rw [lengthUntil_char_congr u (settled.lt_of_tried rfl rfl some_common)]
      split
      · rfl
      · rename_i no_junk
        rw [if_neg no_junk] at settled
        exact readEndTag_congr some_common settled u

/-! ## Start tags -/

/-- Two characters settle whether `/>` comes next. -/
theorem startsWith_slash_congr (some_common : s ≠ []) (other : s ≠ ['/']) (u : Text) :
    startsWith "/>".toList (s ++ u) = startsWith "/>".toList (s ++ t) := by
  match s with
  | [] => exact absurd rfl some_common
  | [c] =>
    have no_slash : ('/' == c) = false := beq_false_of_ne fun same => other (by rw [same])
    simp [startsWith, List.isPrefixOf, no_slash]
  | c :: d :: rest => simp [startsWith, List.isPrefixOf]

/-- In an attribute list. A slash alone settles nothing. -/
theorem readStartTag_congr (keeps : KeepsApart s t) (some_common : s ≠ [])
    (settled : (readStartTag v pseudoClose memory (s ++ t)).SettledBy s) (u : Text) :
    readStartTag v pseudoClose memory (s ++ u) = readStartTag v pseudoClose memory (s ++ t) := by
  -- A slash alone does not tell whether the tag is closed by itself.
  have other : s ≠ ['/'] := by
    rintro rfl
    have slash : readStartTag v pseudoClose memory (['/'] ++ t) =
        ⟨.unknown, 1, .startTag, memory, some .unexpectedCharacter⟩ := by
      have alone : startsWith "/>".toList (['/'] ++ t) = false := by
        cases t with
        | nil => rfl
        | cons c t =>
          rcases keeps with keeps | bracket
          · simp [startsWith, List.isPrefixOf, Ne.symm (keeps c rfl).2]
          · simp at bracket
      unfold readStartTag
      rw [alone]
      simp [lengthWhile, isAsciiBlank, isAttributeNameChar, startsWith]
    rw [slash] at settled
    exact absurd (settled.length_lt rfl) (Nat.lt_irrefl _)
  unfold readStartTag at settled ⊢
  dsimp only at settled ⊢
  rw [lengthWhile_congr u (settled.lt_of_tried rfl rfl some_common)]
  split
  · rfl
  · rename_i no_blank
    rw [if_neg no_blank] at settled
    have inside := settled.lt_of_tried rfl rfl some_common
    have name : (if memory.blankBefore then lengthWhile isAttributeNameChar (s ++ u) else 0) =
        if memory.blankBefore then lengthWhile isAttributeNameChar (s ++ t) else 0 := by
      split
      · rename_i after_blank
        rw [if_pos after_blank] at inside
        exact lengthWhile_congr u inside
      · rfl
    rw [name, List.take_append_of_le_length (Nat.le_of_lt inside),
      List.take_append_of_le_length (Nat.le_of_lt inside), startsWith_slash_congr some_common other u,
      startsWith_char_congr (t := t) '>' some_common u, startsWith_char_congr (t := t) '<' some_common u]

/-- After `<`. -/
theorem readStartTagOpened_congr (keeps : KeepsApart s t) (some_common : s ≠ [])
    (settled : (readStartTagOpened v pseudoClose memory (s ++ t)).SettledBy s) (u : Text) :
    readStartTagOpened v pseudoClose memory (s ++ u) =
      readStartTagOpened v pseudoClose memory (s ++ t) := by
  unfold readStartTagOpened at settled ⊢
  dsimp only at settled ⊢
  have inside := settled.lt_of_tried rfl rfl some_common
  rw [tagNameLength_congr inside u, List.take_append_of_le_length (Nat.le_of_lt inside),
    List.take_append_of_le_length (Nat.le_of_lt inside)]
  rw [List.take_append_of_le_length (Nat.le_of_lt inside)] at settled
  split
  · rfl
  · rename_i nameless
    rw [if_neg nameless] at settled
    rw [lengthWhile_congr u (settled.lt_of_tried rfl rfl some_common)]
    split
    · rfl
    · rename_i no_blank
      rw [if_neg no_blank] at settled
      rw [lengthUntil_char_congr u (settled.lt_of_tried rfl rfl some_common)]
      split
      · rfl
      · rename_i no_junk
        rw [if_neg no_junk] at settled
        exact readStartTag_congr keeps some_common settled u

/-- After the name of an attribute. -/
theorem readAttributeName_congr (keeps : KeepsApart s t) (some_common : s ≠ [])
    (settled : (readAttributeName v pseudoClose memory (s ++ t)).SettledBy s) (u : Text) :
    readAttributeName v pseudoClose memory (s ++ u) =
      readAttributeName v pseudoClose memory (s ++ t) := by
  unfold readAttributeName at settled ⊢
  dsimp only at settled ⊢
  rw [lengthWhile_congr u (settled.lt_of_tried rfl rfl some_common)]
  split
  · rfl
  · rename_i no_blank
    rw [if_neg no_blank] at settled
    rw [startsWith_char_congr (t := t) '=' some_common u]
    split
    · rfl
    · rename_i no_value
      rw [if_neg no_value] at settled
      exact readStartTag_congr keeps some_common settled u

/-! ## Values -/

/-- A value in quotes. -/
theorem readQuotedValue_congr {quote : Char}
    (settled : (readQuotedValue memory quote (s ++ t)).SettledBy (quote :: s)) (u : Text) :
    readQuotedValue memory quote (s ++ u) = readQuotedValue memory quote (s ++ t) := by
  have closes_nothing : (readQuotedValue memory quote (s ++ t)).kind.closes = false := by
    unfold readQuotedValue
    dsimp only
    split <;> rfl
  have inside : lengthUntil (startsWith [quote]) (s ++ t) < s.length := by
    have := settled.length_lt closes_nothing
    have taken : lengthUntil (startsWith [quote]) (s ++ t) + 1 ≤
        (readQuotedValue memory quote (s ++ t)).length := by
      unfold readQuotedValue
      dsimp only
      split
      · exact Nat.le_refl _
      · exact Nat.le_succ _
    rw [List.length_cons] at this
    omega
  have some_left (u : Text) :
      ((s ++ u).drop (lengthUntil (startsWith [quote]) (s ++ t))).isEmpty = false := by
    rw [List.drop_append_of_le_length (Nat.le_of_lt inside), List.isEmpty_eq_false_iff]
    refine List.append_ne_nil_of_left_ne_nil (List.ne_nil_of_length_pos ?_) _
    rw [List.length_drop]
    exact Nat.sub_pos_of_lt inside
  unfold readQuotedValue
  dsimp only
  rw [lengthUntil_char_congr u inside, some_left, some_left,
    List.take_append_of_le_length (Nat.le_of_lt inside),
    List.take_append_of_le_length (Nat.le_of_lt inside)]

/-- A value without quotes is a run, or all of it but a slash. -/
theorem unquotedValueLength_le (t : Text) :
    unquotedValueLength t ≤ lengthWhile isUnquotedValueChar t := by
  unfold unquotedValueLength
  dsimp only
  split
  · exact Nat.sub_le _ _
  · exact Nat.le_refl _

/-- A run that reaches the end of the common part is a value that does. -/
theorem le_unquotedValueLength (no_bracket : ∀ c ∈ t.head?, c ≠ '>')
    (reaches : s.length ≤ lengthWhile isUnquotedValueChar (s ++ t)) :
    s.length ≤ unquotedValueLength (s ++ t) := by
  unfold unquotedValueLength
  dsimp only
  split
  · rename_i slash
    simp only [Bool.and_eq_true, decide_eq_true_eq] at slash
    -- The bracket behind the slash does not come right behind the common part.
    have further : lengthWhile isUnquotedValueChar (s ++ t) ≠ s.length := by
      intro same
      rw [same, List.drop_left] at slash
      exact no_bracket '>' slash.2 rfl
    omega
  · exact reaches

/-- A value that ends in the common part. -/
theorem unquotedValueLength_congr (inside : lengthWhile isUnquotedValueChar (s ++ t) < s.length)
    (u : Text) : unquotedValueLength (s ++ u) = unquotedValueLength (s ++ t) := by
  have head (u : Text) : ((s ++ u).drop (lengthWhile isUnquotedValueChar (s ++ t))).head? =
      s[lengthWhile isUnquotedValueChar (s ++ t)]? := by
    rw [List.head?_drop, List.getElem?_append_left inside]
  unfold unquotedValueLength
  dsimp only
  rw [lengthWhile_congr u inside, List.take_append_of_le_length (Nat.le_of_lt inside),
    List.take_append_of_le_length (Nat.le_of_lt inside), head, head]

/-- After `=`. -/
theorem readAttributeValue_congr (keeps : KeepsApart s t) (some_common : s ≠ [])
    (settled : (readAttributeValue v pseudoClose memory (s ++ t)).SettledBy s) (u : Text) :
    readAttributeValue v pseudoClose memory (s ++ u) =
      readAttributeValue v pseudoClose memory (s ++ t) := by
  unfold readAttributeValue at settled ⊢
  dsimp only at settled ⊢
  rw [lengthWhile_congr u (settled.lt_of_tried rfl rfl some_common)]
  split
  · rfl
  · rename_i no_blank
    rw [if_neg no_blank] at settled
    -- A run that reached the end of the common part would not be settled by it.
    have run : lengthWhile isUnquotedValueChar (s ++ t) < s.length := by
      rcases keeps with keeps | bracket
      · by_contra reaches
        have some_char := List.length_pos_iff.mpr some_common
        have value := le_unquotedValueLength (fun c mem => (keeps c mem).2) (Nat.not_lt.mp reaches)
        rw [if_pos (by omega), if_pos (by omega)] at settled
        exact absurd (settled.length_lt rfl) (Nat.not_lt.mpr value)
      · exact lengthWhile_lt_of_mem (List.mem_of_getLast? bracket) rfl t
    have value := Nat.le_of_lt (Nat.lt_of_le_of_lt (unquotedValueLength_le (s ++ t)) run)
    rw [lengthWhile_congr u run, unquotedValueLength_congr run u, List.take_append_of_le_length value,
      List.take_append_of_le_length value]
    rw [List.take_append_of_le_length value] at settled
    split
    · rename_i some_run
      rw [if_pos some_run] at settled
      split
      · rfl
      · rename_i no_value
        rw [if_neg no_value] at settled
        exact readStartTag_congr keeps some_common settled u
    · rename_i no_run
      rw [if_neg no_run] at settled
      obtain ⟨c, s, rfl⟩ := List.exists_cons_of_ne_nil some_common
      by_cases double : c = '\x22'
      · subst double
        exact readQuotedValue_congr settled u
      · by_cases single : c = '\''
        · subst single
          exact readQuotedValue_congr settled u
        · simp only [List.cons_append, List.cons.injEq, double, single, false_and, imp_false,
            not_false_eq_true, implies_true] at settled ⊢
          exact readStartTag_congr keeps (List.cons_ne_nil c s) settled u

/-! ## Any mode -/

/-- In an embedded body, where nothing follows the text so far. -/
theorem readEmbeddedContent_append (some_ahead : s ≠ [])
    (settled : (readEmbeddedContent memory s).SettledBy s)
    (declaration : (readEmbeddedContent memory s).kind = .startDoctype → '>' ∈ s) (u : Text) :
    readEmbeddedContent memory (s ++ u) = readEmbeddedContent memory s := by
  unfold readEmbeddedContent at settled declaration ⊢
  dsimp only at settled declaration ⊢
  rw [embeddedBodyLength_append (settled.lt_of_tried rfl rfl some_ahead) u]
  split
  · rfl
  · rename_i no_body
    rw [if_neg no_body] at settled declaration
    have same := @readContent_congr memory s [] some_ahead
    rw [List.append_nil] at same
    exact same settled declaration u

/-- **Two texts with a common first part that settles the reading** have the same token next. What
follows that part in the one text may follow in any way in the other. -/
theorem readToken_congr {m : Mode} (keeps : KeepsApart s t) (body : m = .embeddedContent → t = [])
    (some_common : s ≠ []) (settled : (readToken v pseudoClose m memory (s ++ t)).SettledBy s)
    (declaration : (readToken v pseudoClose m memory (s ++ t)).kind = .startDoctype → '>' ∈ s)
    (u : Text) :
    readToken v pseudoClose m memory (s ++ u) = readToken v pseudoClose m memory (s ++ t) := by
  cases m with
  | content => exact readContent_congr some_common settled declaration u
  | startTagOpened => exact readStartTagOpened_congr keeps some_common settled u
  | endTagOpened => exact readEndTagOpened_congr some_common settled u
  | doctype => exact readDoctype_congr some_common settled u
  | startTag => exact readStartTag_congr keeps some_common settled u
  | endTag => exact readEndTag_congr some_common settled u
  | comment => exact readComment_congr keeps some_common settled u
  | embeddedContent =>
    obtain rfl := body rfl
    rw [List.append_nil] at settled declaration ⊢
    exact readEmbeddedContent_append some_common settled declaration u
  | attributeName => exact readAttributeName_congr keeps some_common settled u
  | attributeValue => exact readAttributeValue_congr keeps some_common settled u

/-- **A text that goes on**: what it settles is read in the same way. -/
theorem readToken_append {m : Mode} (some_ahead : s ≠ [])
    (settled : (readToken v pseudoClose m memory s).SettledBy s)
    (declaration : (readToken v pseudoClose m memory s).kind = .startDoctype → '>' ∈ s) (u : Text) :
    readToken v pseudoClose m memory (s ++ u) = readToken v pseudoClose m memory s := by
  have same := @readToken_congr v pseudoClose memory s [] m (.inl (by simp [KeepsComments])) (fun _ => rfl)
  rw [List.append_nil] at same
  exact same some_ahead settled declaration u

end modes

/-! ## Readings stay in the text -/

section lengths

variable (v : Vocabulary) (pseudoClose : Bool) (memory : TagMemory)

theorem readContent_length_le (t : Text) : (readContent memory t).length ≤ t.length := by
  unfold readContent
  split
  · simp
  · rename_i name _
    dsimp only
    split
    · rename_i word
      have := (bounded_startsWithIgnoringCase "doctype".toList).size_le name word
      simp only [List.length_cons]
      omega
    · simp
  · simp
  · simp
  · exact lengthUntil_le _ t

theorem readComment_length_le (t : Text) : (readComment memory t).length ≤ t.length := by
  unfold readComment
  dsimp only
  split
  · rename_i ends
    exact (bounded_startsWith "-->".toList).size_le t ends
  · exact lengthUntil_le _ t

theorem readDoctype_length_le (t : Text) : (readDoctype memory t).length ≤ t.length := by
  unfold readDoctype
  split
  · rename_i ends
    exact (bounded_startsWith ['>']).size_le t ends
  · exact lengthUntil_le _ t

theorem readEmbeddedContent_length_le (t : Text) :
    (readEmbeddedContent memory t).length ≤ t.length := by
  unfold readEmbeddedContent
  dsimp only
  split
  · exact embeddedBodyLength_le _ t
  · exact readContent_length_le memory t

variable {t : Text}

theorem readEndTag_length_le (some_ahead : 0 < t.length) :
    (readEndTag pseudoClose memory t).length ≤ t.length := by
  unfold readEndTag
  dsimp only
  split_ifs
  · exact lengthWhile_le _ t
  · exact some_ahead
  · exact Nat.zero_le _
  · exact some_ahead

theorem tagNameLength_le (t : Text) : tagNameLength t ≤ t.length := by
  unfold tagNameLength
  split
  · exact Nat.le_refl _
  · split
    · exact Nat.succ_le_succ (lengthWhile_le _ _)
    · exact Nat.zero_le _

theorem readEndTagOpened_length_le (some_ahead : 0 < t.length) :
    (readEndTagOpened pseudoClose memory t).length ≤ t.length := by
  unfold readEndTagOpened
  dsimp only
  split_ifs
  · exact tagNameLength_le t
  · exact lengthWhile_le _ t
  · exact lengthUntil_le _ t
  · exact readEndTag_length_le pseudoClose memory some_ahead

theorem readStartTag_length_le (some_ahead : 0 < t.length) :
    (readStartTag v pseudoClose memory t).length ≤ t.length := by
  have name : (if memory.blankBefore then lengthWhile isAttributeNameChar t else 0) ≤ t.length := by
    split
    · exact lengthWhile_le _ t
    · exact Nat.zero_le _
  unfold readStartTag
  dsimp only
  generalize (if memory.blankBefore then lengthWhile isAttributeNameChar t else 0) = size at name
  split_ifs with _ _ slash
  · exact lengthWhile_le _ t
  · exact name
  · exact (bounded_startsWith "/>".toList).size_le t slash
  · rw [closeStartTag_length]
    exact some_ahead
  · exact Nat.zero_le _
  · exact some_ahead

theorem readStartTagOpened_length_le (some_ahead : 0 < t.length) :
    (readStartTagOpened v pseudoClose memory t).length ≤ t.length := by
  unfold readStartTagOpened
  dsimp only
  split_ifs
  · exact tagNameLength_le t
  · exact lengthWhile_le _ t
  · exact lengthUntil_le _ t
  · exact readStartTag_length_le v pseudoClose _ some_ahead

theorem readAttributeName_length_le (some_ahead : 0 < t.length) :
    (readAttributeName v pseudoClose memory t).length ≤ t.length := by
  unfold readAttributeName
  dsimp only
  split_ifs
  · exact lengthWhile_le _ t
  · exact some_ahead
  · exact readStartTag_length_le v pseudoClose memory some_ahead

theorem readQuotedValue_length_le (quote : Char) (t : Text) :
    (readQuotedValue memory quote t).length ≤ t.length + 1 := by
  have upto := lengthUntil_le (startsWith [quote]) t
  unfold readQuotedValue
  dsimp only
  split
  · exact Nat.succ_le_succ upto
  · rename_i quoted
    -- The quote at the end is there.
    have left : 0 < (t.drop (lengthUntil (startsWith [quote]) t)).length :=
      List.length_pos_iff.mpr (by simpa using quoted)
    rw [List.length_drop] at left
    show lengthUntil (startsWith [quote]) t + 2 ≤ t.length + 1
    omega

theorem readAttributeValue_length_le (some_ahead : 0 < t.length) :
    (readAttributeValue v pseudoClose memory t).length ≤ t.length := by
  unfold readAttributeValue
  dsimp only
  split_ifs
  · exact lengthWhile_le _ t
  · exact Nat.le_trans (unquotedValueLength_le t) (lengthWhile_le _ t)
  · exact readStartTag_length_le v pseudoClose _ some_ahead
  · split
    · exact readQuotedValue_length_le memory _ _
    · exact readQuotedValue_length_le memory _ _
    · exact readStartTag_length_le v pseudoClose _ some_ahead

/-- **A token takes no more characters than there are.** -/
theorem readToken_length_le (m : Mode) (some_ahead : t ≠ []) :
    (readToken v pseudoClose m memory t).length ≤ t.length := by
  have some_char := List.length_pos_iff.mpr some_ahead
  cases m with
  | content => exact readContent_length_le memory t
  | startTagOpened => exact readStartTagOpened_length_le v pseudoClose memory some_char
  | endTagOpened => exact readEndTagOpened_length_le pseudoClose memory some_char
  | doctype => exact readDoctype_length_le memory t
  | startTag => exact readStartTag_length_le v pseudoClose memory some_char
  | endTag => exact readEndTag_length_le pseudoClose memory some_char
  | comment => exact readComment_length_le memory t
  | embeddedContent => exact readEmbeddedContent_length_le memory t
  | attributeName => exact readAttributeName_length_le v pseudoClose memory some_char
  | attributeValue => exact readAttributeValue_length_le v pseudoClose memory some_char

end lengths

end MarkupAnalysis
