import MarkupAnalysis.Proofs.Completion.Classification
import MarkupAnalysis.Proofs.Document.Editing
import MarkupAnalysis.Proofs.Token.BlankRuns

/-! # The edit that a proposed end tag makes

The end tag of the open element is proposed in place of the name that is being typed, or, where it is to be
aligned with its start tag, in place of all that stands on the line before the cursor.

* **`CompletionRequest.exists_line_of_blankLineStart`** — the blanks before a tag that is first on its line.
* **`CompletionRequest.endsTagName_of_isFollowedBy`** — where no bracket is added, one follows.
* **`CompletionRequest.closeCandidate_cases`** — the proposal, aligned or not.
* **`EndTagEdit`** — an end tag in place of a tag, after an edit.
* **`CompletionRequest.exists_edit`** — the proposal makes such an edit. -/

namespace MarkupAnalysis

open Text

/-- Two ways to take a text apart at a bracket and behind it. -/
theorem Text.exists_between {t before rest front tail : Text} {c : Char} (split : t = before ++ c :: rest)
    (whole : t = front ++ tail) (behind : byteLength before < byteLength front) :
    ∃ inside, front = before ++ c :: inside ∧ rest = inside ++ tail := by
  rw [split] at whole
  rcases List.append_eq_append_iff.mp whole with ⟨more, rfl, tail_eq⟩ | ⟨more, rfl, -⟩
  · cases more with
    | nil =>
      rw [List.append_nil] at behind
      exact absurd behind (Nat.lt_irrefl _)
    | cons d inside =>
      obtain ⟨rfl, rfl⟩ := List.cons_eq_cons.mp tail_eq
      exact ⟨inside, rfl, rfl⟩
  · rw [byteLength_append] at behind
    omega

/-- **An end tag in place of a tag.** The text behind the `<` at an offset is another one, and so are the
blanks before it, but they start alike. -/
inductive EndTagEdit (t : Text) (position : Nat) (tag : Text) : (edited : Text) → Prop
  /-- A text and the edited one. -/
  | mk {before blanks blanks' rest after : Text} (split : t = (before ++ blanks) ++ '<' :: rest)
      (place : byteLength (before ++ blanks) = position) (alike : StartAlike blanks blanks')
      (stops : EndsTagName after) :
      EndTagEdit t position tag (before ++ (blanks' ++ '<' :: '/' :: (tag ++ after)))

namespace CompletionRequest

variable {r : CompletionRequest} {t : Text} {offset position start : Nat} {name : Span} {close tag : Text}
  {c : Candidate}

/-- **The blanks before a tag that is first on its line** follow a line break or the start of the text. -/
theorem exists_line_of_blankLineStart {line : Text} (found : blankLineStart t offset = .ok (some line)) :
    ∃ front, t.takeBytes? offset = some (front ++ line) ∧ (∀ c ∈ line, isAsciiBlank c = true) ∧
      ∀ c ∈ front.getLast?, isAsciiBlank c = true := by
  unfold blankLineStart at found
  cases taken : t.takeBytes? offset with
  | none => simp [taken] at found
  | some before =>
    simp only [taken, Except.ok.injEq, Option.ite_none_right_eq_some, Option.some_inj] at found
    obtain ⟨blank, rfl⟩ := found
    refine ⟨(before.reverse.dropWhile fun c => c ≠ '\n' && c ≠ '\r').reverse, ?_, List.all_eq_true.mp blank, ?_⟩
    · rw [← List.reverse_append, List.takeWhile_append_dropWhile, List.reverse_reverse]
    · intro c last
      rw [List.getLast?_reverse] at last
      have breaks := List.head?_dropWhile_not (fun c => c ≠ '\n' && c ≠ '\r') before.reverse
      rw [last] at breaks
      have breaks : c = '\n' ∨ c = '\r' := by
        by_contra other
        simp_all [not_or]
      rcases breaks with rfl | rfl <;> rfl

/-- A character of a name is no end of a tag. -/
theorem readEndTag_nameChar {d : Char} (goes_on : isTagNameChar d = true) (memory : TagMemory) (rest : Text) :
    (readEndTag false memory (d :: rest)).kind = .unknown := by
  have no_blank : isAsciiBlank d = false := by
    refine Bool.eq_false_iff.mpr fun blank => ?_
    have start := isTagNameStart_of_isAsciiBlank blank
    simp only [isTagNameChar, start, Bool.false_or, Bool.or_eq_true, decide_eq_true_eq] at goes_on
    rcases goes_on with rfl | rfl <;> exact absurd blank (by decide)
  have no_bracket : d ≠ '>' := by
    rintro rfl
    exact absurd goes_on (by decide)
  have no_blanks : lengthWhile isAsciiBlank (d :: rest) = 0 := by
    rw [lengthWhile, List.takeWhile_cons_of_neg (by simp [no_blank])]
    rfl
  have not_closed : startsWith ['>'] (d :: rest) = false := by
    simp [startsWith, List.isPrefixOf, no_bracket.symm]
  rw [readEndTag]
  simp [no_blanks, not_closed]

/-- **Where a bracket follows** the name does not go on. -/
theorem endsTagName_of_isFollowedBy {front tail : Text} (split : r.text = front ++ tail)
    (followed : r.isFollowedBy (byteLength front) .endTag .endTagClose = true) : EndsTagName tail := by
  cases tail with
  | nil =>
    intro c mem
    cases mem
  | cons d rest =>
    refine endsTagName_cons (Bool.eq_false_iff.mpr fun goes_on => ?_) rest
    -- The name goes on with a character that gives the end tag up.
    let s := (Tokenizer.start r.vocabulary r.text (byteLength front)).withMode .endTag
    have start : s = { vocabulary := r.vocabulary, position := byteLength front, ahead := d :: rest,
                       mode := .endTag } := by
      simp only [s, Tokenizer.start, split, dropBytes?_append]
      rfl
    have some_ahead : s.ahead ≠ [] := by
      rw [start]
      exact List.cons_ne_nil d rest
    have kind : s.token.kind = .unknown := by
      have reading := Tokenizer.reading_eq some_ahead
      refine (congrArg Reading.kind reading).trans ?_
      rw [start]
      exact readEndTag_nameChar goes_on _ rest
    have first : s.tokens.find? (·.kind ≠ .whitespace) = some s.token := by
      rw [Tokenizer.tokens_of_ahead_ne_nil some_ahead]
      exact List.find?_cons_of_pos (by simp [kind])
    rw [isFollowedBy, first, Option.any_some, kind] at followed
    cases followed

/-- **The proposal to end an element**, aligned with its start tag or not. -/
theorem closeCandidate_cases (proposed : r.closeCandidate name close tag start = .ok c) :
    c.suggestion.label = '/' :: tag ∧
      (c.suggestion.insertText = '/' :: tag ++ close ∧ c.suggestion.replace = r.replacing name ∨
        ∃ startIndent endIndent, blankLineStart r.text start = .ok (some startIndent) ∧
          blankLineStart r.text (name.start - 1) = .ok (some endIndent) ∧
          c.suggestion.insertText = startIndent ++ '<' :: '/' :: tag ++ close ∧
          c.suggestion.replace = r.replacing ⟨name.start - 1 - endIndent.byteLength, r.offset⟩) := by
  unfold closeCandidate at proposed
  simp only [Except.bind_eq_ok_iff] at proposed
  obtain ⟨startIndent, first, endIndent, second, same⟩ := proposed
  obtain rfl := Except.ok.inj same
  dsimp only
  cases startIndent with
  | none => exact ⟨rfl, .inl ⟨rfl, rfl⟩⟩
  | some startIndent =>
    cases endIndent with
    | none => exact ⟨rfl, .inl ⟨rfl, rfl⟩⟩
    | some endIndent =>
      dsimp only
      split
      · exact ⟨rfl, .inl ⟨rfl, rfl⟩⟩
      · exact ⟨rfl, .inr ⟨startIndent, endIndent, first, second, rfl, rfl⟩⟩

section

variable {before rest : Text} (split : t = before ++ '<' :: rest) (place : byteLength before = position)
  (starts : name.start = position + 1) (behind : position < offset) (ends : offset ≤ name.stop)
  (boundary : t.isBoundary name.stop = true) (stops : ∀ tail front : Text, t = front ++ tail →
    byteLength front = name.stop → EndsTagName (close ++ tail))

include split place starts boundary stops behind ends in
/-- In place of the name. -/
theorem exists_plain_edit : ∃ edited,
    TextEdit.applyTo? ⟨⟨min name.start offset, max name.stop offset⟩, '/' :: tag ++ close⟩ t = some edited ∧
      EndTagEdit t position tag edited := by
  obtain ⟨front, tail, whole, stop⟩ := isBoundary_iff.mp boundary
  obtain ⟨inside, rfl, rfl⟩ := exists_between split whole (by omega)
  refine ⟨before ++ ([] ++ '<' :: '/' :: (tag ++ (close ++ tail))), ?_,
    .mk (by rw [List.append_nil]; exact split) (by rw [List.append_nil]; exact place) .nil
      (stops tail _ whole stop)⟩
  have parts : t = (before ++ ['<']) ++ (inside ++ tail) := by simp [split]
  have span : (⟨min name.start offset, max name.stop offset⟩ : Span) =
      ⟨byteLength (before ++ ['<']), byteLength (before ++ ['<']) + byteLength inside⟩ := by
    have bracket : byteLength ['<'] = 1 := rfl
    have cons : byteLength ('<' :: inside) = 1 + byteLength inside := byteLength_append ['<'] inside
    rw [byteLength_append, cons] at stop
    rw [byteLength_append, bracket, Span.mk.injEq]
    omega
  rw [parts, TextEdit.applyTo?_append span]
  simp

include split place behind in
/-- In place of the line before the cursor. -/
theorem exists_aligned_edit {startIndent endIndent : Text} (inside_text : '<' ∈ before)
    (cursor : t.isBoundary offset = true) (blank : ∀ c ∈ startIndent, isAsciiBlank c = true)
    (line : blankLineStart t position = .ok (some endIndent))
    (stops : ∀ tail front : Text, t = front ++ tail → byteLength front = offset → EndsTagName (close ++ tail)) :
    ∃ edited, TextEdit.applyTo? ⟨⟨min (position - byteLength endIndent) offset, max offset offset⟩,
        startIndent ++ '<' :: '/' :: tag ++ close⟩ t = some edited ∧ EndTagEdit t position tag edited := by
  obtain ⟨front, taken, end_blank, breaks⟩ := exists_line_of_blankLineStart line
  obtain ⟨ahead, taken_split, position_eq⟩ := takeBytes?_eq_some_iff.mp taken
  obtain ⟨rfl, rfl⟩ :=
    append_left_inj_of_byteLength (split.symm.trans taken_split) (place.trans position_eq.symm)
  -- The line does not start the text, where there is an element before it.
  obtain ⟨front, c, rfl⟩ := (List.eq_nil_or_concat' front).resolve_left (by
    rintro rfl
    exact absurd (end_blank '<' inside_text) (by decide))
  have own_blank : isAsciiBlank c = true := breaks c (by simp)
  obtain ⟨upto, tail, whole, stop⟩ := isBoundary_iff.mp cursor
  obtain ⟨inside, rfl, rfl⟩ := exists_between split whole (by omega)
  refine ⟨front ++ ((c :: startIndent) ++ '<' :: '/' :: (tag ++ (close ++ tail))), ?_,
    @EndTagEdit.mk t position tag front (c :: endIndent) _ (inside ++ tail) _ (by simp [split])
      (by simpa using place) ⟨?_, ?_, rfl⟩ (stops tail _ whole stop)⟩
  · have parts : t = (front ++ [c]) ++ ((endIndent ++ '<' :: inside) ++ tail) := by simp [split]
    have span : (⟨min (position - byteLength endIndent) offset, max offset offset⟩ : Span) =
        ⟨byteLength (front ++ [c]), byteLength (front ++ [c]) + byteLength (endIndent ++ '<' :: inside)⟩ := by
      rw [byteLength_append] at place stop
      rw [byteLength_append endIndent, Span.mk.injEq]
      rw [byteLength_append (front ++ [c]) endIndent] at stop
      omega
    rw [parts, TextEdit.applyTo?_append span]
    simp
  · exact List.forall_mem_cons.mpr ⟨own_blank, end_blank⟩
  · exact List.forall_mem_cons.mpr ⟨own_blank, blank⟩

end

/-- A bracket is no part of a name. -/
theorem getLast?_ne_bracket (tag_name : IsTagName tag) (indent : Text) :
    (indent ++ '<' :: '/' :: tag).getLast? ≠ some '>' := by
  obtain ⟨run, last, rfl⟩ := (List.eq_nil_or_concat' tag).resolve_left
    (List.length_pos_iff.mp tag_name.length_pos)
  intro bracket
  have whole : indent ++ '<' :: '/' :: (run ++ [last]) = (indent ++ '<' :: '/' :: run) ++ [last] := by simp
  rw [whole, List.getLast?_concat] at bracket
  have name_char := tag_name.chars last (by simp)
  rw [Option.some.inj bracket] at name_char
  exact absurd name_char (by decide)

/-- **The proposal to end an element makes an end tag of the tag**, if what it replaces reaches the end of the
name or what it inserts ends with a bracket. -/
theorem exists_edit {before rest : Text} (proposed : r.closeCandidate name close tag start = .ok c)
    (split : r.text = before ++ '<' :: rest) (place : byteLength before = position)
    (inside_text : '<' ∈ before) (starts : name.start = position + 1) (behind : position < r.offset)
    (ends : r.offset ≤ name.stop) (cursor : r.text.isBoundary r.offset = true)
    (boundary : r.text.isBoundary name.stop = true) (tag_name : IsTagName tag)
    (bracket : close = if r.isFollowedBy name.stop .endTag .endTagClose then [] else ['>'])
    (reaches : name.stop ≤ c.suggestion.replace.stop ∨ c.suggestion.insertText.getLast? = some '>') :
    ∃ edited, TextEdit.applyTo? ⟨c.suggestion.replace, c.suggestion.insertText⟩ r.text = some edited ∧
      EndTagEdit r.text position tag edited := by
  have ends_name (tail : Text) : EndsTagName (['>'] ++ tail) := endsTagName_cons (by decide) tail
  have stops (tail front : Text) (whole : r.text = front ++ tail) (stop : byteLength front = name.stop) :
      EndsTagName (close ++ tail) := by
    rw [bracket]
    split_ifs with followed
    · exact endsTagName_of_isFollowedBy whole (stop ▸ followed)
    · exact ends_name tail
  obtain ⟨-, ⟨inserted, replaced⟩ | ⟨startIndent, endIndent, first, line, inserted, replaced⟩⟩ :=
    closeCandidate_cases proposed
  · rw [inserted, replaced]
    exact exists_plain_edit split place starts behind ends boundary stops
  · have here : name.start - 1 = position := by
      rw [starts]
      rfl
    rw [here] at line replaced
    obtain ⟨-, -, blank, -⟩ := exists_line_of_blankLineStart first
    rw [inserted, replaced] at reaches ⊢
    refine exists_aligned_edit split place behind inside_text cursor blank line fun tail front whole stop => ?_
    rcases reaches with reaches | last
    · -- The name ends at the cursor.
      rw [replacing, Nat.max_self] at reaches
      exact stops tail front whole (stop.trans (Nat.le_antisymm ends reaches))
    · rw [bracket] at last ⊢
      split_ifs at last ⊢ with followed
      · rw [List.append_nil] at last
        exact absurd last (getLast?_ne_bracket tag_name startIndent)
      · exact ends_name tail

end CompletionRequest

end MarkupAnalysis
