import MarkupAnalysis.Proofs.Completion.Replacement
import MarkupAnalysis.Proofs.Completion.StartTagPlaces

/-! # Values in quotes

With the cursor in a quoted value the word at the cursor is replaced by a value without quotes. Up to the
closing quote the word is inside the quotes; behind the closing quote the quote itself is replaced.

* **`AttributeValue.quoteOf?_eq`**, **`AttributeValue.unquotedStop_eq`** — what completion takes for the quote
  and for the end of the content.
* **`CompletionRequest.covers_valueReplacement_iff`** — what is replaced is inside the quotes.
* **`Document.complete_values`** — completion in a quoted value.
* **`Document.complete_behind_quote`** — behind the closing quote. -/

namespace MarkupAnalysis

open Text CompletionRequest

/-! ## The quotes -/

namespace AttributeValue

variable {t : Text} {value : AttributeValue}

/-- A quoted value is a quote and what follows it. -/
theorem exists_quote (quoted : value.text.isQuoted = true) :
    ∃ quote content, value.text = quote :: content ∧ isQuote quote = true := by
  cases text : value.text with
  | nil =>
    rw [text] at quoted
    cases quoted
  | cons quote content =>
    rw [text] at quoted
    exact ⟨quote, content, rfl, quoted⟩

variable {quote : Char} {content : Text} (slice : t.slice? value.span = some value.text)
  (text : value.text = quote :: content) (quotes : isQuote quote = true)

include slice text quotes in
/-- **The quote of a value** is the first character at its span. -/
theorem quoteOf?_eq : quoteOf? t value.span = some quote := by
  obtain ⟨before, behind, split, start, -⟩ := slice?_eq_some_iff.mp slice
  have ahead : t.dropBytes? value.span.start = some (quote :: (content ++ behind)) := by
    refine dropBytes?_eq_some_iff.mpr ⟨before, ?_, start⟩
    rw [split, text]
    simp
  rw [quoteOf?, ahead, Option.bind_some, List.head?_cons, Option.filter_some, if_pos quotes]

include slice text quotes in
/-- **The end of the content** is that of the value without its closing quote. -/
theorem unquotedStop_eq : unquotedStop t value.span quote = value.contentSpan.stop ∧
    value.contentSpan.start = value.span.start + 1 := by
  have one_byte := byteLength_quote quotes
  have own : value.text.isQuoted = true := by
    rw [text]
    exact quotes
  have whole : t.slice? value.span = some ([quote] ++ content) := by rw [slice, text]; rfl
  have behind : t.slice? ⟨value.span.start + byteLength [quote], value.span.stop⟩ = some content :=
    (slice?_split whole).2
  rw [one_byte] at behind
  obtain ⟨-, -, -, -, stop⟩ := slice?_eq_some_iff.mp behind
  have stripped : value.text.stripQuotes = withoutLast quote content := by
    rw [text]
    exact if_pos quotes
  rw [contentSpan, if_pos own, stripped, unquotedStop, behind, Option.getD_some, withoutLast]
  refine ⟨?_, rfl⟩
  dsimp only
  split_ifs with closed
  · -- The closing quote is left out of both.
    obtain ⟨inside, last⟩ := List.getLast?_eq_some_iff.mp closed
    rw [last, byteLength_append, one_byte] at stop
    rw [last, List.dropLast_concat]
    show value.span.stop - 1 = value.span.start + 1 + byteLength inside
    omega
  · exact stop.symm

end AttributeValue

/-! ## The word in the quotes -/

namespace CompletionRequest

variable {r : CompletionRequest} {value : AttributeValue}

/-- **What is replaced is inside the quotes** exactly if the cursor is not behind the closing one. -/
theorem covers_valueReplacement_iff (slice : r.text.slice? value.span = some value.text)
    (quoted : value.text.isQuoted = true) (cursor : r.text.isBoundary r.offset = true)
    (starts : value.span.start < r.offset) (ends : r.offset ≤ value.span.stop) :
    (r.valueReplacement value.span).2 = false ∧
      (value.contentSpan.covers (r.valueReplacement value.span).1 = true ↔
        r.offset ≤ value.contentSpan.stop) := by
  obtain ⟨quote, content, text, quotes⟩ := AttributeValue.exists_quote quoted
  obtain ⟨stop, start⟩ := AttributeValue.unquotedStop_eq slice text quotes
  have inside : (value.span.start < r.offset && r.offset ≤ value.span.stop) = true := by
    simp [starts, ends]
  unfold valueReplacement
  rw [AttributeValue.quoteOf?_eq slice text quotes]
  dsimp only
  rw [if_pos inside, stop]
  refine ⟨rfl, ?_⟩
  obtain ⟨-, before, behind_quote⟩ := bounds_wordStart cursor (value.span.start + 1)
  obtain ⟨-, behind, before_quote⟩ := bounds_wordStop cursor value.contentSpan.stop
  have behind_quote := behind_quote starts
  rw [Span.covers_iff, start]
  dsimp only [replacing]
  rw [Nat.min_eq_left before, Nat.max_eq_left behind]
  constructor
  · exact fun covered => behind.trans covered.2
  · exact fun here => ⟨behind_quote, before_quote here⟩

end CompletionRequest

/-! ## Completion in a value -/

namespace Document

variable {v : Vocabulary} {t : Text} {id : NodeId} {offset : Nat} {a : Attribute} {value : AttributeValue}

/-- **In a value the place is the value**, and the node before the cursor is its element. -/
theorem place_of_value (mem : a ∈ ((parse v t).node id).attributes) (given : a.value = some value)
    (starts : value.span.start < offset) (ends : offset ≤ value.span.stop) :
    (parse v t).nodeBefore offset = some id ∧
      (Cursor.locate v t ((parse v t).node id).start offset).place = .attributeValue value.span := by
  obtain ⟨passed, s, reads, kind, rfl⟩ := exists_token_of_value mem given
  have found := reads.nodeBefore starts ends
  refine ⟨found, ?_⟩
  obtain ⟨-, first, -, s', -, passes, same⟩ :=
    exists_passes_within reads.token_mem starts ends (of_nodeBefore found) (reads.uninterrupted ends)
  rw [← same] at starts ends kind ⊢
  obtain ⟨tag, attributeName, located⟩ := locate_of_passes passes starts
  rw [located]
  -- The token at the cursor is the value, whatever is read before and behind it.
  apply Cursor.place_find tag attributeName starts ends
  intro rest
  unfold Cursor.place?
  rw [kind]
  exact if_pos (Span.touches_iff.mpr ⟨Nat.le_of_lt starts, ends⟩)

/-- **Completion in a quoted value** proposes values without quotes of their own. What they replace is inside
the quotes exactly if the cursor is not behind the closing quote. -/
theorem complete_values (options : CompletionOptions) (mem : a ∈ ((parse v t).node id).attributes)
    (given : a.value = some value) (quoted : a.isQuoted = true) (starts : value.span.start < offset)
    (ends : offset ≤ value.span.stop) :
    (parse v t).nodeBefore offset = some id ∧
      ∃ suggestions, (parse v t).complete t v options offset = .ok suggestions ∧ ∀ s ∈ suggestions,
        s.kind = .value ∧ s.insertText = s.label ∧
          (value.contentSpan.covers s.replace = true ↔ offset ≤ value.contentSpan.stop) := by
  obtain ⟨found, place⟩ := place_of_value mem given starts ends
  refine ⟨found, ?_⟩
  obtain ⟨suggestions, answer⟩ := exists_complete v v t options offset
  refine ⟨suggestions, answer, ?_⟩
  intro suggestion suggested
  obtain ⟨cursor, id', candidates, found', proposed, rfl⟩ := exists_candidates answer suggested
  obtain rfl : id = id' := Option.some.inj (found.symm.trans found')
  obtain ⟨c, c_mem, same⟩ := exists_candidate_of_mem_rank suggested
  -- Only values are proposed at this place.
  rw [CompletionRequest.candidates, place] at proposed
  obtain rfl := Except.ok.inj proposed
  obtain ⟨kind, replaced, as_it_is⟩ := of_mem_valueCandidates c_mem
  have known : id < (parse v t).nodes.size := by
    obtain ⟨passed, s, reads, -⟩ := exists_token_of_value mem given
    exact reads.isElement.2
  have slice := (((attributesStandIn_parse known).each a mem).value value given).1
  have own : value.text.isQuoted = true := by simpa [Attribute.isQuoted, given] using quoted
  obtain ⟨no_quotes, covers⟩ := covers_valueReplacement_iff
    (r := ⟨t, parse v t, offset, v, options, id⟩) slice own cursor starts ends
  rw [same]
  refine ⟨kind, as_it_is no_quotes, ?_⟩
  dsimp only
  rw [replaced]
  exact covers

/-- A vocabulary that knows one value. -/
def oneValue : Vocabulary :=
  { Vocabulary.empty with
    valuesFor := fun tag name => if tag = "p".toList ∧ name = "dir".toList then ["rtl".toList] else [] }

/-- A start tag with a value in quotes. -/
def quotedValue : Text := "<p dir=\"r\">".toList

/-- Before the closing quote the value is replaced between its quotes. -/
theorem complete_values_quotedValue :
    ∃ suggestions, (parse oneValue quotedValue).complete quotedValue oneValue {} 9 = .ok suggestions ∧
      ∀ s ∈ suggestions, s.insertText = s.label ∧ (Span.mk 8 9).covers s.replace = true := by
  have attributes : ((parse oneValue quotedValue).node 1).attributes =
      #[⟨"dir".toList, ⟨3, 6⟩, some ⟨"\"r\"".toList, ⟨7, 10⟩⟩⟩] := by
    decide +kernel
  obtain ⟨-, suggestions, answer, all⟩ := @complete_values oneValue quotedValue 1 9
    ⟨"dir".toList, ⟨3, 6⟩, some ⟨"\"r\"".toList, ⟨7, 10⟩⟩⟩ ⟨"\"r\"".toList, ⟨7, 10⟩⟩ {}
    (by simp [attributes]) rfl rfl (by decide) (by decide)
  refine ⟨suggestions, answer, ?_⟩
  intro s mem
  obtain ⟨-, as_it_is, covers⟩ := all s mem
  exact ⟨as_it_is, covers.mpr (by decide)⟩

/-- **Behind the closing quote** the value is replaced together with that quote, which is lost. -/
theorem complete_behind_quote :
    ((parse oneValue quotedValue).node 1).attributes.toList.map (·.value.map (·.contentSpan)) =
      [some ⟨8, 9⟩] ∧
    ((parse oneValue quotedValue).complete quotedValue oneValue {} 10).map
      (·.map fun s =>
        (s.kind, s.replace, s.insertText, TextEdit.applyTo? ⟨s.replace, s.insertText⟩ quotedValue)) =
      .ok [(.value, ⟨8, 10⟩, "rtl".toList, some "<p dir=\"rtl>".toList)] := by
  constructor
  · decide +kernel
  · set_option synthInstance.maxSize 256 in
    decide +kernel

end Document

end MarkupAnalysis
