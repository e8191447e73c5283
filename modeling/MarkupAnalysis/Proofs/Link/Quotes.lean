import MarkupAnalysis.Proofs.Link.Joining
import MarkupAnalysis.Proofs.Link.References

/-! # Links without quotes

The span of a link is the content of its value, which has none of the quotes that enclose the value. A value
whose quote is never closed is the exception: it goes up to the end of the text, and the link takes all of
it, with the quote that opens it, for the reference.

* **`Document.IsReference.exists_writesValue`** — how the references of a text are written.
* **`referenceSpan_eq_contentSpan`**, **`referenceSpan_of_isUnclosed`** — the two cases.
* **`Link.Takes`**, **`parse_linksTake`** — what the links of every text take of their values.
* **`links_unclosedReference`** — a link with a quote in it. -/

namespace MarkupAnalysis

open Text Document

variable {t : Text} {v : Vocabulary} {context : LinkContext} {link : Link} {value : AttributeValue}

/-! ## Values -/

/-- **The references of a text** are written in one of the three ways; behind one whose quote is never closed
there is no more text. -/
theorem Document.IsReference.exists_writesValue {id : NodeId} {a : Attribute}
    (h : (parse v t).IsReference v value id a) :
    ∃ rest, WritesValue rest value.text ∧ (value.text.IsUnclosed → value.span.stop = t.byteLength) := by
  obtain ⟨passed, s, reads, kind, rfl⟩ := exists_token_of_value h.element.2 h.given
  have writes := Tokenizer.writesValue kind
  refine ⟨s.rest.ahead, writes, fun unclosed => ?_⟩
  exact ((reads.passes.concat reads.some_ahead).at_of_at (scanner_at v t)).position_eq (writes.ended unclosed)

/-- **A value that is bare or in quotes** refers to its content. -/
theorem referenceSpan_eq_contentSpan {rest : Text} (h : WritesValue rest value.text)
    (slice : t.slice? value.span = some value.text) (closed : ¬ value.text.IsUnclosed) :
    stripMatchingQuotes value.text = value.text.stripQuotes ∧ referenceSpan value = value.contentSpan := by
  have reference := (slice_referenceSpan slice).1
  obtain ⟨text, span⟩ := value
  unfold referenceSpan AttributeValue.contentSpan at *
  dsimp only at *
  cases h with
  | bare some_char no_quote =>
    obtain ⟨c, cs, rfl⟩ := List.exists_cons_of_ne_nil some_char
    have no_quote := no_quote c List.mem_cons_self
    have same : stripMatchingQuotes (c :: cs) = c :: cs := by simp [stripMatchingQuotes, no_quote]
    have bare : isQuoted (c :: cs) = false := no_quote
    rw [same, stripQuotes_of_not_isQuoted bare, if_neg (Nat.lt_irrefl _), bare]
    exact ⟨rfl, rfl⟩
  | @quoted quote content quotes absent =>
    have same : stripMatchingQuotes (quote :: (content ++ [quote])) = content := by
      simp [stripMatchingQuotes, quotes]
    have same' : stripQuotes (quote :: (content ++ [quote])) = content := by
      simp [stripQuotes, withoutLast, quotes]
    have quoted : isQuoted (quote :: (content ++ [quote])) = true := quotes
    have shorter : content.length < (quote :: (content ++ [quote])).length := by
      rw [List.length_cons, List.length_append]
      omega
    rw [same, if_pos shorter] at reference
    rw [same, same', if_pos shorter, if_pos quoted, ← stop_of_slice? reference]
    exact ⟨rfl, rfl⟩
  | unclosed quotes absent => exact absurd ⟨quotes, absent⟩ closed

/-- **A value whose quote is never closed** refers to all of it. -/
theorem referenceSpan_of_isUnclosed (unclosed : value.text.IsUnclosed) :
    stripMatchingQuotes value.text = value.text ∧ referenceSpan value = value.span ∧
      value.contentSpan.start = value.span.start + 1 := by
  obtain ⟨text, span⟩ := value
  cases text with
  | nil => cases unclosed
  | cons quote content =>
    have same : stripMatchingQuotes (quote :: content) = quote :: content := by
      rw [stripMatchingQuotes, if_neg]
      intro matching
      rw [Bool.and_eq_true, decide_eq_true_eq] at matching
      exact unclosed.2 (List.mem_of_getLast? matching.2)
    refine ⟨same, ?_, ?_⟩
    · rw [referenceSpan, same, if_neg (Nat.lt_irrefl _)]
    · have is_quoted : isQuoted (quote :: content) = true := unclosed.1
      rw [AttributeValue.contentSpan, is_quoted, if_pos rfl]

/-- A quote is no blank, and nothing but a part of a path starts with it. -/
theorem quote_opens_path [WordClass] {quote : Char} (quotes : isQuote quote = true) :
    isBlank quote = false ∧ Uri.isSchemeChar quote = false ∧ quote ≠ '#' ∧ quote ≠ '/' := by
  simp only [isQuote, Bool.or_eq_true, decide_eq_true_eq] at quotes
  rcases quotes with rfl | rfl <;>
    exact ⟨by decide, Uri.isSchemeChar_of_ascii (by decide), by decide, by decide⟩

/-- A reference that starts with a quote is resolved as it is. -/
theorem targetOf_of_isUnclosed [WordClass] {d : Document} {base : Option Text} {reference : Text}
    (unclosed : reference.IsUnclosed) : targetOf d context base (trimStart reference) =
      (context.resolve reference (base.getD context.uri)).map .uri := by
  cases reference with
  | nil => cases unclosed
  | cons quote content =>
    obtain ⟨no_blank, no_scheme, no_fragment, no_host⟩ := quote_opens_path unclosed.1
    have same : trimStart (quote :: content) = quote :: content :=
      List.dropWhile_cons_of_neg (Bool.not_eq_true _ ▸ no_blank)
    rw [same, targetOf_of_relative (Uri.scheme?_cons_eq_none no_scheme content)]
    · simpa using no_fragment
    · simp [no_host.symm]

/-! ## Links -/

/-- **What a link takes of the value** that it comes from. -/
structure Link.Takes [WordClass] (link : Link) (t : Text) (d : Document) (context : LinkContext)
    (value : AttributeValue) : Prop where
  /-- Its span is the content of the value, unless the quote of the value is never closed. -/
  span_iff : link.span = value.contentSpan ↔ ¬ value.text.IsUnclosed
  /-- Unless the quote is never closed, the value without its quotes stands at the span, and this is what leads
  to the target; the quote that encloses it is nowhere in it. -/
  content : ¬ value.text.IsUnclosed → t.slice? link.span = some value.text.stripQuotes ∧
    (∃ base, targetOf d context base (trimStart value.text.stripQuotes) = some link.target) ∧
    ∀ quote, isQuote quote = true → value.text.head? = some quote → quote ∉ value.text.stripQuotes
  /-- If the quote is never closed, the link ends with the text, and the whole value is resolved, with its
  quote. -/
  whole : value.text.IsUnclosed → link.span = value.span ∧ link.span.stop = t.byteLength ∧
    ∃ base uri, context.resolve value.text base = some uri ∧ link.target = .uri uri

/-- **The link of a reference** takes its content, or all of it if the quote is never closed. -/
theorem Link.IsOf.takes [WordClass] {id : NodeId} {a : Attribute} (h : link.IsOf (parse v t) context value)
    (reference : (parse v t).IsReference v value id a) : link.Takes t (parse v t) context value := by
  obtain ⟨base, answer⟩ := h
  obtain ⟨-, span, leads⟩ := Link.of?_eq_some_iff.mp answer
  obtain ⟨rest, writes, ended⟩ := reference.exists_writesValue
  by_cases unclosed : value.text.IsUnclosed
  · obtain ⟨text, whole, start⟩ := referenceSpan_of_isUnclosed unclosed
    rw [whole] at span
    rw [text, targetOf_of_isUnclosed unclosed] at leads
    obtain ⟨uri, resolves, target⟩ := Option.map_eq_some_iff.mp leads
    have longer : link.span ≠ value.contentSpan := by
      intro same
      rw [← same, span] at start
      omega
    exact {
      span_iff := ⟨fun same => absurd same longer, fun closed => absurd unclosed closed⟩
      content := fun closed => absurd unclosed closed
      whole := fun _ => ⟨span, span ▸ ended unclosed, _, uri, resolves, target.symm⟩ }
  · obtain ⟨text, content⟩ := referenceSpan_eq_contentSpan writes reference.slice unclosed
    rw [content] at span
    rw [text] at leads
    have slice := (AttributeValue.slice_contentSpan reference.slice).1
    exact {
      span_iff := ⟨fun _ => unclosed, fun _ => span⟩
      content := fun _ => ⟨span ▸ slice, ⟨base, leads⟩, fun quote => writes.not_mem_stripQuotes⟩
      whole := fun closed => absurd closed unclosed }

/-- **Every link takes the content of a reference**, or all of one whose quote is never closed. -/
theorem parse_linksTake [WordClass] (v : Vocabulary) (t : Text) (context : LinkContext) :
    ∀ link ∈ (parse v t).links t v context, ∃ value id a, (parse v t).IsReference v value id a ∧
      link.Takes t (parse v t) context value := by
  intro link known
  obtain ⟨value, id, a, reference, isOf⟩ := exists_reference_of_mem_links known
  exact ⟨value, id, a, reference, isOf.takes reference⟩

/-- The link of a value in quotes takes what stands between them. -/
theorem parse_linksTake_quoted :
    let t := "<a href=\"#b\"><b id=b>".toList
    let link : Link := ⟨⟨9, 11⟩, .offset 13⟩
    link ∈ (parse .empty t).links t .empty (.ofUri []) ∧ ∃ value id a,
      (parse .empty t).IsReference .empty value id a ∧ link.Takes t (parse .empty t) (.ofUri []) value := by
  have known : ⟨⟨9, 11⟩, .offset 13⟩ ∈ (parse .empty "<a href=\"#b\"><b id=b>".toList).links
      "<a href=\"#b\"><b id=b>".toList .empty (.ofUri []) := by
    decide +kernel
  exact ⟨known, parse_linksTake _ _ _ _ known⟩

/-- **A link with a quote in it**: the end of the text leaves the quote open. -/
theorem links_unclosedReference :
    ((parse .empty "<a href=\"x.html".toList).references .empty).map (·.contentSpan) = [⟨9, 15⟩] ∧
      (parse .empty "<a href=\"x.html".toList).links "<a href=\"x.html".toList .empty
        (.ofUri "file:///site/pages/index.html".toList) =
          [⟨⟨8, 15⟩, .uri "file:///site/pages/\"x.html".toList⟩] := by
  decide +kernel

end MarkupAnalysis
