import MarkupAnalysis.Proofs.Link.References

/-! # Links in order

Every link of a text stands in a reference of its own, behind the links before it. What stands at its span is
a text of one line that is not blank; where the link leads into the document, that text is a `#` and the `id`
of an element, and the link leads to the first one that has it.

* **`Link.IsOf.place`** — what stands at the span of a link.
* **`Document.links_pairwise`**, **`Document.span_eq_of_covers`** — links in order, one for each value.
* **`Document.LinksStand`**, **`parse_linksStand`** — the links of every text. -/

namespace MarkupAnalysis

open Text Document

variable {t : Text} {v : Vocabulary} {context : LinkContext} {base : Option Text} {link : Link}
  {value : AttributeValue}

/-! ## One link -/

/-- A reference that can be a link is not blank and has one line. -/
theorem oneLine_of_isUsable {reference : Text} (usable : isUsable reference = true) :
    (∃ c ∈ reference, isBlank c = false) ∧ '\n' ∉ reference ∧ '\r' ∉ reference := by
  simp only [isUsable, Bool.and_eq_true, Bool.not_eq_true', List.all_eq_false, List.any_eq_false,
    Bool.or_eq_true, decide_eq_true_eq, not_or, Bool.not_eq_true] at usable
  obtain ⟨⟨not_blank, -⟩, one_line⟩ := usable
  exact ⟨not_blank, fun mem => (one_line _ mem).1 rfl, fun mem => (one_line _ mem).2 rfl⟩

/-- The span of a link is that of the reference. -/
theorem Link.IsOf.span_eq [WordClass] {d : Document} (h : link.IsOf d context value) :
    link.span = referenceSpan value := by
  obtain ⟨base, answer⟩ := h
  exact (Link.of?_eq_some_iff.mp answer).2.1

/-- A link comes from a usable reference. -/
theorem Link.IsOf.isUsable [WordClass] {d : Document} (h : link.IsOf d context value) :
    isUsable (stripMatchingQuotes value.text) = true := by
  obtain ⟨base, answer⟩ := h
  exact (Link.of?_eq_some_iff.mp answer).1

/-- **What stands at the span of a link**, which is inside the value and not empty. -/
theorem Link.IsOf.place [WordClass] {d : Document} (h : link.IsOf d context value)
    (slice : t.slice? value.span = some value.text) :
    t.slice? link.span = some (stripMatchingQuotes value.text) ∧
      value.span.covers link.span = true ∧ link.span.start < link.span.stop := by
  obtain ⟨reference, inside⟩ := slice_referenceSpan slice
  rw [← h.span_eq] at reference inside
  refine ⟨reference, inside, ?_⟩
  obtain ⟨⟨c, mem, -⟩, -⟩ := oneLine_of_isUsable h.isUsable
  have some_char := length_le_byteLength (stripMatchingQuotes value.text)
  have := List.length_pos_of_mem mem
  have := stop_of_slice? reference
  omega

/-! ## All links -/

/-- **The links of a text** are in order, and each of them is what it says. -/
structure Document.LinksStand (t : Text) (v : Vocabulary) (d : Document) (links : List Link) : Prop where
  /-- Each link starts where the one before it has ended, or later. -/
  ordered : links.Pairwise fun link later =>
    link.span.start < later.span.start ∧ link.span.stop ≤ later.span.start
  /-- Each link is inside the value of an attribute that is a reference. -/
  inside : ∀ link ∈ links, ∃ value id a, d.IsReference v value id a ∧ value.span.covers link.span = true
  /-- No value of an attribute has two links. -/
  single : ∀ id a value, d.IsElement id → a ∈ (d.node id).attributes → a.value = some value →
    ∀ link ∈ links, ∀ link' ∈ links, value.span.covers link.span = true →
      value.span.covers link'.span = true → link = link'
  /-- At the span of a link there is a text of one line that is not blank. -/
  text : ∀ link ∈ links, ∃ reference, t.slice? link.span = some reference ∧
    (∃ c ∈ reference, isBlank c = false) ∧ '\n' ∉ reference ∧ '\r' ∉ reference
  /-- A link into the document leads to the first element with the identifier that is written there. -/
  target : ∀ link ∈ links, ∀ offset, link.target = .offset offset →
    ∃ fragment id, (t.slice? link.span).map trimStart = some ('#' :: fragment) ∧
      d.IsFirstWithId fragment id ∧ offset = (d.node id).start

namespace Document

/-- **Links come in order**, with no text in two of them. -/
theorem links_pairwise [WordClass] (v : Vocabulary) (t : Text) (context : LinkContext) :
    ((parse v t).links t v context).Pairwise fun link later =>
      link.span.start < later.span.start ∧ link.span.stop ≤ later.span.start := by
  obtain ⟨sources, links, ordered, each⟩ := exists_sources_links v t context
  rw [← links]
  refine List.pairwise_map.mpr (ordered.imp_of_mem fun {source later} mem mem' apart => ?_)
  obtain ⟨⟨id, a, reference⟩, isOf⟩ := each source mem
  obtain ⟨⟨id', a', reference'⟩, isOf'⟩ := each later mem'
  obtain ⟨-, inside, some_text⟩ := isOf.place reference.slice
  obtain ⟨-, inside', -⟩ := isOf'.place reference'.slice
  rw [Span.covers_iff] at inside inside'
  omega

/-- A link inside the value of an attribute comes from it. -/
theorem span_eq_of_covers [WordClass] {id : NodeId} {a : Attribute} (element : (parse v t).IsElement id)
    (mem : a ∈ ((parse v t).node id).attributes) (given : a.value = some value)
    (known : link ∈ (parse v t).links t v context) (inside : value.span.covers link.span = true) :
    link.span = referenceSpan value := by
  obtain ⟨source, id', a', reference, isOf⟩ := exists_reference_of_mem_links known
  obtain ⟨-, inside', some_text⟩ := isOf.place reference.slice
  obtain rfl : source = value := attributeValue_eq_of_covers reference.element.1 element
    reference.element.2 mem reference.given given some_text inside' inside
  exact isOf.span_eq

end Document

/-- **The links of every text** are in order, and each of them is what it says. -/
theorem parse_linksStand [WordClass] (v : Vocabulary) (t : Text) (context : LinkContext) :
    (parse v t).LinksStand t v ((parse v t).links t v context) := by
  refine ⟨links_pairwise v t context, ?inside, ?single, ?text, ?target⟩
  case inside =>
    intro link known
    obtain ⟨value, id, a, reference, isOf⟩ := exists_reference_of_mem_links known
    exact ⟨value, id, a, reference, (isOf.place reference.slice).2.1⟩
  case single =>
    intro id a value element mem given link known link' known' inside inside'
    have span := span_eq_of_covers element mem given known inside
    have span' := span_eq_of_covers element mem given known' inside'
    -- Both links have the span of the one value, and different links are apart.
    rcases eq_or_rel_of_pairwise (links_pairwise v t context) known known' with same | apart | apart
    · exact same
    · rw [span, span'] at apart
      exact absurd apart.1 (Nat.lt_irrefl _)
    · rw [span, span'] at apart
      exact absurd apart.1 (Nat.lt_irrefl _)
  case text =>
    intro link known
    obtain ⟨value, id, a, reference, isOf⟩ := exists_reference_of_mem_links known
    exact ⟨_, (isOf.place reference.slice).1, oneLine_of_isUsable isOf.isUsable⟩
  case target =>
    intro link known offset into
    obtain ⟨value, id, a, reference, isOf⟩ := exists_reference_of_mem_links known
    have written := (isOf.place reference.slice).1
    obtain ⟨base, answer⟩ := isOf
    obtain ⟨-, -, leads⟩ := Link.of?_eq_some_iff.mp answer
    rw [into] at leads
    obtain ⟨fragment, owner, opens, found, same⟩ := targetOf_eq_offset leads
    refine ⟨fragment, owner, ?_, findById_eq_some_iff.mp found, same⟩
    rw [written, Option.map_some, opens]

end MarkupAnalysis
