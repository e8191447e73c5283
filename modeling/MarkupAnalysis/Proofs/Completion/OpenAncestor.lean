import MarkupAnalysis.Proofs.Completion.Classification
import MarkupAnalysis.Proofs.Document.ClosingTag
import MarkupAnalysis.Proofs.Document.Tags

/-! # The element that an end tag is proposed for

The proposal looks for it in the tree of the whole text. At the bracket of the tag that is being typed that
element is open, if its start tag has not been interrupted.

* **`Document.openAt`** — the open elements at an offset.
* **`Document.mem_openElements_of_isOpenAt`** — an ancestor that has not ended at the cursor is open. -/

namespace MarkupAnalysis

open Text

namespace Document

variable {v : Vocabulary} {t : Text} {s : Tokenizer} {before : List Token} {id m : NodeId} {offset : Nat}

/-! ## Open elements -/

/-- The elements that are open when the tokens up to an offset have been taken, innermost first. -/
def openAt (v : Vocabulary) (t : Text) (offset : Nat) : List NodeId :=
  (built v t ((tokensOf v t).takeWhile (·.span.stop ≤ offset))).openElements

/-- The elements that are open up to an offset are those before the token that starts there. -/
theorem openAt_position (h : (scanner v t).Passes before s) (some_text : s.position < s.token.span.stop) :
    openAt v t s.position = (built v t before).openElements := by
  have tokens : tokensOf v t = before ++ s.tokens := h.tokens_eq
  have own : s.tokens = s.token :: s.rest.tokens :=
    Tokenizer.tokens_of_ahead_ne_nil (Tokenizer.some_ahead_of_some_text some_text).1
  rw [openAt, tokens, List.takeWhile_append_of_pos, own, List.takeWhile_cons_of_neg, List.append_nil]
  · simpa using some_text
  · intro token mem
    simpa using (h.bounds mem).2

/-- **What starts before a token** has been opened when the token comes. -/
theorem lt_size_of_start_lt (h : (scanner v t).Passes before s) (element : (parse v t).IsElement id)
    (starts : ((parse v t).node id).start < s.position) : id < (built v t before).nodes.size := by
  by_contra later
  have entry : ((parse v t).nodes.toList.map (·.start))[id]? = some ((parse v t).node id).start := by
    rw [List.getElem?_map, Array.getElem?_toList, node, Array.getElem?_eq_getElem element.2]
    rfl
  rw [starts_parse_of_passes h, List.getElem?_append_right (by simpa using later)] at entry
  obtain ⟨token, mem, same⟩ := List.mem_map.mp (List.mem_of_getElem? entry)
  obtain ⟨passed, last, passes, -, tokens⟩ := Tokenizer.exists_passes s
  have bound : s.position ≤ token.span.start := by
    have mem := (List.mem_filter.mp mem).1
    rw [tokens] at mem
    rcases List.mem_append.mp mem with mem | mem
    · exact (passes.bounds mem).1
    · obtain rfl := List.mem_singleton.mp mem
      exact (Nat.le_add_right _ _).trans_eq passes.position_eq.symm
  omega

/-! ## Ancestors that have not ended -/

/-- **What an end tag has closed** ends before the next `<`, and behind the start of the end tag. -/
theorem stop_of_closes (h : (scanner v t).Passes before s) {rest : Text} (opens : s.ahead = '<' :: rest)
    {earlier : List Token} {start : Nat} {token : Token} {inner outer : List NodeId}
    (endTag : EndTagIn before earlier start token)
    (closes : (built v t earlier).Closes v token inner id outer) :
    (parse v t).IsElement id ∧ start < ((parse v t).node id).stop ∧
      ((parse v t).node id).stop ≤ s.position := by
  have in_text := endTag.mono ⟨s.tokens, h.tokens_eq.symm⟩
  have past := (rests_built in_text.next (in_text.past_of_closes closes (.inr rfl))).past
  have known : id < (parse v t).nodes.size := by
    rw [parse_eq, Builder.finish, Builder.size_cutOff]
    exact past.known
  obtain ⟨start_eq, span_eq, -⟩ := (in_text.endTagCloses closes).paired
  obtain ⟨⟨start', span'⟩, met, rfl⟩ := Option.map_eq_some_iff.mp start_eq
  obtain rfl : span' = token.span := by simpa [Node.endNameSpan, met] using span_eq
  obtain ⟨blanks, bracket, slice, blank, last⟩ :=
    ((tagsStandIn_parse known past.off_root).endTag _ met).closes
  refine ⟨⟨past.off_root, known⟩, ?_, ?_⟩
  · obtain ⟨outer, behind, -, -, stop⟩ := slice?_eq_some_iff.mp slice
    exact Nat.lt_of_le_of_lt in_text.start_le.1
      (Nat.lt_of_lt_of_le in_text.start_le.2 ((Nat.le_add_right _ _).trans_eq stop))
  · obtain ⟨front, split, position⟩ := h.at_of_at (scanner_at v t)
    rw [opens] at split
    rw [position]
    refine stop_le_of_slice? slice split ?_ ?_
    · rw [← position]
      exact (h.bounds (endTag.next.subset (by simp))).2
    · intro mem
      rcases List.mem_append.mp mem with mem | mem
      · exact absurd (blank '<' mem) (by decide)
      · rcases last with rfl | rfl <;> simp at mem

/-- The node before an offset ends behind what has ended by the offset. -/
theorem stop_le_of_endsBy {other : NodeId} (found : (parse v t).nodeBefore offset = some id)
    (element : (parse v t).IsElement id) (other_element : (parse v t).IsElement other)
    (ended : (parse v t).EndsBy offset other) : ((parse v t).node other).stop ≤ ((parse v t).node id).stop := by
  cases ((preordered_parse v t).nodeBefore_eq_some_iff.mp found).2 with
  | root => exact absurd rfl element.1
  | inside _ around => exact Nat.le_trans ended.2 (Nat.le_of_lt around)
  | ended _ _ ends_last _ => exact ends_last other other_element ended

section

variable (h : (scanner v t).Passes before s) (behind : s.position < offset)
  (found : (parse v t).nodeBefore offset = some id)
  (around : m = id ∨ m ∈ (parse v t).ancestors id) (element : (parse v t).IsElement m)

include found around element in
/-- An element that is the node before an offset or around it. -/
theorem mem_descendants_of_around : (parse v t).IsElement id ∧
    (m = id ∨ id ∈ (parse v t).descendants m) := by
  have ordered := preordered_parse v t
  rcases around with rfl | above
  · exact ⟨element, .inl rfl⟩
  · have off_root : id ≠ root := by
      rintro rfl
      rw [ordered.ancestors_root] at above
      cases above
    have element' := (of_nodeBefore found).resolve_left off_root |>.1
    exact ⟨element', .inr ((ordered.mem_descendants_iff_mem_ancestors element.2 element'.2).mpr above)⟩

include h behind found around element in
/-- No end tag has closed an element around it. -/
theorem not_cutOff_of_around {rest : Text} (opens : s.ahead = '<' :: rest) {earlier : List Token}
    {start : Nat} {own : NodeId} {token : Token} {inner outer : List NodeId}
    (endTag : EndTagIn before earlier start token)
    (closes : (built v t earlier).Closes v token inner own outer) : m ∉ inner := by
  intro mem
  have ordered := preordered_parse v t
  obtain ⟨element', place⟩ := mem_descendants_of_around found around element
  obtain ⟨own_element, starts, stops⟩ := stop_of_closes h opens endTag closes
  have in_text := endTag.mono ⟨s.tokens, h.tokens_eq.symm⟩
  have stop := ((in_text.endTagCloses closes).unclosed m mem).1
  have inside : ((parse v t).node id).stop ≤ ((parse v t).node m).stop := by
    rcases place with rfl | inside
    · exact Nat.le_refl _
    · exact (ordered.covers_of_mem_descendants element.2 inside).2
  have forwards := ordered.start_lt_stop own_element
  have last := stop_le_of_endsBy found element' own_element ⟨by omega, by omega⟩
  omega

include h behind found around in
/-- **An ancestor that has not ended at the cursor** is open at the `<` before the cursor, if it starts
before it and its start tag is not interrupted. -/
theorem mem_openElements_of_isOpenAt {rest : Text} (opens : s.ahead = '<' :: rest)
    (between : s.mode.betweenTags) (whole : ((parse v t).node m).startTagEnd ≠ none)
    {tag : Text} (named : ((parse v t).node m).tag = some tag)
    (starts : ((parse v t).node m).start < s.position)
    (is_open : CompletionRequest.isOpenAt offset ((parse v t).node m) = true) :
    m ∈ (built v t before).openElements := by
  have element := element_of_tag (named ▸ Option.some_ne_none tag)
  have next : before <+: tokensOf v t := ⟨s.tokens, h.tokens_eq.symm⟩
  have none_read := ((Builder.stands_of_betweenTags between _).mp (stands_built h)).1
  by_contra left
  have past : (built v t before).Past m := by
    refine ⟨lt_size_of_start_lt h element starts, element.1, not_or.mpr ⟨left, ?_⟩⟩
    rw [none_read]
    nofun
  have rests := rests_built next past
  obtain ⟨stop, node⟩ := rests.node
  have node := (node_parse rests.past).trans node
  rw [CompletionRequest.isOpenAt, node] at is_open
  cases closed : ((built v t before).node m).closed with
  | true =>
    -- Its end tag would come behind the cursor.
    obtain ⟨e, met, later⟩ : ∃ e, ((built v t before).node m).endTag = some e ∧ offset < e.start := by
      simpa [closed, Node.endTagStart, Option.any_eq_true] using is_open
    obtain ⟨earlier, start, token, inner, outer, endTag, rfl, -⟩ := exists_endTagIn_of_passes h met
    have starts := (endTag.mono next).start_le
    have stops := (h.bounds (endTag.next.subset (List.mem_append_right _ (List.mem_singleton.mpr rfl)))).2
    dsimp only at later
    omega
  | false =>
    have has_name : ((built v t before).node m).name ≠ none := by
      intro nameless
      rw [node, Node.tag, nameless] at named
      cases named
    cases endsUnclosed_of_past h past has_name closed with
    | interrupted no_end =>
      rw [node] at whole
      exact whole no_end
    | cutOff endTag closes mem =>
      exact not_cutOff_of_around h behind found around element opens endTag closes mem

end

end Document

end MarkupAnalysis
