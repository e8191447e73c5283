import MarkupAnalysis.Proofs.Completion.EndTagEdit
import MarkupAnalysis.Proofs.Completion.OpenAncestor
import MarkupAnalysis.Proofs.Completion.TagBefore

/-! # Accepting the end tag of the open element

The end tag that is proposed first closes the element that it is proposed for, if what is replaced reaches
the end of the name that is being typed and an end tag there reaches the element.

* **`CompletionRequest.mem_closeTagCandidates`** — what is proposed for an element.
* **`Document.AdmitsEndTag`** — an end tag at a bracket reaches an element.
* **`Document.AdmitsEndTag.exists_openTo`** — at the bracket before the cursor the element is the one to close.
* **`Document.exists_pinned`** — its end tag is proposed, once.
* **`Document.complete_closes`** — with the proposal accepted, the element is closed.
* **`Document.complete_misaligned`** — the cursor in the name of an end tag that is to be aligned. -/

namespace MarkupAnalysis

open Text

/-- The name that an end tag is proposed for ends at a boundary. -/
theorem Place.FitsIn.stop_endTagName? {t : Text} {place : Place} {name : Span} {inStartTag : Bool}
    (fits : place.FitsIn t) (own : place.endTagName? = some (name, inStartTag)) :
    t.isBoundary name.stop = true := by
  cases place with
  | newTag own_name bracket =>
    obtain ⟨rfl, rfl⟩ := Prod.mk.inj (Option.some.inj own)
    exact fits.2.2.2
  | endTag own_name =>
    obtain ⟨rfl, rfl⟩ := Prod.mk.inj (Option.some.inj own)
    exact fits.2.2.2
  | _ => cases own

namespace CompletionRequest

variable {r : CompletionRequest} {name : Span} {inStartTag : Bool} {tag : Text} {start : Nat}

/-- The bracket that is added to an end tag, unless it is there. -/
def closing (r : CompletionRequest) (name : Span) : Text :=
  if r.isFollowedBy name.stop .endTag .endTagClose then [] else ['>']

/-- **End tags are proposed** for the open element and for other names. -/
theorem mem_closeTagCandidates (ancestor : r.openAncestor? inStartTag = some (tag, start))
    {candidates : List Candidate} (proposed : r.closeTagCandidates name inStartTag = .ok candidates) :
    ∃ pinned, r.closeCandidate name (r.closing name) tag start = .ok pinned ∧ pinned ∈ candidates ∧
      ∀ c ∈ candidates, c = pinned ∨
        ∃ other, c.suggestion.label = '/' :: other ∧ r.vocabulary.tagNamesMatch tag other = false := by
  unfold closeTagCandidates at proposed
  rw [ancestor] at proposed
  simp only [Except.bind_eq_ok_iff, Except.map_eq_ok_iff] at proposed
  obtain ⟨-, ⟨pinned, own, rfl⟩, same⟩ := proposed
  obtain rfl := Except.ok.inj same
  refine ⟨pinned, own, by simp, fun c mem => ?_⟩
  rcases List.mem_append.mp mem with mem | mem
  · exact .inl (List.mem_singleton.mp mem)
  · refine .inr ?_
    cases inStartTag with
    | true => cases mem
    | false =>
      obtain ⟨other, other_mem, rfl⟩ := List.mem_map.mp mem
      exact ⟨other, rfl, by simpa using (List.mem_filter.mp other_mem).2⟩

/-- **At a place for end tags** all other proposals are for start tags. -/
theorem candidates_of_endTagName? {cursor : Cursor} {candidates : List Candidate}
    (place : cursor.place.endTagName? = some (name, inStartTag))
    (proposed : r.candidates cursor = .ok candidates) :
    ∃ closing, r.closeTagCandidates name inStartTag = .ok closing ∧ closing ⊆ candidates ∧
      ∀ c ∈ candidates, c ∈ closing ∨ c.suggestion.kind = .tag := by
  unfold CompletionRequest.candidates at proposed
  cases own : cursor.place with rw [own] at place proposed
  | newTag own_name bracket =>
    obtain ⟨rfl, rfl⟩ := Prod.mk.inj (Option.some.inj place)
    obtain ⟨closing, closes, rfl⟩ := Except.map_eq_ok_iff.mp proposed
    refine ⟨closing, closes, List.subset_append_right _ _, fun c mem => ?_⟩
    refine (List.mem_append.mp mem).symm.imp_right fun opens => ?_
    obtain ⟨tag, -, rfl⟩ := List.mem_map.mp opens
    rfl
  | endTag own_name =>
    obtain ⟨rfl, rfl⟩ := Prod.mk.inj (Option.some.inj place)
    exact ⟨candidates, proposed, List.Subset.refl _, fun _ => .inl⟩
  | _ => cases place

end CompletionRequest

namespace Document

variable {v : Vocabulary} {t : Text} {s : Tokenizer} {before : List Token} {id m : NodeId} {offset : Nat}
  {tag : Text} {inStartTag : Bool}

/-- A node of the array is one of its entries. -/
theorem node_mem {d : Document} (inside : m < d.nodes.size) : d.node m ∈ d.nodes := by
  rw [node, Array.getElem?_eq_getElem inside]
  exact Array.getElem_mem inside

/-- **An end tag at a bracket reaches an element**: it can be read there, and closes no element inside that
one. -/
structure AdmitsEndTag (v : Vocabulary) (t : Text) (bracket : Nat) (tag : Text) (start : Nat) : Prop where
  /-- The bracket is that of a tag of the document. -/
  opens : ∃ token ∈ tokensOf v t, token.span.start = bracket ∧
    (token.kind = .startTagOpen ∨ token.kind = .endTagOpen)
  /-- The start tag of the element has not been interrupted, as that of `p` is in `<p </a> </`. -/
  whole : ∀ n ∈ (parse v t).nodes, n.start = start → n.tag = some tag → n.startTagEnd ≠ none
  /-- No element that is open there inside it answers to the name. In `<p><p></p` one does. -/
  innermost : ∀ i ∈ openAt v t bracket, start < ((parse v t).node i).start →
    ∀ own, ((parse v t).node i).tag = some own → v.tagNamesMatch own tag = false
  /-- A body that ends there ends at an end tag of that name. -/
  body : ∀ own, BodyEndsAt v t bracket own → startsWithIgnoringCase own tag = true

/-- **The elements around the cursor** start before the bracket, if the start tag there is none of theirs. -/
theorem start_lt_of_tagBefore {bracket : Nat} (h : TagBefore t offset bracket inStartTag)
    (found : (parse v t).nodeBefore offset = some id)
    (around : m = id ∧ inStartTag = false ∨ m ∈ (parse v t).ancestors id)
    (element : (parse v t).IsElement m) : ((parse v t).node m).start < bracket := by
  have ordered := preordered_parse v t
  have element' := (mem_descendants_of_around found (around.imp_left And.left) element).1
  have starts : ((parse v t).node id).start < offset :=
    ((of_nodeBefore found).resolve_left element'.1).2
  obtain ⟨rest, opens, no_slash, -⟩ := (tagsStandIn_parse element'.2 element'.1).opens
  obtain ⟨front, split, position⟩ := dropBytes?_eq_some_iff.mp opens
  rw [← position] at starts
  have earlier := h.le split starts
  rw [position] at earlier
  rcases around with ⟨rfl, endTag⟩ | above
  · -- The bracket of an end tag is not that of the element.
    refine Nat.lt_of_le_of_ne earlier fun same => ?_
    obtain ⟨before, rest', split', place, slash⟩ := h.exists_split
    obtain ⟨-, tail⟩ := append_left_inj_of_byteLength (split.symm.trans split')
      (position.trans (same.trans place.symm))
    rw [(List.cons.inj tail).2] at no_slash
    exact no_slash (slash endTag)
  · have inside := (ordered.mem_descendants_iff_mem_ancestors element.2 element'.2).mpr above
    exact Nat.lt_of_lt_of_le (ordered.start_lt_of_mem_descendants element inside) earlier

/-- Open elements have the tag that they have in the tree. -/
theorem tag_of_mem_openElements (h : (scanner v t).Passes before s) (between : s.mode.betweenTags)
    (mem : m ∈ (built v t before).openElements) :
    ((parse v t).node m).tag = ((built v t before).node m).tag := by
  have none_read := ((Builder.stands_of_betweenTags between _).mp (stands_built h)).1
  have has_name := (marked_built h).named m mem (none_read ▸ nofun)
  obtain ⟨name, named⟩ := Option.ne_none_iff_exists'.mp has_name
  rw [Node.tag, Node.tag, name_parse h named, named]

/-- **An open element** is the one to close if those that are open inside it have other names. -/
theorem exists_openTo (h : (scanner v t).Passes before s) (between : s.mode.betweenTags)
    (mem : m ∈ (built v t before).openElements) (named : ((parse v t).node m).tag = some tag)
    (answers : v.tagNamesMatch tag tag = true)
    (inner : ∀ i ∈ (built v t before).openElements, ((parse v t).node m).start < ((parse v t).node i).start →
      ∀ own, ((parse v t).node i).tag = some own → v.tagNamesMatch own tag = false) :
    ∃ inside outer, (built v t before).OpenTo v tag m inside outer := by
  obtain ⟨inside, outer, split⟩ := List.append_of_mem mem
  obtain ⟨frontier, -, nested⟩ := (stands_built h).exists_nested
  refine ⟨inside, outer, split, (tag_of_mem_openElements h between mem).symm.trans named, answers, ?_⟩
  intro i i_mem own own_named
  have i_open : i ∈ (built v t before).openElements := by simp [split, i_mem]
  -- Inner elements come later in the array, and start later.
  have later : m < i := by
    have decreasing := nested.decreasing
    rw [split, List.append_assoc] at decreasing
    exact (List.pairwise_append.mp decreasing).2.2 i i_mem m (by simp)
  have known := (start_parse_of_passes h (nested.lt_size i_open)).1
  have starts := (preordered_parse v t).starts m i (Nat.pos_of_ne_zero (nested.ne_root mem)) later known
  exact inner i i_open starts own ((tag_of_mem_openElements h between i_open).trans own_named)

/-- Before the bracket of a tag the text starts with a bracket, and so does the tag. -/
theorem split_of_opening (h : (scanner v t).Passes before s)
    (opening : s.token.kind = .startTagOpen ∨ s.token.kind = .endTagOpen) :
    s.mode.betweenTags ∧ s.position < s.token.span.stop ∧ ∃ rest, s.ahead = '<' :: rest ∧
      t = before.flatMap (·.text) ++ '<' :: rest ∧ byteLength (before.flatMap (·.text)) = s.position := by
  have some_ahead : s.ahead ≠ [] := by
    rcases opening with kind | kind <;> exact Tokenizer.ahead_ne_nil kind (by decide)
  obtain ⟨others, text⟩ : ∃ others, s.token.text = '<' :: others := by
    rcases opening with kind | kind
    · exact ⟨_, (Tokenizer.text_of_startTagOpen kind).1⟩
    · exact ⟨_, Tokenizer.text_of_endTagOpen kind⟩
  have lexeme : s.lexeme = '<' :: others := text
  have ahead := s.lexeme_append_ahead_rest
  rw [lexeme] at ahead
  have whole := h.ahead_eq
  have position := h.position_eq
  rw [scanner_eq] at whole position
  refine ⟨(Tokenizer.reads some_ahead).outside_of_opens opening, ?_, _, ahead.symm, ?_, ?_⟩
  · rcases opening with kind | kind <;>
      exact Tokenizer.position_lt_rest some_ahead (by rw [kind]; nofun) (by rw [kind]; nofun)
  · exact whole.trans (congrArg _ ahead.symm)
  · rw [position, Nat.zero_add]

/-- **The edit of an end tag at the bracket before the cursor** closes the element that is to be closed. -/
theorem closed_of_edit (h : (scanner v t).Passes before s)
    (opening : s.token.kind = .startTagOpen ∨ s.token.kind = .endTagOpen)
    (body : ∀ own, BodyEndsAt v t s.position own → startsWithIgnoringCase own tag = true)
    {inside outer : List NodeId} (opened : (built v t before).OpenTo v tag m inside outer) (name : IsTagName tag)
    (starts : ((parse v t).node m).start < s.position) {edited : Text}
    (edit : EndTagEdit t s.position tag edited) :
    ∃ n ∈ (parse v edited).nodes, n.start = ((parse v t).node m).start ∧ n.tag = some tag ∧
      n.closed = true := by
  obtain ⟨between, -, rest, ahead, split, place⟩ := split_of_opening h opening
  obtain ⟨frontier, -, nested⟩ := (stands_built h).exists_nested
  have known : m < (built v t before).nodes.size := nested.lt_size (by simp [opened.split])
  cases edit with
  | @mk first blanks blanks' rest' after split' place' alike stops =>
    have text : before.flatMap (·.text) = first ++ blanks :=
      (append_left_inj_of_byteLength (split.symm.trans split') (place.trans place'.symm)).1
    obtain ⟨known', start, tagged, closed⟩ :=
      closed_of_endTag h alike ahead between text body opened name stops rfl
    refine ⟨_, node_mem known', ?_, tagged, closed⟩
    rw [start, ← (start_parse_of_passes h known).2, moveEnd, if_neg (Nat.ne_of_lt starts)]

/-- What starts before an offset has its bracket before it. -/
theorem mem_of_start_lt {before rest : Text} (element : (parse v t).IsElement m)
    (split : t = before ++ '<' :: rest) (starts : ((parse v t).node m).start < byteLength before) :
    '<' ∈ before := by
  obtain ⟨behind, opens, -⟩ := (tagsStandIn_parse element.2 element.1).opens
  obtain ⟨front, own, position⟩ := dropBytes?_eq_some_iff.mp opens
  obtain ⟨between, rfl, -⟩ := exists_between own split (by omega)
  simp

/-- A tag is a name. -/
theorem isTagName_of_tag (element : (parse v t).IsElement m) (named : ((parse v t).node m).tag = some tag) :
    IsTagName tag := by
  obtain ⟨name, own, rfl⟩ := Option.map_eq_some_iff.mp named
  exact ((tagsStandIn_parse element.2 element.1).name name own).2.1

/-- **At the bracket before the cursor** the element that has not ended at the cursor is the one to close, if an
end tag there reaches it. -/
theorem AdmitsEndTag.exists_openTo {bracket : Nat}
    (admits : AdmitsEndTag v t bracket tag ((parse v t).node m).start) (answers : v.tagNamesMatch tag tag = true)
    (tag_before : TagBefore t offset bracket inStartTag) (found : (parse v t).nodeBefore offset = some id)
    (around : m = id ∧ inStartTag = false ∨ m ∈ (parse v t).ancestors id)
    (named : ((parse v t).node m).tag = some tag)
    (not_ended : CompletionRequest.isOpenAt offset ((parse v t).node m) = true) :
    ∃ before s inside outer, (scanner v t).Passes before s ∧ s.position = bracket ∧
      (s.token.kind = .startTagOpen ∨ s.token.kind = .endTagOpen) ∧
      ((parse v t).node m).start < s.position ∧ (built v t before).OpenTo v tag m inside outer := by
  have element : (parse v t).IsElement m := element_of_tag (named ▸ Option.some_ne_none tag)
  obtain ⟨token, token_mem, here, opening⟩ := admits.opens
  obtain ⟨before, after, all⟩ := List.mem_iff_append.mp token_mem
  obtain ⟨s, passes, rfl, -⟩ := Tokenizer.passes_of_tokens_eq (s := scanner v t) all
  obtain rfl : s.position = bracket := here
  obtain ⟨between, some_text, rest, ahead, -, -⟩ := split_of_opening passes opening
  have earlier := start_lt_of_tagBefore tag_before found around element
  have whole := admits.whole _ (node_mem element.2) rfl named
  have mem := mem_openElements_of_isOpenAt passes tag_before.behind found (around.imp_left And.left) ahead
    between whole named earlier not_ended
  have innermost := admits.innermost
  rw [openAt_position passes some_text] at innermost
  obtain ⟨inside, outer, opened⟩ := Document.exists_openTo passes between mem named answers innermost
  exact ⟨before, s, inside, outer, passes, rfl, opening, earlier, opened⟩

/-- **At a place for end tags that of the open element is proposed**, and no other suggestion has its label. -/
theorem exists_pinned {options : CompletionOptions} {name : Span} {start : Nat}
    (reflexive : ∀ tag, v.tagNamesMatch tag tag = true)
    (cursor : t.isBoundary offset = true) (found : (parse v t).nodeBefore offset = some id)
    (place : (Cursor.locate v t ((parse v t).node id).start offset).place.endTagName? =
      some (name, inStartTag))
    (ancestor : CompletionRequest.openAncestor? ⟨t, parse v t, offset, v, options, id⟩ inStartTag =
      some (tag, start)) :
    ∃ suggestions pinned, (parse v t).complete t v options offset = .ok suggestions ∧
      CompletionRequest.closeCandidate ⟨t, parse v t, offset, v, options, id⟩ name
        (CompletionRequest.closing ⟨t, parse v t, offset, v, options, id⟩ name) tag start = .ok pinned ∧
      (∃ suggestion ∈ suggestions, suggestion = { pinned.suggestion with score := suggestion.score }) ∧
      ∀ suggestion ∈ suggestions, suggestion.kind = .closeTag → suggestion.label = '/' :: tag →
        suggestion = { pinned.suggestion with score := suggestion.score } := by
  obtain ⟨suggestions, answer⟩ := exists_complete v v t options offset
  have given := answer
  rw [complete, if_pos cursor, found] at answer
  obtain ⟨candidates, proposed, rfl⟩ := Except.map_eq_ok_iff.mp answer
  obtain ⟨closing, closes, subset, others⟩ := CompletionRequest.candidates_of_endTagName? place proposed
  obtain ⟨pinned, own, pinned_mem, other_names⟩ := CompletionRequest.mem_closeTagCandidates ancestor closes
  refine ⟨_, pinned, given, own, exists_mem_rank (subset pinned_mem), ?_⟩
  intro suggestion suggestion_mem closeTag label
  obtain ⟨c, c_mem, same⟩ := exists_candidate_of_mem_rank suggestion_mem
  rw [same] at closeTag label
  have c_mem := (others c c_mem).resolve_right fun startTag => by
    rw [startTag] at closeTag
    cases closeTag
  obtain rfl : c = pinned := by
    refine (other_names c c_mem).resolve_right ?_
    rintro ⟨other, own_label, differs⟩
    obtain rfl : tag = other := by
      rw [own_label] at label
      exact (List.cons.inj label).2.symm
    rw [reflexive tag] at differs
    cases differs
  exact same

/-- **Accepting the end tag of the open element closes it.** Let an end tag be proposed at a cursor for the
element around it that has not ended there, and let an end tag at the bracket before the cursor reach that
element. Then the end tag is among the suggestions, and wherever it is, its edit can be made, and makes a text
in which the element that starts at that place has its tag and is closed — if what is replaced reaches the
end of the name that is being typed, or what is inserted brings its own bracket. -/
theorem complete_closes {options : CompletionOptions} {name : Span} {start : Nat}
    (reflexive : ∀ tag, v.tagNamesMatch tag tag = true)
    (cursor : t.isBoundary offset = true) (found : (parse v t).nodeBefore offset = some id)
    (place : (Cursor.locate v t ((parse v t).node id).start offset).place.endTagName? =
      some (name, inStartTag))
    (ancestor : CompletionRequest.openAncestor? ⟨t, parse v t, offset, v, options, id⟩ inStartTag =
      some (tag, start))
    (admits : AdmitsEndTag v t (name.start - 1) tag start) :
    ∃ suggestions, (parse v t).complete t v options offset = .ok suggestions ∧
      (∃ suggestion ∈ suggestions, suggestion.kind = .closeTag ∧ suggestion.label = '/' :: tag) ∧
      ∀ suggestion ∈ suggestions, suggestion.kind = .closeTag → suggestion.label = '/' :: tag →
        name.stop ≤ suggestion.replace.stop ∨ suggestion.insertText.getLast? = some '>' →
        ∃ edited, TextEdit.applyTo? ⟨suggestion.replace, suggestion.insertText⟩ t = some edited ∧
          ∃ n ∈ (parse v edited).nodes, n.start = start ∧ n.tag = some tag ∧ n.closed = true := by
  obtain ⟨m, around, not_ended, named, rfl⟩ := CompletionRequest.exists_node_of_openAncestor? ancestor
  have element : (parse v t).IsElement m := element_of_tag (named ▸ Option.some_ne_none tag)
  have tag_name := isTagName_of_tag element named
  -- The bracket before the cursor, in the scan from the node before it.
  have element' := (mem_descendants_of_around found (around.imp_left And.left) element).1
  have of_found := of_nodeBefore found
  have behind : (Tokenizer.start v t ((parse v t).node id).start).position < offset :=
    Nat.lt_of_le_of_lt (Nat.le_of_eq (exists_tokens_split of_found).1) (of_found.resolve_left element'.1).2
  obtain ⟨bracket, tag_before, starts, ends⟩ :=
    exists_tagBefore behind ((preordered_parse v t).nodeBefore_eq_some_iff.mp found).1 place
  -- The element to close, in the scan of the document.
  rw [starts, Nat.add_sub_cancel] at admits
  obtain ⟨before, s, inside, outer, passes, rfl, opening, earlier, opened⟩ :=
    admits.exists_openTo (reflexive tag) tag_before found around named not_ended
  obtain ⟨-, -, rest, -, split, position⟩ := split_of_opening passes opening
  obtain ⟨suggestions, pinned, answer, own, ⟨proposed, proposed_mem, same⟩, only⟩ :=
    exists_pinned reflexive cursor found place ancestor
  refine ⟨suggestions, answer, ⟨proposed, proposed_mem, ?_, ?_⟩, ?_⟩
  · rw [same]
    exact CompletionRequest.kind_of_closeCandidate own
  · rw [same]
    exact (CompletionRequest.closeCandidate_cases own).1
  · intro suggestion suggestion_mem closeTag label reaches
    rw [only suggestion suggestion_mem closeTag label] at reaches ⊢
    have boundary := (Cursor.fitsIn_locate v ((parse v t).node id).start cursor).stop_endTagName? place
    obtain ⟨edited, applied, edit⟩ := CompletionRequest.exists_edit own split position
      (mem_of_start_lt element split (earlier.trans_eq position.symm)) starts tag_before.behind ends cursor
      boundary tag_name rfl reaches
    exact ⟨edited, applied, closed_of_edit passes opening admits.body opened tag_name earlier edit⟩

/-- An end tag without a name, farther to the right than its start tag. -/
def namelessEndTag : Text := "<div>\n  </".toList

/-- An end tag that stands too far to the right is moved to the left, and closes the element. -/
theorem complete_closes_namelessEndTag :
    ((parse .empty namelessEndTag).complete namelessEndTag .empty {} 10).map
        (·.map fun s => (s.replace, s.insertText)) = .ok [(⟨6, 10⟩, "</div>".toList)] ∧
    ∃ suggestions, (parse .empty namelessEndTag).complete namelessEndTag .empty {} 10 = .ok suggestions ∧
      (∃ suggestion ∈ suggestions, suggestion.kind = .closeTag ∧ suggestion.label = '/' :: "div".toList) ∧
      ∀ suggestion ∈ suggestions, suggestion.kind = .closeTag → suggestion.label = '/' :: "div".toList →
        10 ≤ suggestion.replace.stop ∨ suggestion.insertText.getLast? = some '>' →
        ∃ edited, TextEdit.applyTo? ⟨suggestion.replace, suggestion.insertText⟩ namelessEndTag =
            some edited ∧
          ∃ n ∈ (parse .empty edited).nodes, n.start = 0 ∧ n.tag = some "div".toList ∧ n.closed = true := by
  have tokens : tokensOf .empty namelessEndTag =
      [⟨.startTagOpen, ⟨0, 1⟩, ['<'], none⟩, ⟨.startTag, ⟨1, 4⟩, "div".toList, none⟩,
        ⟨.startTagClose, ⟨4, 5⟩, ['>'], none⟩, ⟨.content, ⟨5, 8⟩, "\n  ".toList, none⟩,
        ⟨.endTagOpen, ⟨8, 10⟩, "</".toList, none⟩, ⟨.eof, ⟨10, 10⟩, [], none⟩] := by
    decide +kernel
  have nodes : (parse .empty namelessEndTag).nodes.toList.map (fun n => (n.tag, n.startTagEnd)) =
      [(none, none), (some "div".toList, some 5)] := by
    decide +kernel
  have stack : openAt .empty namelessEndTag 8 = [1] := by decide +kernel
  have start : ((parse .empty namelessEndTag).node 1).start = 0 := by decide +kernel
  have admits : AdmitsEndTag .empty namelessEndTag 8 "div".toList 0 := by
    refine ⟨⟨⟨.endTagOpen, ⟨8, 10⟩, "</".toList, none⟩, by simp [tokens], rfl, .inr rfl⟩, ?_, ?_, ?_⟩
    · intro n mem _ named
      have entry := List.mem_map_of_mem (f := fun n : Node => (n.tag, n.startTagEnd))
        (Array.mem_toList_iff.mpr mem)
      rw [nodes, named] at entry
      simp at entry
      simp [entry]
    · intro i mem inside
      rw [stack, List.mem_singleton] at mem
      rw [mem, start] at inside
      exact absurd inside (Nat.lt_irrefl 0)
    · exact fun own ends => absurd ends.isEmbedded Bool.false_ne_true
  have found : (parse .empty namelessEndTag).nodeBefore 10 = some 1 := by decide +kernel
  have place : (Cursor.locate .empty namelessEndTag
      ((parse .empty namelessEndTag).node 1).start 10).place.endTagName? = some (⟨9, 10⟩, false) := by
    decide +kernel
  have ancestor : CompletionRequest.openAncestor?
      ⟨namelessEndTag, parse .empty namelessEndTag, 10, .empty, {}, 1⟩ false =
        some ("div".toList, 0) := by
    decide +kernel
  exact ⟨by decide +kernel,
    complete_closes equalsIgnoringCase_self (by decide) found place ancestor admits⟩

/-- An end tag that is not aligned with its start tag, and not complete either. -/
def misalignedEndTag : Text := "<div>\n  </di>".toList

/-- **In the name of an end tag that is to be aligned** the proposal keeps the rest of the name, so the
element is not closed. -/
theorem complete_misaligned :
    ((parse .empty misalignedEndTag).complete misalignedEndTag .empty {} 10).map
        (·.map fun s => (s.label, TextEdit.applyTo? ⟨s.replace, s.insertText⟩ misalignedEndTag)) =
      .ok [("/div".toList, some "<div>\n</divdi>".toList)] ∧
    (parse .empty "<div>\n</divdi>".toList).nodes.toList.map (fun n => (n.start, n.tag, n.closed)) =
      [(0, none, true), (0, some "div".toList, false)] := by
  refine ⟨?_, ?_⟩
  · decide +kernel
  · decide +kernel

end Document

end MarkupAnalysis
