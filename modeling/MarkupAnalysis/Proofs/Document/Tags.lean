import MarkupAnalysis.Proofs.Document.Marks
import MarkupAnalysis.Proofs.Document.Steps
import MarkupAnalysis.Proofs.Token.Spelling

/-! # Tags stand where their offsets say

The offsets of an element point at its tags in the text: at the brackets, at the names and at nothing but
blanks between them.

* **`Node.TagsStandIn`**, **`EndTag.StandsIn`** — what stands at the offsets of an element.
* **`Builder.TagsStandIn`** — the invariant by modes; the tag that is being read stands there as far as it
  goes.
* **`Builder.TagsStandIn.of_nodeStep`**, **`Builder.TagsStandIn.take`** — every token keeps it.
* **`parse_tagsStand`** — the tags of every text stand where the offsets of its tree say. -/

namespace MarkupAnalysis

open Text Document

/-! ## What stands at the offsets -/

/-- **An end tag stands in the text**, and the element ends with it. -/
structure EndTag.StandsIn (v : Vocabulary) (t : Text) (tag : Option Text) (stop : Nat) (e : EndTag) :
    Prop where
  /-- It starts with `</`. -/
  opens : t.slice? ⟨e.start, e.start + 2⟩ = some "</".toList
  /-- Only blanks stand before its name. -/
  blank : t.BlankBetween (e.start + 2) e.nameSpan.start
  /-- Its name matches the tag of the element. -/
  name : ∃ tag' name, tag = some tag' ∧ t.slice? e.nameSpan = some name ∧
    v.tagNamesMatch tag' name = true
  /-- Behind its name stand only blanks and at most one bracket. -/
  closes : ∃ blanks bracket, t.slice? ⟨e.nameSpan.stop, stop⟩ = some (blanks ++ bracket) ∧
    (∀ c ∈ blanks, isAsciiBlank c = true) ∧ (bracket = [] ∨ bracket = ['>'])

/-- **The tags of an element stand in the text.** -/
structure Node.TagsStandIn (v : Vocabulary) (t : Text) (n : Node) : Prop where
  /-- The element starts with the `<` of a start tag. -/
  opens : ∃ rest, t.dropBytes? n.start = some ('<' :: rest) ∧
    rest.head? ≠ some '/' ∧ rest.head? ≠ some '!'
  /-- The name stands where its span says, and only blanks stand before it. -/
  name : ∀ name, n.name = some name →
    t.slice? name.span = some name.text ∧ IsTagName name.text ∧
      t.BlankBetween (n.start + 1) name.span.start
  /-- The start tag ends with `>`, or with `/>` if it is the whole element. -/
  startTagEnd : ∀ stop, n.startTagEnd = some stop →
    t.slice? ⟨stop - 1, stop⟩ = some ['>'] ∧
      (n.selfClosing = true → t.slice? ⟨stop - 2, stop⟩ = some "/>".toList)
  /-- The end tag stands where its offsets say. -/
  endTag : ∀ e, n.endTag = some e → e.StandsIn v t n.tag n.stop

/-- The end of an element without an end tag has no part in its tags. -/
theorem Node.TagsStandIn.of_no_endTag {v : Vocabulary} {t : Text} {n : Node} (h : n.TagsStandIn v t)
    (no_endTag : n.endTag = none) (stop : Nat) (closed : Bool) :
    { n with stop, closed }.TagsStandIn v t :=
  ⟨h.opens, h.name, h.startTagEnd, fun _ met => absurd (no_endTag.symm.trans met) nofun⟩

namespace Builder

variable {v : Vocabulary} {t : Text} {b : Builder} {s : Tokenizer} {id : NodeId} {n : Node}
  {length : Nat}

/-- **The tags between two tokens**, by the mode that the next one is read in. -/
structure TagsStandIn (v : Vocabulary) (t : Text) (m : Mode) (position : Nat) (b : Builder) : Prop where
  /-- The tags of all elements stand in the text. -/
  nodes : ∀ id < b.nodes.size, id ≠ root → (b.node id).TagsStandIn v t
  /-- After the `<` of a start tag there are blanks. -/
  startTag : m = .startTagOpened → ∀ id, b.startTag = some id →
    t.BlankBetween ((b.node id).start + 1) position
  /-- After the `</` of an end tag there are blanks. -/
  endTag : m = .endTagOpened → ∀ start, b.endTagStart = some start →
    t.slice? ⟨start, start + 2⟩ = some "</".toList ∧ t.BlankBetween (start + 2) position
  /-- After the name of an end tag there are blanks. -/
  ended : m = .endTag → ∀ id, b.ended = some id →
    ∃ e, (b.node id).endTag = some e ∧ t.BlankBetween e.nameSpan.stop position

namespace TagsStandIn

/-- **Every way of changing a node** keeps its tags in the text. -/
theorem of_nodeStep (so_far : b.TagsStandIn v t s.mode s.position) (here : s.At t)
    (stands : b.Stands length s.mode s.position) (marked : b.Marked v s.mode) (off_root : id ≠ root)
    (step : b.NodeStep v length s.token id n) : n.TagsStandIn v t := by
  obtain ⟨frontier, -, nested⟩ := stands.exists_nested
  have known_reading (reading : b.startTag = some id) :=
    so_far.nodes id (nested.reading id reading).1 off_root
  have no_endTag {tag : Option Text} {stop : Nat} {endTag : Option EndTag} (h : endTag = none) :
      ∀ e, endTag = some e → e.StandsIn v t tag stop :=
    fun e met => absurd (h.symm.trans met) nofun
  cases step with
  | keeps known => exact so_far.nodes id known off_root
  | adopts _ known =>
    have h := so_far.nodes id known off_root
    exact ⟨h.opens, h.name, h.startTagEnd, h.endTag⟩
  | opens kind => exact ⟨here.exists_dropBytes?_of_startTagOpen kind, nofun, nofun, nofun⟩
  | names kind reading =>
    have h := known_reading reading
    refine ⟨h.opens, ?_, h.startTagEnd, no_endTag (nested.reading id reading).2.2.2.2.1⟩
    rintro name named
    obtain rfl := Option.some.inj named
    exact ⟨here.slice, (Tokenizer.name_of_startTag kind).1,
      so_far.startTag (Tokenizer.mode_of_startTag kind) id reading⟩
  | interrupts _ reading =>
    exact (known_reading reading).of_no_endTag (nested.reading id reading).2.2.2.2.1 _ _
  | endsStartTag kind reading some_text =>
    have h := known_reading reading
    have not_selfClosing := (marked.reading id reading).1
    refine ⟨h.opens, h.name, ?_, no_endTag (nested.reading id reading).2.2.2.2.1⟩
    rintro stop ends
    obtain rfl := Option.some.inj ends
    exact ⟨here.slice_of_startTagClose kind some_text,
      fun selfClosing => absurd (not_selfClosing.symm.trans selfClosing) nofun⟩
  | selfCloses kind reading =>
    have h := known_reading reading
    refine ⟨h.opens, h.name, ?_, no_endTag (nested.reading id reading).2.2.2.2.1⟩
    rintro stop ends
    obtain rfl := Option.some.inj ends
    exact ⟨(here.slice_of_startTagSelfClose kind).1, fun _ => (here.slice_of_startTagSelfClose kind).2⟩
  | addsAttribute _ reading | addsValue _ reading =>
    have h := known_reading reading
    exact ⟨h.opens, h.name, h.startTagEnd, h.endTag⟩
  | cutsOff _ start mem =>
    exact (so_far.nodes id (nested.lt_size mem) off_root).of_no_endTag (nested.unclosed id mem).1 _ _
  | closes kind opening mem answers =>
    have h := so_far.nodes id (nested.lt_size mem) off_root
    refine ⟨h.opens, h.name, h.startTagEnd, ?_⟩
    rintro e met
    obtain rfl := Option.some.inj met
    obtain ⟨opens, blank⟩ := so_far.endTag (Tokenizer.mode_of_endTag kind) _ opening
    -- The tag has no bracket yet: its end is that of the name.
    obtain ⟨tag, named, matched⟩ := answers
    exact ⟨opens, blank, ⟨tag, s.token.text, named, here.slice, matched⟩,
      [], [], slice?_empty here.rest.isBoundary, nofun, .inl rfl⟩
  | endsEndTag kind ended =>
    obtain ⟨mode, just_ended⟩ := stands.justEnded_of_endTagClose kind ended
    have h := so_far.nodes id just_ended.inside off_root
    refine ⟨h.opens, h.name, h.startTagEnd, ?_⟩
    rintro e met
    -- The bracket comes behind the blanks that have been read since the name.
    obtain ⟨e', met', blanks, slice, blank⟩ := so_far.ended mode id ended
    obtain rfl : e' = e := Option.some.inj (met'.symm.trans met)
    have known := h.endTag e' met
    exact ⟨known.opens, known.blank, known.name, blanks, s.token.text, slice?_join slice here.slice, blank,
      Tokenizer.text_of_endTagClose kind⟩

/-- Before the first token there is no tag. -/
theorem start (length position : Nat) : (Builder.start length).TagsStandIn v t .content position where
  nodes := by
    intro id inside off_root
    exact absurd (Nat.lt_one_iff.mp inside) off_root
  startTag := nofun
  endTag := nofun
  ended := nofun

/-- **Every token keeps the tags in the text.** -/
theorem take (so_far : b.TagsStandIn v t s.mode s.position) (here : s.At t) (some_ahead : s.ahead ≠ [])
    (stands : b.Stands length s.mode s.position) (marked : b.Marked v s.mode) :
    (b.take v length s.token).TagsStandIn v t s.rest.mode s.rest.position := by
  obtain ⟨frontier, -, nested⟩ := stands.exists_nested
  have reads := Tokenizer.reads some_ahead
  refine ⟨?nodes, ?startTag, ?endTag, ?ended⟩
  case nodes =>
    intro id inside off_root
    exact so_far.of_nodeStep here stands marked off_root (nodeStep_take nested v s.token inside)
  case startTag =>
    intro mode id reading
    rw [mode] at reads
    rcases reads.to_startTagOpened with kind | ⟨kind, before⟩
    · rw [Builder.take, kind] at reading ⊢
      obtain rfl : b.nodes.size = id := Option.some.inj reading
      rw [node_openElement_size nested.current_lt_size]
      -- The place is right behind the bracket.
      have behind : s.rest.position = s.position + 1 :=
        Tokenizer.position_rest_of_text (Tokenizer.text_of_startTagOpen kind).1
      show t.BlankBetween (s.position + 1) s.rest.position
      rw [← behind]
      exact .refl here.rest.isBoundary
    · rw [take_filler (.inl kind)] at reading ⊢
      exact (so_far.startTag before id reading).join (here.blankBetween kind)
  case endTag =>
    intro mode start opening
    rw [mode] at reads
    rcases reads.to_endTagOpened with kind | ⟨kind, before⟩
    · rw [Builder.take, kind] at opening
      obtain rfl : s.position = start := Option.some.inj opening
      have brackets := here.slice
      rw [Tokenizer.text_of_endTagOpen kind] at brackets
      have behind : s.rest.position = s.position + 2 :=
        Tokenizer.position_rest_of_text (Tokenizer.text_of_endTagOpen kind)
      rw [← behind]
      exact ⟨brackets, .refl here.rest.isBoundary⟩
    · rw [take_filler (.inl kind)] at opening
      obtain ⟨opens, blank⟩ := so_far.endTag before start opening
      exact ⟨opens, blank.join (here.blankBetween kind)⟩
  case ended =>
    intro mode id ended
    rw [mode] at reads
    rcases reads.to_endTag with ⟨before, kind | kind⟩ | ⟨kind, before⟩
    · rw [before] at stands
      rw [Builder.take, kind] at ended ⊢
      obtain ⟨start, n, node⟩ := node_of_ended_endElement stands.2.1 ended
      exact ⟨⟨start, s.token.span⟩, congrArg Node.endTag node, .refl here.rest.isBoundary⟩
    · rw [before] at stands
      rw [take_filler (.inr (.inl kind))] at ended
      cases stands.2.1.symm.trans ended
    · rw [take_filler (.inl kind)] at ended ⊢
      obtain ⟨e, met, blank⟩ := so_far.ended before id ended
      exact ⟨e, met, blank.join (here.blankBetween kind)⟩

end TagsStandIn

end Builder

/-! ## Whole texts -/

namespace Document

/-- The tags after some of the tokens of a text. -/
theorem tagsStand_built {v : Vocabulary} {t : Text} {s : Tokenizer} {passed : List Token}
    (h : (scanner v t).Passes passed s) : (built v t passed).TagsStandIn v t s.mode s.position := by
  refine h.along (P := fun passed s => (built v t passed).TagsStandIn v t s.mode s.position) ?_ ?_
  · rw [scanner_eq]
    exact .start t.byteLength 0
  · intro passed s passes some_ahead so_far
    rw [built_concat]
    exact so_far.take (passes.at_of_at (scanner_at v t)) some_ahead (stands_built passes)
      (marked_built passes)

/-- **The tags of a tree stand in the text** where the offsets of its elements say. -/
structure TagsStand (v : Vocabulary) (t : Text) (d : Document) : Prop where
  /-- The tags of every element stand in the text. -/
  element : ∀ id < d.nodes.size, id ≠ root → (d.node id).TagsStandIn v t

/-- The tags of an element of a text stand where its offsets say. -/
theorem tagsStandIn_parse {v : Vocabulary} {t : Text} {id : NodeId}
    (inside : id < (parse v t).nodes.size) (off_root : id ≠ root) :
    ((parse v t).node id).TagsStandIn v t := by
  obtain ⟨passed, s, passes, ended, -⟩ := (scanner v t).exists_passes
  obtain ⟨frontier, -, nested⟩ := (stands_built passes).exists_nested
  rw [size_parse_of_ended passes ended] at inside
  have known := (tagsStand_built passes).nodes id inside off_root
  rw [node_parse_of_ended passes ended]
  split
  · -- What is cut off has no end tag.
    rename_i mem
    exact known.of_no_endTag (nested.unclosed id mem).1 _ _
  · exact known

end Document

/-- **The tags of every text stand where the offsets of its tree say.** -/
theorem parse_tagsStand (v : Vocabulary) (t : Text) : (parse v t).TagsStand v t :=
  ⟨fun _ => tagsStandIn_parse⟩

end MarkupAnalysis
