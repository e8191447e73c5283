import MarkupAnalysis.Proofs.Document.BodyOwner
import MarkupAnalysis.Proofs.Document.Recovery
import MarkupAnalysis.Proofs.Document.Reindenting
import MarkupAnalysis.Proofs.Token.Names

/-! # An end tag in place of a tag

Where a tag opens, the end tag of an open element closes that element, if no element inside it answers to
the name. What stood behind the bracket does not matter.

* **`Document.start_parse_of_passes`** — elements start where they did when they were opened.
* **`Tokenizer.endTag_of_ahead`** — an end tag comes next.
* **`Builder.OpenTo`** — an element that the end tag of its name would close.
* **`Document.BodyEndsAt`** — an opaque body in front of a bracket.
* **`Document.closed_of_endTag`** — the end tag closes it. -/

namespace MarkupAnalysis

open Text

/-- An end tag ends a body at once. -/
theorem embeddedBodyLength_of_isEndTagOf {tag t : Text} (ends : isEndTagOf tag t = true) :
    embeddedBodyLength (some tag) t = 0 := by
  rw [embeddedBodyLength]
  dsimp only [Option.getD]
  split_ifs
  · exact scriptBodyLength_of_isEndTagOf ends rfl
  · cases t with
    | nil => rfl
    | cons c t => rw [lengthUntil, if_pos ends]

/-- What a text starts with it starts with however it goes on. -/
theorem startsWithIgnoringCase_append {word t : Text} (starts : startsWithIgnoringCase word t = true)
    (rest : Text) : startsWithIgnoringCase word (t ++ rest) = true := by
  rw [startsWithIgnoringCase_iff] at starts ⊢
  have goes_on : lower (t ++ rest) = lower t ++ lower rest := List.map_append
  rw [goes_on]
  exact starts.trans (List.prefix_append _ _)

namespace Tokenizer

variable {s : Tokenizer} {tag rest : Text}

/-- **An end tag comes next**: its `</` and its name. Where a body may come it has to end the body. -/
theorem endTag_of_ahead (name : IsTagName tag) (stops : EndsTagName rest)
    (ahead : s.ahead = '<' :: '/' :: (tag ++ rest)) (between : s.mode.betweenTags)
    (body : s.mode = .embeddedContent →
      ∃ own, s.memory.embeddedTag = some own ∧ isEndTagOf own s.ahead = true) :
    s.token.kind = .endTagOpen ∧ s.rest.token.kind = .endTag ∧ s.rest.token.text = tag := by
  have some_ahead : s.ahead ≠ [] := by
    rw [ahead]
    nofun
  have reading : s.reading = readContent s.memory s.ahead := by
    cases mode : s.mode with rw [mode] at between
    | content => rw [reading_eq some_ahead, mode, readToken]
    | embeddedContent =>
      obtain ⟨own, embedded, ends⟩ := body mode
      rw [reading_of_body mode some_ahead embedded, embeddedBodyLength_of_isEndTagOf ends]
      rfl
    | _ => cases between
  rw [ahead] at reading
  have opening : s.reading = ⟨.endTagOpen, 2, .endTagOpened, s.memory, none⟩ := reading
  have behind : s.rest.ahead = tag ++ rest := by
    rw [Tokenizer.rest, opening, ahead]
    rfl
  have mode : s.rest.mode = .endTagOpened := by
    rw [Tokenizer.rest, opening]
  have some_behind : s.rest.ahead ≠ [] := by
    rw [behind]
    exact List.append_ne_nil_of_left_ne_nil (List.length_pos_iff.mp name.length_pos) rest
  have own : s.rest.reading = ⟨.endTag, tag.length, .endTag, s.rest.memory, none⟩ := by
    rw [reading_eq some_behind, mode, readToken, behind, readEndTagOpened_name name stops]
  refine ⟨congrArg Reading.kind opening, congrArg Reading.kind own, ?_⟩
  exact (text_of_length_eq behind (congrArg Reading.length own)).1

end Tokenizer

/-- **An element that an end tag of a name closes**: it is open, and of the elements inside it none answers
to the name. -/
structure Builder.OpenTo (v : Vocabulary) (b : Builder) (tag : Text) (id : NodeId) (inner outer : List NodeId) :
    Prop where
  /-- It is open. -/
  split : b.openElements = inner ++ id :: outer
  /-- It has the name. -/
  named : (b.node id).tag = some tag
  /-- It answers to it. -/
  answers : v.tagNamesMatch tag tag = true
  /-- No element inside it does. -/
  apart : ∀ i ∈ inner, ∀ own, (b.node i).tag = some own → v.tagNamesMatch own tag = false

/-- Builders of two texts have the same open elements. -/
theorem Builder.OpenTo.of_moves {v : Vocabulary} {b b' : Builder} {tag : Text} {id : NodeId}
    {inner outer : List NodeId} {σ : Nat → Nat} {length frontier : Nat} (h : b.OpenTo v tag id inner outer)
    (nested : b.Nested length frontier) (moves : b.Moves σ (fun _ tag => tag) b') :
    b'.OpenTo v tag id inner outer := by
  have tag_eq {i : NodeId} (mem : i ∈ b.openElements) : (b'.node i).tag = (b.node i).tag :=
    (moves.tag_eq (nested.lt_size mem)).trans Option.map_id_apply
  refine ⟨moves.openElements.trans h.split, (tag_eq (by simp [h.split])).trans h.named, h.answers, ?_⟩
  intro i mem own named
  exact h.apart i mem own ((tag_eq (by simp [h.split, mem])).symm.trans named)

namespace Document

variable {v : Vocabulary} {t t' : Text} {s : Tokenizer} {passed : List Token} {id : NodeId}
  {inner outer : List NodeId} {tag before blanks blanks' rest after : Text}

/-! ## Elements and their starts -/

/-- The elements of the tree are those that have been opened, and later ones. -/
theorem starts_parse_of_passes (h : (scanner v t).Passes passed s) :
    (parse v t).nodes.toList.map (·.start) = (built v t passed).nodes.toList.map (·.start) ++
      (s.tokens.filter (·.kind = .startTagOpen)).map (·.span.start) := by
  have tokens : tokensOf v t = passed ++ s.tokens := h.tokens_eq
  rw [starts_parse, tokens, List.filter_append, List.map_append, ← Builder.starts_eq, built,
    Builder.starts_foldl, blank, Builder.starts_eq]
  rfl

/-- **Elements start** where they did when they were opened. -/
theorem start_parse_of_passes (h : (scanner v t).Passes passed s) (known : id < (built v t passed).nodes.size) :
    id < (parse v t).nodes.size ∧ ((parse v t).node id).start = ((built v t passed).node id).start := by
  have entry := congrArg (·[id]?) (starts_parse_of_passes h)
  rw [List.getElem?_append_left (by simpa using known), List.getElem?_map, List.getElem?_map,
    Array.getElem?_toList, Array.getElem?_toList, Array.getElem?_eq_getElem known, Option.map_some] at entry
  obtain ⟨n, found, same⟩ := Option.map_eq_some_iff.mp entry
  refine ⟨(Array.getElem?_eq_some_iff.mp found).1, ?_⟩
  rw [node, found, Builder.node, Array.getElem?_eq_getElem known]
  exact same

/-! ## The end tag -/

/-- The end tag that comes next closes the element. -/
theorem closed_of_next (h : (scanner v t).Passes passed s)
    (opened : (built v t passed).OpenTo v tag id inner outer) (opening : s.token.kind = .endTagOpen)
    (name : s.rest.token.kind = .endTag) (text : s.rest.token.text = tag) :
    ((parse v t).node id).closed = true := by
  have passes := h.concat (Tokenizer.ahead_ne_nil opening (by decide))
  have endTag : EndTagIn (tokensOf v t) (passed ++ [s.token]) s.position s.rest.token := by
    refine ⟨?_, name, passed, s.token, [], rfl, opening, Tokenizer.text_of_endTagOpen opening, rfl, nofun⟩
    exact ⟨_, (passes.concat (Tokenizer.ahead_ne_nil name (by decide))).tokens_eq.symm⟩
  have same : built v t (passed ++ [s.token]) = (built v t passed).openEndTag s.token.span.start := by
    rw [built_concat, Builder.take, opening]
  have closes : (built v t (passed ++ [s.token])).Closes v s.rest.token inner id outer := by
    rw [same]
    refine ⟨opened.split, ?_, ⟨tag, opened.named, text ▸ opened.answers⟩⟩
    rintro i mem ⟨own, named, answers⟩
    rw [text, opened.apart i mem own named] at answers
    cases answers
  exact (endTag.endTagCloses closes).paired.2.2

/-- **An opaque body ends at an offset**, possibly an empty one: that of the start tag which is remembered
there. -/
def BodyEndsAt (v : Vocabulary) (t : Text) (offset : Nat) (own : Text) : Prop :=
  ∃ passed s, (scanner v t).Passes passed s ∧ s.position = offset ∧ s.memory.tag = own ∧
    (s.mode = .embeddedContent ∨ ∃ token, passed.getLast? = some token ∧ token.kind = .embeddedContent)

/-- Only embedded tags have opaque bodies. -/
theorem BodyEndsAt.isEmbedded {offset : Nat} {own : Text} (h : BodyEndsAt v t offset own) :
    v.isEmbeddedContent own = true := by
  obtain ⟨passed, s, passes, -, rfl, body⟩ := h
  obtain ⟨-, -, embedded, -⟩ := (bodyOwner_built passes).1.body body
  exact embedded

/-- **An end tag in place of a tag** closes the element that it is to close, whatever stood behind the bracket
and whatever blanks stood before it. A body that ends at the bracket ends at this end tag too. -/
theorem closed_of_endTag (h : (scanner v t).Passes passed s) (alike : StartAlike blanks blanks')
    (opens : s.ahead = '<' :: rest) (between : s.mode.betweenTags)
    (text : passed.flatMap (·.text) = before ++ blanks)
    (body : ∀ own, BodyEndsAt v t s.position own → startsWithIgnoringCase own tag = true)
    (opened : (built v t passed).OpenTo v tag id inner outer) (name : IsTagName tag)
    (stops : EndsTagName after) (edited : t' = before ++ (blanks' ++ '<' :: '/' :: (tag ++ after))) :
    id < (parse v t').nodes.size ∧
      ((parse v t').node id).start =
        moveEnd s.position (byteLength (before ++ blanks')) ((built v t passed).node id).start ∧
      ((parse v t').node id).tag = some tag ∧ ((parse v t').node id).closed = true := by
  subst edited
  have ends (at_body : s.mode = .embeddedContent ∨
      ∃ token, passed.getLast? = some token ∧ token.kind = .embeddedContent) :
      isEndTagOf s.memory.tag ('<' :: '/' :: (tag ++ after)) = true :=
    startsWithIgnoringCase_append (body _ ⟨passed, s, h, rfl, rfl, at_body⟩) after
  obtain ⟨passed', passes, moves⟩ := reindented h alike opens between text fun last => ends (.inr last)
  generalize before ++ (blanks' ++ '<' :: '/' :: (tag ++ after)) = t' at passes moves ⊢
  generalize byteLength (before ++ blanks') = position at passes moves ⊢
  obtain ⟨frontier, -, nested⟩ := (stands_built h).exists_nested
  have known : id < (built v t passed).nodes.size := nested.lt_size (by simp [opened.split])
  have opened' := opened.of_moves nested moves
  obtain ⟨opening, kind, own_name⟩ := Tokenizer.endTag_of_ahead
    (s := s.moveTo position ('<' :: '/' :: (tag ++ after))) name stops rfl between
    (fun mode => ⟨_, ((bodyOwner_built h).2.body mode).1, ends (.inl mode)⟩)
  obtain ⟨stop, node⟩ := moves.node id known
  obtain ⟨known', start⟩ := start_parse_of_passes passes (moves.size ▸ known)
  refine ⟨known', ?_, ?_, closed_of_next passes opened' opening kind own_name⟩
  · rw [start, node]
    rfl
  · obtain ⟨own_tag, named, rfl⟩ := Option.map_eq_some_iff.mp opened'.named
    rw [Node.tag, name_parse passes named]
    rfl

end Document

end MarkupAnalysis
