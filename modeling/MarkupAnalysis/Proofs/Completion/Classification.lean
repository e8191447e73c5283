import MarkupAnalysis.Proofs.Completion.Staleness
import MarkupAnalysis.Proofs.Document.Locating
import MarkupAnalysis.Proofs.Document.Resumption
import MarkupAnalysis.Proofs.Token.Interruption

/-! # Completion and the tokens of the document

Completion cuts the text into tokens anew, from the start of the node before the cursor and without the
closing tokens that documents are built with. Up to a tag that is interrupted these are the tokens of the
document, so the cursor is in the same token for both. Behind an interrupted tag they are not: there
completion is still in the tag.

* **`Cursor.find_of_passes`** — tokens that end before the cursor are passed over.
* **`TokenKind.isProse`**, **`Cursor.place_find_of_prose`**, **`Cursor.place_find_of_endTag`** — the place
  in text that is no markup, and in the name of an end tag.
* **`Document.exists_cursor`** — the token of the document is the one that the cursor is found in.
* **`exists_candidate_of_mem_rank`**, **`exists_mem_rank`** — ranking changes nothing but the score.
* **`Document.complete_classifies`** — where no tag is interrupted, completion follows the document.
* **`Document.complete_interrupted`** — behind an interrupted tag it does not. -/

namespace MarkupAnalysis

open Text Document

/-! ## The cursor among tokens -/

/-- Text in which there is nothing to complete. -/
def TokenKind.isProse : TokenKind → Bool
  | content | comment | doctype | embeddedContent => true
  | _ => false

namespace Cursor

variable {t : Text} {s s' : Tokenizer} {offset : Nat} {tag : Option Text} {token : Token}

/-- A token that ends before the cursor is not the place. -/
theorem place?_eq_none (before : token.span.stop < offset) (after : Tokenizer)
    (rest : List (Token × Tokenizer)) : place? t offset tag token after rest = none := by
  have outside : ¬ offset ≤ token.span.stop := Nat.not_le.mpr before
  have apart : token.span.stop ≠ offset := Nat.ne_of_lt before
  have untouched : token.span.touches offset = false := by simp [Span.touches, outside]
  unfold place?
  cases token.kind <;> simp [outside, apart, untouched]

/-- A token that starts before the cursor is looked at. If it is not the place, the search goes on. -/
theorem find_eq (some_ahead : s.ahead ≠ []) (starts : s.token.span.start ≤ offset)
    (tag attributeName : Option Text) : find t offset tag attributeName s.trace =
      match place? t offset tag s.token s.rest s.rest.trace with
      | some place => { place, tag, attributeName }
      | none => find t offset (if s.token.kind = .startTag then some s.token.text else tag)
          (if s.token.kind = .attributeName then some s.token.text else attributeName) s.rest.trace := by
  have not_end : s.token.kind ≠ .eof := mt Tokenizer.token_kind_eq_eof_iff.mp some_ahead
  have reached : ¬ offset < s.token.span.start := Nat.not_lt.mpr starts
  rw [Tokenizer.trace_of_ahead_ne_nil some_ahead, Tokenizer.advance, find]
  exact if_neg (by simp [not_end, reached])

/-- **Tokens that end before the cursor are passed over.** -/
theorem find_of_passes {passed : List Token} (passes : s.Passes passed s')
    (before : ∀ token ∈ passed, token.span.stop < offset) (tag attributeName : Option Text) :
    ∃ tag' attributeName', find t offset tag attributeName s.trace =
      find t offset tag' attributeName' s'.trace := by
  induction passes generalizing tag attributeName with
  | here => exact ⟨tag, attributeName, rfl⟩
  | @step s s' passed some_ahead further ih =>
    have ends : s.token.span.stop < offset := before _ List.mem_cons_self
    have starts : s.token.span.start ≤ s.token.span.stop := Tokenizer.position_le_rest
    rw [find_eq some_ahead (Nat.le_of_lt (Nat.lt_of_le_of_lt starts ends)), place?_eq_none ends]
    exact ih (fun token mem => before token (List.mem_cons_of_mem _ mem)) _ _

/-- The place of a cursor in the next token is the place at this token, if there is one. -/
theorem place_find {place : Place} (tag attributeName : Option Text) (starts : s.token.span.start < offset)
    (ends : offset ≤ s.token.span.stop)
    (found : ∀ rest, place? t offset tag s.token s.rest rest = some place) :
    (find t offset tag attributeName s.trace).place = place := by
  have some_ahead : s.ahead ≠ [] :=
    (Tokenizer.some_ahead_of_some_text (Nat.lt_of_lt_of_le starts ends)).1
  rw [find_eq some_ahead (Nat.le_of_lt starts), found]

/-- **In text that is no markup** there is no place for proposals. -/
theorem place_find_of_prose (tag attributeName : Option Text) (prose : s.token.kind.isProse = true)
    (starts : s.token.span.start < offset) (ends : offset ≤ s.token.span.stop) :
    (find t offset tag attributeName s.trace).place = .elsewhere := by
  refine place_find tag attributeName starts ends fun rest => ?_
  unfold place?
  cases kind : s.token.kind with rw [kind] at prose
  | content | comment | doctype | embeddedContent => exact if_pos ends
  | _ => cases prose

/-- **In the name of an end tag** there is a place for end tags. -/
theorem place_find_of_endTag (tag attributeName : Option Text) (kind : s.token.kind = .endTag)
    (opened : s.Opened t) (starts : s.token.span.start < offset) (ends : offset ≤ s.token.span.stop) :
    ∃ name, (find t offset tag attributeName s.trace).place = .endTag name := by
  obtain ⟨opening, opens⟩ := opened.endTag (Tokenizer.mode_of_endTag kind)
  refine ⟨⟨opening + 1, s.token.span.stop⟩, place_find tag attributeName starts ends fun rest => ?_⟩
  unfold place?
  rw [kind]
  dsimp only
  rw [if_pos ends, Tokenizer.token_span, slashBefore?_eq opens]
  rfl

end Cursor

/-! ## From the node before the cursor -/

/-- A passage does not go back. -/
theorem Tokenizer.Passes.position_le {s s' : Tokenizer} {passed : List Token} (h : s.Passes passed s') :
    s.position ≤ s'.position := by
  induction h with
  | here => exact Nat.le_refl _
  | step _ _ ih => exact Nat.le_trans position_le_rest ih

/-- A passage goes over tokens between its two places. -/
theorem Tokenizer.Passes.bounds {s s' : Tokenizer} {passed : List Token} {token : Token}
    (h : s.Passes passed s') (mem : token ∈ passed) :
    s.position ≤ token.span.start ∧ token.span.stop ≤ s'.position := by
  induction h with
  | here => cases mem
  | step some_ahead further ih =>
    rcases List.mem_cons.mp mem with rfl | later
    · exact ⟨Nat.le_refl _, further.position_le⟩
    · exact ⟨Nat.le_trans position_le_rest (ih later).1, (ih later).2⟩

namespace Document

variable {v : Vocabulary} {t : Text} {id : NodeId} {offset : Nat} {token : Token}

/-- The node before an offset is the root, or an element that starts before it. -/
theorem of_nodeBefore (found : (parse v t).nodeBefore offset = some id) :
    id = root ∨ (parse v t).IsElement id ∧ (parse v t).StartsBefore offset id := by
  have h := preordered_parse v t
  cases (h.nodeBefore_eq_some_iff.mp found).2 with
  | root => exact .inl rfl
  | inside last => exact .inr ⟨last.element, last.mem⟩
  | ended _ _ _ found => exact .inr ⟨found.element, found.mem.1.1⟩

/-- The scan of a document from the start of a node on. -/
def scannerAt (v : Vocabulary) (t : Text) (id : NodeId) : Tokenizer :=
  (Tokenizer.start v t ((parse v t).node id).start).withPseudoClose true

/-- The tokens from the root on, or from an element that starts before an offset, are tokens of the
document. What ends at the offset or behind it is among them. -/
theorem exists_tokens_split
    (node : id = root ∨ (parse v t).IsElement id ∧ (parse v t).StartsBefore offset id) :
    (scannerAt v t id).position = ((parse v t).node id).start ∧
      ∃ passed, tokensOf v t = passed ++ (scannerAt v t id).tokens ∧
        ∀ token ∈ passed, token.span.stop < offset := by
  rcases node with rfl | ⟨element, before⟩
  · have start : ((parse v t).node root).start = 0 :=
      congrArg Span.start (wellFormed_parse v t).root.2.2.2
    have whole : scannerAt v t root = scanner v t := by rw [scannerAt, start, scanner]
    rw [whole, start]
    exact ⟨by rw [scanner_eq], [], rfl, nofun⟩
  · obtain ⟨rest, opens, -⟩ := (tagsStandIn_parse element.2 element.1).opens
    have position : (scannerAt v t id).position = ((parse v t).node id).start := by
      rw [scannerAt, Tokenizer.start, opens]
      rfl
    obtain ⟨kind, passed, split⟩ := tokens_from_element element.2 element.1
    refine ⟨position, passed, split, fun token mem => ?_⟩
    -- The `<` of the element comes behind what has been passed over.
    have ordered := tokensOf_pairwise v t
    rw [split, Tokenizer.tokens_of_ahead_ne_nil (Tokenizer.ahead_ne_nil kind (by decide))] at ordered
    have apart := (List.pairwise_append.mp ordered).2.2 token mem _ List.mem_cons_self
    exact Nat.lt_of_le_of_lt (Nat.le_trans apart (Nat.le_of_eq position)) before

/-- No tag that is interrupted ends between two offsets. -/
def UninterruptedBetween (v : Vocabulary) (t : Text) (start stop : Nat) : Prop :=
  ∀ token ∈ tokensOf v t, start ≤ token.span.start → token.span.start < stop → ¬ token.Interrupts

/-- **The scan from a node before an offset** comes to the token of the document that is at the offset. -/
theorem exists_passes_scannerAt (mem : token ∈ tokensOf v t) (ends : offset ≤ token.span.stop)
    (node : id = root ∨ (parse v t).IsElement id ∧ (parse v t).StartsBefore offset id) :
    ∃ passed first after s, tokensOf v t = passed ++ (first ++ token :: after) ∧
      (scannerAt v t id).Passes first s ∧ s.token = token ∧ ∀ x ∈ first,
        ((parse v t).node id).start ≤ x.span.start ∧ x.span.stop ≤ token.span.start := by
  obtain ⟨position, passed, split, before⟩ := exists_tokens_split node
  have in_scan : token ∈ (scannerAt v t id).tokens := by
    rw [split, List.mem_append] at mem
    exact mem.resolve_left fun earlier => absurd (before token earlier) (Nat.not_lt.mpr ends)
  obtain ⟨first, after, all⟩ := List.mem_iff_append.mp in_scan
  obtain ⟨s, passes, rfl, -⟩ := Tokenizer.passes_of_tokens_eq all
  refine ⟨passed, first, after, s, by rw [split, all], passes, rfl, fun x x_mem => ⟨?_, ?_⟩⟩
  · rw [← position]
    exact (passes.bounds x_mem).1
  · exact (passes.bounds x_mem).2

/-- Completion scans from the start of the node as the document does, but without closing tokens. -/
theorem scannerAt_withPseudoClose (v : Vocabulary) (t : Text) (id : NodeId) :
    (scannerAt v t id).withPseudoClose false = Tokenizer.start v t ((parse v t).node id).start := by
  unfold scannerAt Tokenizer.start
  split <;> rfl

/-- **The scan of completion comes to the token of the document that is at the cursor**, if no token of the
document from the start of the node on interrupts a tag before the cursor. -/
theorem exists_passes_of_smooth (mem : token ∈ tokensOf v t) (starts : token.span.start < offset)
    (ends : offset ≤ token.span.stop)
    (node : id = root ∨ (parse v t).IsElement id ∧ (parse v t).StartsBefore offset id)
    (smooth : ∀ x ∈ (scannerAt v t id).tokens, x.span.start < offset → ¬ x.Interrupts) :
    ∃ passed first after s, tokensOf v t = passed ++ (first ++ token :: after) ∧
      (Tokenizer.start v t ((parse v t).node id).start).Passes first s ∧ s.token = token := by
  obtain ⟨passed, first, after, s, split, passes, rfl, bounds⟩ := exists_passes_scannerAt mem ends node
  -- What is passed over ends before the cursor and interrupts nothing, and nor does the token.
  have first_smooth : ∀ x ∈ first, ¬ x.Interrupts := fun x x_mem => by
    have in_document : x ∈ tokensOf v t := by
      rw [split]
      exact List.mem_append_right _ (List.mem_append_left _ x_mem)
    obtain ⟨-, stops⟩ := bounds x x_mem
    have forwards := (span_of_mem_tokensOf in_document).1
    refine smooth x ?_ (by omega)
    rw [passes.tokens_eq]
    exact List.mem_append_left _ x_mem
  have token_smooth : ¬ s.token.Interrupts :=
    (Tokenizer.some_ahead_of_some_text (Nat.lt_of_lt_of_le starts ends)).2
  have reports : (scannerAt v t id).pseudoClose = true := rfl
  have s_reports : s.pseudoClose = true :=
    passes.preserves (P := fun s => s.pseudoClose = true) (fun _ _ h => h) reports
  have plain := passes.withPseudoClose reports first_smooth
  rw [scannerAt_withPseudoClose] at plain
  exact ⟨passed, first, after, s.withPseudoClose false, split, plain,
    (Tokenizer.step_withPseudoClose s_reports token_smooth).1⟩

/-- The scan of completion comes to that token if no tag is interrupted between the start of the node before
the cursor and the cursor. -/
theorem exists_passes_cursor (mem : token ∈ tokensOf v t) (starts : token.span.start < offset)
    (ends : offset ≤ token.span.stop) (found : (parse v t).nodeBefore offset = some id)
    (smooth : UninterruptedBetween v t ((parse v t).node id).start offset) :
    ∃ passed first after s, tokensOf v t = passed ++ (first ++ token :: after) ∧
      (Tokenizer.start v t ((parse v t).node id).start).Passes first s ∧ s.token = token := by
  have node := of_nodeBefore found
  refine exists_passes_of_smooth mem starts ends node fun x x_mem before => ?_
  obtain ⟨position, passed, split, -⟩ := exists_tokens_split node
  refine smooth x ?_ ?_ before
  · rw [split]
    exact List.mem_append_right _ x_mem
  · obtain ⟨earlier, later, all⟩ := List.mem_iff_append.mp x_mem
    obtain ⟨s, passes, rfl, -⟩ := Tokenizer.passes_of_tokens_eq all
    rw [← position]
    exact passes.position_le

/-- On such a way the brackets of tags are where completion looks for them. -/
theorem opened_of_passes_start {start : Nat} {first : List Token} {s : Tokenizer}
    (h : (Tokenizer.start v t start).Passes first s) : s.Opened t :=
  (h.preserves (P := fun s => s.At t ∧ s.Opened t)
    (fun _ some_ahead h => ⟨h.1.rest, h.2.rest h.1 some_ahead⟩)
    ⟨Tokenizer.at_start v t _, Tokenizer.opened_of_content (Tokenizer.mode_start v t _)⟩).2

/-- The cursor is in the token that a scan comes to if it starts before the cursor. -/
theorem locate_of_passes {start : Nat} {first : List Token} {s : Tokenizer}
    (h : (Tokenizer.start v t start).Passes first s) (starts : s.token.span.start < offset) :
    ∃ tag attributeName, Cursor.locate v t start offset =
      Cursor.find t offset tag attributeName s.trace :=
  Cursor.find_of_passes h (fun _ mem => Nat.lt_of_le_of_lt (h.bounds mem).2 starts) none none

/-- **The token of the document is the one that the cursor is found in**, if no tag is interrupted between
the start of the node before the cursor and the cursor. -/
theorem exists_cursor (mem : token ∈ tokensOf v t) (starts : token.span.start < offset)
    (ends : offset ≤ token.span.stop) (found : (parse v t).nodeBefore offset = some id)
    (smooth : UninterruptedBetween v t ((parse v t).node id).start offset) :
    ∃ s : Tokenizer, s.token = token ∧ s.Opened t ∧ ∃ tag attributeName,
      Cursor.locate v t ((parse v t).node id).start offset =
        Cursor.find t offset tag attributeName s.trace := by
  obtain ⟨-, first, -, s, -, passes, rfl⟩ := exists_passes_cursor mem starts ends found smooth
  exact ⟨s, rfl, opened_of_passes_start passes, locate_of_passes passes starts⟩

end Document

/-! ## Proposals -/

/-- **Ranking changes nothing but the score.** -/
theorem exists_candidate_of_mem_rank {t : Text} {offset : Nat} {candidates : List Candidate}
    {suggestion : Suggestion} (mem : suggestion ∈ rank t offset candidates) :
    ∃ c ∈ candidates, suggestion = { c.suggestion with score := suggestion.score } := by
  obtain ⟨ranked, ranked_mem, rfl⟩ := List.mem_map.mp mem
  obtain ⟨c, c_mem, rfl⟩ := List.mem_map.mp ((List.mergeSort_perm _ _).mem_iff.mp ranked_mem)
  exact ⟨c, c_mem, rfl⟩

/-- What is proposed is among the suggestions, with its score. -/
theorem exists_mem_rank {t : Text} {offset : Nat} {candidates : List Candidate} {c : Candidate}
    (mem : c ∈ candidates) : ∃ suggestion ∈ rank t offset candidates,
      suggestion = { c.suggestion with score := suggestion.score } :=
  ⟨_, List.mem_map_of_mem ((List.mergeSort_perm _ _).mem_iff.mpr (List.mem_map_of_mem mem)), rfl⟩

namespace CompletionRequest

variable {r : CompletionRequest} {name : Span} {close tag : Text} {start : Nat} {c : Candidate}

/-- The end tag of an element is proposed as an end tag, aligned or not. -/
theorem kind_of_closeCandidate (proposed : r.closeCandidate name close tag start = .ok c) :
    c.suggestion.kind = .closeTag := by
  unfold closeCandidate at proposed
  simp only [Except.bind_eq_ok_iff] at proposed
  obtain ⟨startIndent, -, endIndent, -, same⟩ := proposed
  obtain rfl := Except.ok.inj same
  dsimp only
  split
  · split <;> rfl
  · rfl

/-- The end tags of other names replace the name, and none of them is pinned. -/
theorem of_mem_otherCloseCandidates {except : Option Text}
    (mem : c ∈ r.otherCloseCandidates name close except) :
    c.suggestion.kind = .closeTag ∧ c.suggestion.replace = r.replacing name ∧ c.isPinned = false := by
  obtain ⟨tag, -, rfl⟩ := List.mem_map.mp mem
  exact ⟨rfl, rfl, rfl⟩

/-- **An end tag is proposed** for the nearest open element, or it is one of the other names. -/
theorem of_mem_closeTagCandidates {candidates : List Candidate} {inStartTag : Bool}
    (proposed : r.closeTagCandidates name inStartTag = .ok candidates) (mem : c ∈ candidates) :
    (∃ tag start close, r.openAncestor? inStartTag = some (tag, start) ∧
      r.closeCandidate name close tag start = .ok c) ∨
    ∃ close except, c ∈ r.otherCloseCandidates name close except := by
  have of_others {close : Text} {except : Option Text}
      (mem : c ∈ if inStartTag then [] else r.otherCloseCandidates name close except) :
      c ∈ r.otherCloseCandidates name close except := by
    split at mem
    · cases mem
    · exact mem
  unfold closeTagCandidates at proposed
  cases nearest : r.openAncestor? inStartTag with
  | none =>
    rw [nearest] at proposed
    obtain rfl := Except.ok.inj proposed
    exact .inr ⟨_, _, of_others mem⟩
  | some ancestor =>
    -- The end tag of the open element comes first.
    simp only [nearest, Except.bind_eq_ok_iff, Except.map_eq_ok_iff] at proposed
    obtain ⟨-, ⟨first, closes, rfl⟩, same⟩ := proposed
    obtain rfl := Except.ok.inj same
    rcases List.mem_cons.mp mem with rfl | other
    · exact .inl ⟨ancestor.1, ancestor.2, _, rfl, closes⟩
    · exact .inr ⟨_, _, of_others other⟩

/-- **In place of an end tag only end tags are proposed.** -/
theorem kind_of_closeTagCandidates {candidates : List Candidate} {inStartTag : Bool}
    (proposed : r.closeTagCandidates name inStartTag = .ok candidates) (mem : c ∈ candidates) :
    c.suggestion.kind = .closeTag := by
  obtain ⟨tag, start, close, -, closes⟩ | ⟨close, except, other⟩ := of_mem_closeTagCandidates proposed mem
  · exact kind_of_closeCandidate closes
  · exact (of_mem_otherCloseCandidates other).1

end CompletionRequest

namespace Document

/-! ## Completion in a token of the document -/

/-- Completion proposes nothing, or it looks for the cursor from the node before it. -/
theorem complete_cases (d : Document) (t : Text) (v : Vocabulary) (options : CompletionOptions)
    (offset : Nat) : d.complete t v options offset = .ok [] ∨ ∃ id, d.nodeBefore offset = some id ∧
      d.complete t v options offset = (CompletionRequest.candidates ⟨t, d, offset, v, options, id⟩
        (Cursor.locate v t (d.node id).start offset)).map (rank t offset) := by
  unfold complete
  by_cases boundary : t.isBoundary offset = true
  · rw [if_pos boundary]
    cases d.nodeBefore offset with
    | none => exact .inl rfl
    | some id => exact .inr ⟨id, rfl, rfl⟩
  · exact .inl (if_neg boundary)

/-- What completion proposes are the candidates for the cursor from the node before it, ranked. -/
theorem exists_candidates {d : Document} {t : Text} {v : Vocabulary} {options : CompletionOptions}
    {offset : Nat} {suggestions : List Suggestion} {suggestion : Suggestion}
    (answer : d.complete t v options offset = .ok suggestions) (mem : suggestion ∈ suggestions) :
    t.isBoundary offset = true ∧ ∃ id candidates, d.nodeBefore offset = some id ∧
      CompletionRequest.candidates ⟨t, d, offset, v, options, id⟩
        (Cursor.locate v t (d.node id).start offset) = .ok candidates ∧
      suggestions = rank t offset candidates := by
  unfold complete at answer
  split_ifs at answer with boundary
  · refine ⟨boundary, ?_⟩
    cases found : d.nodeBefore offset with
    | none =>
      rw [found] at answer
      obtain rfl := Except.ok.inj answer
      cases mem
    | some id =>
      rw [found] at answer
      obtain ⟨candidates, proposed, ranked⟩ := Except.map_eq_ok_iff.mp answer
      exact ⟨id, candidates, rfl, proposed, ranked.symm⟩
  · obtain rfl := Except.ok.inj answer
    cases mem

/-- **Where no tag is interrupted, completion follows the document.** With the cursor in text that is no
markup nothing is proposed, and with the cursor in the name of an end tag only end tags are proposed. -/
theorem complete_classifies {v : Vocabulary} {t : Text} {offset : Nat} {token : Token}
    (options : CompletionOptions) (mem : token ∈ tokensOf v t) (starts : token.span.start < offset)
    (ends : offset ≤ token.span.stop)
    (smooth : ∀ id, (parse v t).nodeBefore offset = some id →
      UninterruptedBetween v t ((parse v t).node id).start offset) :
    (token.kind.isProse = true → (parse v t).complete t v options offset = .ok []) ∧
    (token.kind = .endTag → ∃ suggestions, (parse v t).complete t v options offset = .ok suggestions ∧
      ∀ suggestion ∈ suggestions, suggestion.kind = .closeTag) := by
  rcases complete_cases (parse v t) t v options offset with answer | ⟨id, found, answer⟩
  · exact ⟨fun _ => answer, fun _ => ⟨[], answer, List.forall_mem_nil _⟩⟩
  obtain ⟨s, rfl, opened, tag, attributeName, located⟩ :=
    exists_cursor mem starts ends found (smooth id found)
  rw [located] at answer
  constructor
  · intro prose
    rw [answer, CompletionRequest.candidates,
      Cursor.place_find_of_prose tag attributeName prose starts ends]
    simp [Except.map, rank]
  · intro kind
    obtain ⟨name, place⟩ := Cursor.place_find_of_endTag tag attributeName kind opened starts ends
    obtain ⟨suggestions, given⟩ := exists_complete v v t options offset
    refine ⟨suggestions, given, fun suggestion mem => ?_⟩
    rw [answer, Except.map_eq_ok_iff] at given
    obtain ⟨candidates, proposed, rfl⟩ := given
    obtain ⟨c, c_mem, same⟩ := exists_candidate_of_mem_rank mem
    rw [CompletionRequest.candidates, place] at proposed
    rw [same]
    exact CompletionRequest.kind_of_closeTagCandidates proposed c_mem

/-- A text without interrupted tags. -/
def closedParagraph : Text := "<p>x</p>".toList

/-- Completion follows the document in the content of the paragraph and in its end tag. -/
theorem complete_classifies_closedParagraph :
    (parse .empty closedParagraph).complete closedParagraph .empty {} 4 = .ok [] ∧
    ∃ suggestions, (parse .empty closedParagraph).complete closedParagraph .empty {} 7 =
      .ok suggestions ∧ ∀ suggestion ∈ suggestions, suggestion.kind = .closeTag := by
  have tokens : tokensOf .empty closedParagraph =
      [⟨.startTagOpen, ⟨0, 1⟩, ['<'], none⟩, ⟨.startTag, ⟨1, 2⟩, ['p'], none⟩,
        ⟨.startTagClose, ⟨2, 3⟩, ['>'], none⟩, ⟨.content, ⟨3, 4⟩, ['x'], none⟩,
        ⟨.endTagOpen, ⟨4, 6⟩, ['<', '/'], none⟩, ⟨.endTag, ⟨6, 7⟩, ['p'], none⟩,
        ⟨.endTagClose, ⟨7, 8⟩, ['>'], none⟩, ⟨.eof, ⟨8, 8⟩, [], none⟩] := by
    decide +kernel
  have smooth (start stop : Nat) : UninterruptedBetween .empty closedParagraph start stop := by
    unfold UninterruptedBetween Token.Interrupts
    simp [tokens]
  have content : ⟨.content, ⟨3, 4⟩, ['x'], none⟩ ∈ tokensOf .empty closedParagraph := by simp [tokens]
  have endTag : ⟨.endTag, ⟨6, 7⟩, ['p'], none⟩ ∈ tokensOf .empty closedParagraph := by simp [tokens]
  exact ⟨(complete_classifies {} content (by decide) (by decide) fun _ _ => smooth _ _).1 rfl,
    (complete_classifies {} endTag (by decide) (by decide) fun _ _ => smooth _ _).2 rfl⟩

/-- A start tag that a comment interrupts. -/
def interruptedParagraph : Text := "<p <!-- x -->".toList

/-- **Behind an interrupted tag completion does not follow the document**: the cursor is in a comment, and
yet an attribute is proposed. -/
theorem complete_interrupted :
    (∃ token ∈ tokensOf .empty interruptedParagraph, token.kind = .comment ∧
      token.span.start < 9 ∧ 9 ≤ token.span.stop) ∧
    ((parse .empty interruptedParagraph).complete interruptedParagraph .empty {} 9).map
      (·.map (·.kind)) = .ok [.attributeName] := by
  have tokens : tokensOf .empty interruptedParagraph =
      [⟨.startTagOpen, ⟨0, 1⟩, ['<'], none⟩, ⟨.startTag, ⟨1, 2⟩, ['p'], none⟩,
        ⟨.whitespace, ⟨2, 3⟩, [' '], none⟩, ⟨.startTagClose, ⟨3, 3⟩, [], some .closingBracketMissing⟩,
        ⟨.startComment, ⟨3, 7⟩, "<!--".toList, none⟩, ⟨.comment, ⟨7, 10⟩, " x ".toList, none⟩,
        ⟨.endComment, ⟨10, 13⟩, "-->".toList, none⟩, ⟨.eof, ⟨13, 13⟩, [], none⟩] := by
    decide +kernel
  have comment : ⟨.comment, ⟨7, 10⟩, " x ".toList, none⟩ ∈ tokensOf .empty interruptedParagraph := by
    simp [tokens]
  refine ⟨⟨_, comment, rfl, by decide, by decide⟩, ?_⟩
  decide +kernel

end Document

end MarkupAnalysis
