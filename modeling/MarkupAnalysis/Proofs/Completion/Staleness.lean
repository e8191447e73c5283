import MarkupAnalysis.Proofs.Completion.Places
import MarkupAnalysis.Proofs.Document.Tags

/-! # Completion with the document of another text

A document may be used with a text that is not its own. The search for the cursor guards the offset that it
takes from the document, and all other offsets come from the text. Only the start of the element whose end
tag is proposed is used unguarded, to look at the line that it is in.

* **`CompletionRequest.blankLineStart_eq_error_iff`** — the one step that can fail.
* **`CompletionRequest.ancestorStart?`** — the offset of the document that is used unguarded.
* **`Document.complete_eq_error_iff`** — completion fails exactly where this offset does not fit the text.
* **`Document.complete_fails_iff`** — all other offsets fit, and with its own text a document never
  fails. -/

namespace MarkupAnalysis

open Text Document

/-- What stands before an offset can be taken exactly where the text can be cut. -/
theorem Text.exists_takeBytes?_iff {t : Text} {offset : Nat} :
    (∃ before, t.takeBytes? offset = some before) ↔ t.isBoundary offset = true := by
  rw [isBoundary_iff]
  exact exists_congr fun before => takeBytes?_eq_some_iff

/-! ## Steps that may fail -/

section steps

variable {ε α β : Type} {x : Except ε α} {e : ε}

/-- What follows a step is reached only if the step does not fail. -/
theorem Except.bind_eq_error_iff {f : α → Except ε β} :
    x >>= f = .error e ↔ x = .error e ∨ ∃ a, x = .ok a ∧ f a = .error e := by
  cases x with
  | error e' => simp [bind, Except.bind]
  | ok a => simp [bind, Except.bind]

/-- All steps give an answer if the last one does. -/
theorem Except.bind_eq_ok_iff {f : α → Except ε β} {b : β} :
    x >>= f = .ok b ↔ ∃ a, x = .ok a ∧ f a = .ok b := by
  cases x with
  | error e' => simp [bind, Except.bind]
  | ok a => simp [bind, Except.bind]

/-- What is made of an answer does not fail. -/
theorem Except.map_eq_error_iff {f : α → β} : x.map f = .error e ↔ x = .error e := by
  cases x <;> simp [Except.map]

/-- What is made of an answer is an answer. -/
theorem Except.map_eq_ok_iff {f : α → β} {b : β} : x.map f = .ok b ↔ ∃ a, x = .ok a ∧ f a = b := by
  cases x <;> simp [Except.map]

end steps

namespace CompletionRequest

variable {r : CompletionRequest} {t : Text} {offset start : Nat} {name : Span} {close tag : Text}
  {inStartTag : Bool} {stale : StaleDocument}

/-! ## The line of an end tag -/

/-- **The one step that can fail**: it needs an offset of the text. -/
theorem blankLineStart_eq_error_iff :
    blankLineStart t offset = .error stale ↔ t.isBoundary offset = false ∧ stale = ⟨offset⟩ := by
  rw [← Bool.not_eq_true, ← exists_takeBytes?_iff]
  unfold blankLineStart
  cases taken : t.takeBytes? offset with
  | none => simp [eq_comm]
  | some before => simp

/-- At an offset of the text the line is looked at. -/
theorem exists_blankLineStart (boundary : t.isBoundary offset = true) :
    ∃ line, blankLineStart t offset = .ok line := by
  cases line : blankLineStart t offset with
  | ok blanks => exact ⟨blanks, rfl⟩
  | error stale =>
    have := (blankLineStart_eq_error_iff.mp line).1
    rw [boundary] at this
    cases this

/-- The blanks at the start of the line do not reach back past the start of the text. -/
theorem byteLength_le_of_blankLineStart {line : Text} (found : blankLineStart t offset = .ok (some line)) :
    line.byteLength ≤ offset := by
  unfold blankLineStart at found
  cases taken : t.takeBytes? offset with
  | none => simp [taken] at found
  | some before =>
    simp only [taken, Except.ok.injEq, Option.ite_none_right_eq_some, Option.some_inj] at found
    obtain ⟨-, rfl⟩ := found
    obtain ⟨ahead, -, rfl⟩ := takeBytes?_eq_some_iff.mp taken
    have split := congrArg byteLength
      (List.takeWhile_append_dropWhile (p := fun c => c ≠ '\n' && c ≠ '\r') (l := before.reverse))
    rw [byteLength_append, byteLength_reverse] at split
    rw [byteLength_reverse]
    omega

/-- The end tag of an element is proposed unless the element starts at no offset of the text. -/
theorem closeCandidate_eq_error_iff (fits : r.text.isBoundary (name.start - 1) = true) :
    r.closeCandidate name close tag start = .error stale ↔
      r.text.isBoundary start = false ∧ stale = ⟨start⟩ := by
  obtain ⟨endIndent, here⟩ := exists_blankLineStart fits
  rw [← blankLineStart_eq_error_iff, closeCandidate]
  simp only [here, Except.bind_eq_error_iff]
  simp [pure, Except.pure]

/-! ## End tags -/

/-- End tags are proposed unless the nearest open element starts at no offset of the text. -/
theorem closeTagCandidates_eq_error_iff (fits : r.text.isBoundary (name.start - 1) = true) :
    r.closeTagCandidates name inStartTag = .error stale ↔
      (r.openAncestor? inStartTag).map (·.2) = some stale.offset ∧
        r.text.isBoundary stale.offset = false := by
  unfold closeTagCandidates
  cases found : r.openAncestor? inStartTag with
  | none => simp [bind, Except.bind, pure, Except.pure]
  | some ancestor =>
    obtain ⟨tag, start⟩ := ancestor
    simp only [Except.bind_eq_error_iff, Except.map_eq_error_iff, closeCandidate_eq_error_iff fits]
    obtain ⟨offset⟩ := stale
    simp only [pure, Except.pure, reduceCtorEq, and_false, exists_const, or_false, StaleDocument.mk.injEq,
      Option.map_some, Option.some_inj]
    constructor
    · rintro ⟨apart, rfl⟩
      exact ⟨rfl, apart⟩
    · rintro ⟨rfl, apart⟩
      exact ⟨apart, rfl⟩

/-- **The offset of the document that is used unguarded**: the start of the element whose end tag is
proposed first. -/
def ancestorStart? (r : CompletionRequest) : Place → Option Nat
  | .newTag _ _ => (r.openAncestor? true).map (·.2)
  | .endTag _ => (r.openAncestor? false).map (·.2)
  | _ => none

/-- At a place that fits, proposals fail exactly where this offset does not fit the text. -/
theorem candidates_eq_error_iff {cursor : Cursor} (fits : cursor.place.FitsIn r.text) :
    r.candidates cursor = .error stale ↔ r.ancestorStart? cursor.place = some stale.offset ∧
      r.text.isBoundary stale.offset = false := by
  unfold candidates ancestorStart?
  cases place : cursor.place with rw [place] at fits
  | newTag name bracket =>
    have before : name.start - 1 = bracket := by rw [← fits.1]; rfl
    rw [Except.map_eq_error_iff, closeTagCandidates_eq_error_iff (before ▸ fits.2.1)]
  | endTag name => exact closeTagCandidates_eq_error_iff fits.2.1
  | _ => simp

/-- The nearest open element is the node before the cursor or one around it. It has not ended at the cursor,
and it is named with its tag and its start. -/
theorem exists_node_of_openAncestor? (found : r.openAncestor? inStartTag = some (tag, start)) :
    ∃ id, (id = r.node ∧ inStartTag = false ∨ id ∈ r.document.ancestors r.node) ∧
      isOpenAt r.offset (r.document.node id) = true ∧ (r.document.node id).tag = some tag ∧
      (r.document.node id).start = start := by
  obtain ⟨before, id, after, all, chosen, -⟩ := List.findSome?_eq_some_iff.mp found
  obtain ⟨not_ended, chosen⟩ := Option.ite_none_right_eq_some.mp chosen
  obtain ⟨tag', tagged, same⟩ := Option.map_eq_some_iff.mp chosen
  obtain ⟨rfl, rfl⟩ := Prod.mk.inj same
  refine ⟨id, ?_, not_ended, tagged, rfl⟩
  have mem : id ∈ before ++ id :: after := by simp
  rw [← all] at mem
  split_ifs at mem with inside
  · exact .inr mem
  · exact (List.mem_cons.mp mem).imp_left fun own => ⟨own, Bool.eq_false_iff.mpr inside⟩

/-- The offset that is used unguarded is the start of a node that has a tag. -/
theorem exists_node_of_ancestorStart? {place : Place} (found : r.ancestorStart? place = some start) :
    ∃ id, (r.document.node id).tag ≠ none ∧ (r.document.node id).start = start := by
  have of_open {inStartTag : Bool} (found : (r.openAncestor? inStartTag).map (·.2) = some start) :
      ∃ id, (r.document.node id).tag ≠ none ∧ (r.document.node id).start = start := by
    obtain ⟨⟨tag, start⟩, nearest, rfl⟩ := Option.map_eq_some_iff.mp found
    obtain ⟨id, -, -, tagged, same⟩ := exists_node_of_openAncestor? nearest
    exact ⟨id, by rw [tagged]; nofun, same⟩
  cases place with
  | newTag | endTag => exact of_open found
  | _ => cases found

end CompletionRequest

/-! ## Completion -/

namespace Document

variable {d : Document} {v w : Vocabulary} {t : Text} {options : CompletionOptions} {offset : Nat}

/-- The nodes of a text that have a tag are elements. -/
theorem element_of_tag {id : NodeId} (tagged : ((parse v t).node id).tag ≠ none) :
    id ≠ root ∧ id < (parse v t).nodes.size := by
  refine ⟨?_, ?_⟩
  · rintro rfl
    exact tagged (wellFormed_parse v t).root.2.1
  · by_contra outside
    rw [Document.node, Array.getElem?_eq_none (Nat.le_of_not_lt outside)] at tagged
    exact tagged rfl

/-- Nodes with a tag start at boundaries of their text. -/
theorem isBoundary_start_of_tag {id : NodeId} (tagged : ((parse v t).node id).tag ≠ none) :
    t.isBoundary ((parse v t).node id).start = true := by
  obtain ⟨off_root, known⟩ := element_of_tag tagged
  obtain ⟨rest, opens, -⟩ := (tagsStandIn_parse known off_root).opens
  rw [isBoundary, opens]
  rfl

/-- **Completion fails exactly where the start of the open element does not fit the text.** -/
theorem complete_eq_error_iff {stale : StaleDocument} :
    d.complete t v options offset = .error stale ↔ t.isBoundary offset = true ∧
      ∃ node, d.nodeBefore offset = some node ∧
        CompletionRequest.ancestorStart? ⟨t, d, offset, v, options, node⟩
          (Cursor.locate v t (d.node node).start offset).place = some stale.offset ∧
        t.isBoundary stale.offset = false := by
  unfold complete
  by_cases boundary : t.isBoundary offset = true
  · rw [if_pos boundary]
    cases found : d.nodeBefore offset with
    | none => simp
    | some node =>
      simp only [Except.map_eq_error_iff, boundary, true_and, Option.some_inj, exists_eq_left']
      exact CompletionRequest.candidates_eq_error_iff
        (Cursor.fitsIn_locate v (d.node node).start boundary)
  · rw [if_neg boundary]
    exact iff_of_false nofun fun fails => boundary fails.1

/-- **With its own text a document never fails**, whatever vocabulary is asked. -/
theorem exists_complete (w v : Vocabulary) (t : Text) (options : CompletionOptions) (offset : Nat) :
    ∃ suggestions, (parse w t).complete t v options offset = .ok suggestions := by
  cases answer : (parse w t).complete t v options offset with
  | ok suggestions => exact ⟨suggestions, rfl⟩
  | error stale =>
    obtain ⟨-, node, -, unguarded, apart⟩ := complete_eq_error_iff.mp answer
    obtain ⟨id, tagged, start⟩ := CompletionRequest.exists_node_of_ancestorStart? unguarded
    have fits : t.isBoundary stale.offset = true := start ▸ isBoundary_start_of_tag tagged
    rw [apart] at fits
    cases fits

/-- **Completion with any document**, be it that of another text. Wherever the search for the cursor starts,
the offsets that it finds fit the text. The blanks before an end tag are not longer than what stands there.
Completion gives a list of proposals, unless the element whose end tag is proposed first starts at an offset
that is no boundary of the text. With its own text a document always gives a list. -/
theorem complete_fails_iff (v : Vocabulary) (t : Text) (d : Document) (options : CompletionOptions)
    (offset : Nat) :
    (t.isBoundary offset = true → ∀ start, (Cursor.locate v t start offset).place.FitsIn t) ∧
    (∀ stop blanks, CompletionRequest.blankLineStart t stop = .ok (some blanks) →
      blanks.byteLength ≤ stop) ∧
    (∀ stale, d.complete t v options offset = .error stale ↔ t.isBoundary offset = true ∧
      ∃ node, d.nodeBefore offset = some node ∧
        CompletionRequest.ancestorStart? ⟨t, d, offset, v, options, node⟩
          (Cursor.locate v t (d.node node).start offset).place = some stale.offset ∧
        t.isBoundary stale.offset = false) ∧
    ∀ w, ∃ suggestions, (parse w t).complete t v options offset = .ok suggestions :=
  ⟨fun boundary start => Cursor.fitsIn_locate v start boundary,
    fun _ _ => CompletionRequest.byteLength_le_of_blankLineStart, fun _ => complete_eq_error_iff,
    fun w => exists_complete w v t options offset⟩

/-- The start of an element of an earlier text may be inside a character of a later one. -/
theorem complete_fails_inside_character :
    (parse .empty "x<a><b/>".toList).complete "éxx</".toList .empty {} 6 = .error ⟨1⟩ := by
  decide +kernel

end Document

end MarkupAnalysis
