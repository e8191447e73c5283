import MarkupAnalysis.Proofs.Completion.EndTagEdit
import MarkupAnalysis.Proofs.Completion.TagBefore

/-! # What proposals replace

A proposal replaces a span of the text around the cursor. The spans come from the place of the cursor, from
the word that it is in, or from the blanks at the start of its line; the end tag behind a `>` is inserted
where this `>` ends, which is where the cursor is.

* **`CompletionRequest.bounds_wordStart`**, **`CompletionRequest.bounds_wordStop`** — the word at the
  cursor.
* **`Cursor.awaits_rest`** — in a start tag the search is never at the cursor between two tokens.
* **`Cursor.stop_of_find`** — behind the `>` of a start tag means right behind it.
* **`Span.ReachesAround`** — a span that can be replaced with the cursor at an offset.
* **`Document.complete_replaces`** — all proposals replace such spans. -/

namespace MarkupAnalysis

open Text

namespace CompletionRequest

/-! ## The word at the cursor -/

section words

variable {t : Text} {offset limit : Nat}

/-- **The start of the word** does not come behind the cursor, nor before the limit. -/
theorem bounds_wordStart (boundary : t.isBoundary offset = true) (limit : Nat) :
    t.isBoundary (wordStart t offset limit) = true ∧ wordStart t offset limit ≤ offset ∧
      (limit ≤ offset → limit ≤ wordStart t offset limit) := by
  refine ⟨?_, Nat.sub_le _ _, ?_⟩ <;> unfold wordStart
  · cases slice : t.slice? ⟨limit, offset⟩ with
    | none => exact boundary
    | some part =>
      obtain ⟨before, behind, split, rfl, rfl⟩ := slice?_eq_some_iff.mp slice
      have parts := congrArg List.reverse
        (List.takeWhile_append_dropWhile (p := (!isAsciiBlank ·)) (l := part.reverse))
      rw [List.reverse_append, List.reverse_reverse] at parts
      rw [Option.getD_some]
      generalize part.reverse.takeWhile (!isAsciiBlank ·) = word at parts ⊢
      generalize (part.reverse.dropWhile (!isAsciiBlank ·)).reverse = front at parts
      subst parts
      refine isBoundary_iff.mpr ⟨before ++ front, word.reverse ++ behind, by rw [split]; simp, ?_⟩
      show _ = byteLength before + byteLength (front ++ word.reverse) - byteLength word
      rw [byteLength_append, byteLength_append, byteLength_reverse]
      omega
  · intro ordered
    cases slice : t.slice? ⟨limit, offset⟩ with
    | none => exact ordered
    | some part =>
      obtain ⟨before, behind, split, rfl, rfl⟩ := slice?_eq_some_iff.mp slice
      have parts := congrArg byteLength
        (List.takeWhile_append_dropWhile (p := (!isAsciiBlank ·)) (l := part.reverse))
      rw [byteLength_append, byteLength_reverse] at parts
      dsimp only [Option.getD_some]
      omega

/-- **The end of the word** does not come before the cursor, nor behind the limit. -/
theorem bounds_wordStop (boundary : t.isBoundary offset = true) (limit : Nat) :
    t.isBoundary (wordStop t offset limit) = true ∧ offset ≤ wordStop t offset limit ∧
      (offset ≤ limit → wordStop t offset limit ≤ limit) := by
  refine ⟨?_, Nat.le_add_right _ _, ?_⟩ <;> unfold wordStop
  · cases slice : t.slice? ⟨offset, limit⟩ with
    | none => exact boundary
    | some part =>
      obtain ⟨before, behind, split, rfl, rfl⟩ := slice?_eq_some_iff.mp slice
      have parts := List.takeWhile_append_dropWhile (p := (!isAsciiBlank ·)) (l := part)
      rw [Option.getD_some]
      generalize part.takeWhile (!isAsciiBlank ·) = word at parts ⊢
      refine isBoundary_iff.mpr
        ⟨before ++ word, part.dropWhile (!isAsciiBlank ·) ++ behind, ?_, byteLength_append _ _⟩
      rw [split]
      conv => lhs; rw [← parts]
      simp
  · intro ordered
    cases slice : t.slice? ⟨offset, limit⟩ with
    | none => exact ordered
    | some part =>
      obtain ⟨before, behind, split, rfl, rfl⟩ := slice?_eq_some_iff.mp slice
      have parts := congrArg byteLength
        (List.takeWhile_append_dropWhile (p := (!isAsciiBlank ·)) (l := part))
      rw [byteLength_append] at parts
      rw [Option.getD_some]
      omega

end words

end CompletionRequest

/-! ## Behind the end of a start tag -/

/-- In a scan without closing tokens the end of a start tag is its bracket. -/
theorem Tokenizer.position_rest_of_startTagClose {s : Tokenizer} (plain : s.pseudoClose = false)
    (kind : s.token.kind = .startTagClose) : s.rest.position = s.position + 1 := by
  have some_text : s.token.span.isEmpty = false := by
    rw [Bool.eq_false_iff, Ne, s.token_isEmpty_iff, not_or]
    refine ⟨?_, Tokenizer.not_interrupts_of_plain plain⟩
    rw [kind]
    nofun
  exact Tokenizer.position_rest_of_text (Tokenizer.text_of_startTagClose kind some_text)

namespace Cursor

variable {t : Text} {s : Tokenizer} {offset stop : Nat} {tag attributeName : Option Text} {own : Text}

/-- **In a start tag the search is never at the cursor** between two tokens: the token that ends there has
made the place. -/
def Awaits (offset : Nat) (s : Tokenizer) : Prop := s.mode.inStartTag → s.position ≠ offset

/-- A token of a start tag that is not the place does not end at the cursor. -/
theorem awaits_rest (some_ahead : s.ahead ≠ []) (starts : s.token.span.start ≤ offset)
    {rest : List (Token × Tokenizer)} (not_here : place? t offset tag s.token s.rest rest = none) :
    Awaits offset s.rest := by
  intro inside here
  have stop : s.token.span.stop = offset := here
  have ends : offset ≤ s.token.span.stop := Nat.le_of_eq stop.symm
  have touches : s.token.span.touches offset = true := Span.touches_iff.mpr ⟨starts, ends⟩
  have reads := Tokenizer.reads some_ahead
  unfold place? at not_here
  generalize s.token.kind = kind, s.mode = m at not_here reads
  generalize mode : s.rest.mode = m' at inside reads
  cases reads with
  | startTagOpens | assignment =>
    dsimp only at not_here
    rw [if_pos stop] at not_here
    cases not_here
  | startTagName | attributeOpens | value =>
    dsimp only at not_here
    rw [if_pos touches] at not_here
    cases not_here
  | startTagJunk =>
    dsimp only at not_here
    rw [if_pos ends] at not_here
    cases not_here
  | startTagBlank | endTagBlank =>
    dsimp only at not_here
    rw [if_pos ends, blankPlace?, mode] at not_here
    -- In each mode of a start tag blanks are a place.
    cases m with
    | startTagOpened | startTag | attributeName | attributeValue => cases not_here
    | _ => cases inside
  | _ => cases inside

/-- The place at the end of a start tag is right behind its bracket. -/
theorem stop_of_place? (plain : s.pseudoClose = false) (awaits : Awaits offset s)
    (starts : s.token.span.start ≤ offset) {rest : List (Token × Tokenizer)}
    (place : place? t offset tag s.token s.rest rest = some (.afterStartTag own stop)) : stop = offset := by
  unfold place? at place
  cases kind : s.token.kind with rw [kind] at place
  | startTagClose =>
    obtain ⟨ends, place⟩ := Option.ite_none_right_eq_some.mp place
    have apart : s.position ≠ offset := awaits (Tokenizer.inStartTag_of_startTagClose kind)
    have one : s.token.span.stop = s.position + 1 := Tokenizer.position_rest_of_startTagClose plain kind
    have own_stop : s.token.span.stop = stop := by
      cases tag with
      | none => cases place
      | some tag =>
        injection Option.some.inj place
    have starts : s.position ≤ offset := starts
    -- The bracket starts before the cursor and has one character, so it does not end behind it.
    omega
  | whitespace =>
    obtain ⟨-, place⟩ := Option.ite_none_right_eq_some.mp place
    unfold blankPlace? at place
    split at place <;> cases place
  | endTag =>
    obtain ⟨-, place⟩ := Option.ite_none_right_eq_some.mp place
    obtain ⟨slash, -, same⟩ := Option.map_eq_some_iff.mp place
    cases same
  | _ =>
    obtain ⟨-, place⟩ := Option.ite_none_right_eq_some.mp place
    cases place

/-- **Behind the bracket of a start tag** means right behind it. -/
theorem stop_of_find (plain : s.pseudoClose = false) (awaits : Awaits offset s)
    (place : (find t offset tag attributeName s.trace).place = .afterStartTag own stop) : stop = offset := by
  -- On the tokens, as the search goes: each that makes no place leaves the cursor awaited.
  induction s using Tokenizer.induction generalizing tag attributeName with
  | ended s ended =>
    rw [Tokenizer.trace_of_ahead_eq_nil ended, Tokenizer.advance, find,
      if_pos (by simp [Tokenizer.token_kind_eq_eof_iff.mpr ended])] at place
    cases place
  | step s some_ahead ih =>
    by_cases behind : offset < s.position
    · rw [place_find_of_behind behind] at place
      cases place
    have starts : s.token.span.start ≤ offset := Nat.le_of_not_lt behind
    obtain ⟨tag', attributeName', same⟩ := @place_find_eq t s offset tag attributeName some_ahead starts
    rw [same] at place
    cases found : place? t offset tag s.token s.rest s.rest.trace with
    | some here =>
      obtain rfl : here = .afterStartTag own stop := by rwa [found] at place
      exact stop_of_place? plain awaits starts found
    | none =>
      rw [found] at place
      exact ih plain (awaits_rest some_ahead starts found) place

end Cursor

/-! ## Spans around the cursor -/

/-- **A span that reaches around an offset**: it can be replaced with the cursor there. -/
structure Span.ReachesAround (t : Text) (offset : Nat) (s : Span) : Prop where
  /-- It does not start behind the offset. -/
  start_le : s.start ≤ offset
  /-- It does not end before the offset. -/
  le_stop : offset ≤ s.stop
  /-- Both ends are boundaries of the text. -/
  fits : s.FitsIn t

namespace CompletionRequest

variable {r : CompletionRequest} {s name : Span} {c : Candidate}

/-- As far as the cursor every span of the text reaches around it. -/
theorem reachesAround_replacing (cursor : r.text.isBoundary r.offset = true) (fits : s.FitsIn r.text) :
    (r.replacing s).ReachesAround r.text r.offset := by
  refine ⟨Nat.min_le_right _ _, Nat.le_max_right _ _, ?_, ?_⟩
  · show r.text.isBoundary (min s.start r.offset) = true
    rcases Nat.le_total s.start r.offset with before | behind
    · rw [Nat.min_eq_left before]
      exact fits.1
    · rw [Nat.min_eq_right behind]
      exact cursor
  · show r.text.isBoundary (max s.stop r.offset) = true
    rcases Nat.le_total s.stop r.offset with before | behind
    · rw [Nat.max_eq_right before]
      exact cursor
    · rw [Nat.max_eq_left behind]
      exact fits.2

/-- **What an end tag replaces**: its name, or the line before the cursor from a boundary on. -/
theorem replace_of_mem_closeTagCandidates {candidates : List Candidate} {inStartTag : Bool}
    (proposed : r.closeTagCandidates name inStartTag = .ok candidates) (mem : c ∈ candidates) :
    c.suggestion.replace = r.replacing name ∨ ∃ start, r.text.isBoundary start = true ∧
      c.suggestion.replace = r.replacing ⟨start, r.offset⟩ := by
  obtain ⟨tag, opening, close, -, closes⟩ | ⟨close, except, other⟩ := of_mem_closeTagCandidates proposed mem
  · obtain ⟨-, ⟨-, plain⟩ | ⟨startIndent, endIndent, -, line, -, aligned⟩⟩ := closeCandidate_cases closes
    · exact .inl plain
    · -- The line starts where its blanks start.
      obtain ⟨front, taken, -, -⟩ := exists_line_of_blankLineStart line
      obtain ⟨ahead, split, stop⟩ := takeBytes?_eq_some_iff.mp taken
      refine .inr ⟨_, ?_, aligned⟩
      refine isBoundary_iff.mpr ⟨front, endIndent ++ ahead, by rw [split, List.append_assoc], ?_⟩
      rw [← stop, byteLength_append, Nat.add_sub_cancel]
  · exact .inl (of_mem_otherCloseCandidates other).2.1

/-- **What a value replaces** is a span of the text, be it the whole value or the word at the cursor. -/
theorem exists_valueReplacement (cursor : r.text.isBoundary r.offset = true) (fits : s.FitsIn r.text) :
    ∃ part : Span, part.FitsIn r.text ∧ (r.valueReplacement s).1 = r.replacing part := by
  unfold valueReplacement
  cases quoteOf? r.text s with
  | none => exact ⟨s, fits, rfl⟩
  | some quote =>
    dsimp only
    split_ifs with inside
    · exact ⟨_, ⟨(bounds_wordStart cursor _).1, (bounds_wordStop cursor _).1⟩, rfl⟩
    · exact ⟨s, fits, rfl⟩

/-- A start tag replaces the name. -/
theorem of_mem_openTagCandidates {bracket : Nat} (mem : c ∈ r.openTagCandidates name bracket) :
    c.suggestion.kind = .tag ∧ c.suggestion.replace = r.replacing name := by
  obtain ⟨tag, -, rfl⟩ := List.mem_map.mp mem
  exact ⟨rfl, rfl⟩

/-- The name of an attribute replaces the name. -/
theorem replace_of_mem_attributeCandidates {tag : Option Text} (mem : c ∈ r.attributeCandidates tag name) :
    c.suggestion.replace = r.replacing name := by
  rcases List.mem_append.mp mem with mem | mem
  · rcases List.mem_append.mp mem with mem | mem
    · obtain ⟨info, -, rfl⟩ := List.mem_map.mp mem
      rfl
    · obtain rfl := List.mem_singleton.mp mem
      rfl
  · obtain ⟨used, -, rfl⟩ := List.mem_map.mp mem
    rfl

/-- **Values are proposed** in place of what is replaced, and where quotes are not added, as they are. -/
theorem of_mem_valueCandidates {tag name : Option Text} {s : Span} {c : Candidate}
    (mem : c ∈ r.valueCandidates tag name s) :
    c.suggestion.kind = .value ∧ c.suggestion.replace = (r.valueReplacement s).1 ∧
      ((r.valueReplacement s).2 = false → c.suggestion.insertText = c.suggestion.label) := by
  obtain ⟨text, -, rfl⟩ := List.mem_map.mp mem
  refine ⟨rfl, rfl, ?_⟩
  intro no_quotes
  show (if (r.valueReplacement s).2 = true then _ else text) = text
  rw [no_quotes]
  exact if_neg Bool.false_ne_true

/-- The end tag behind a start tag replaces nothing. -/
theorem of_mem_autoCloseCandidates {tag : Text} {stop : Nat} (mem : c ∈ r.autoCloseCandidates tag stop) :
    c.suggestion.kind = .closeTag ∧ c.suggestion.replace = ⟨stop, stop⟩ := by
  unfold autoCloseCandidates at mem
  split at mem
  · cases mem
  · obtain rfl := List.mem_singleton.mp mem
    exact ⟨rfl, rfl⟩

/-- **All proposals at a place that fits** replace spans around the cursor. -/
theorem reachesAround_of_mem_candidates {cursor : Cursor} {candidates : List Candidate}
    (boundary : r.text.isBoundary r.offset = true) (fits : cursor.place.FitsIn r.text)
    (here : ∀ tag stop, cursor.place = .afterStartTag tag stop → stop = r.offset)
    (proposed : r.candidates cursor = .ok candidates) (mem : c ∈ candidates) :
    c.suggestion.replace.ReachesAround r.text r.offset := by
  -- Most proposals replace a name and what is between it and the cursor.
  have of_name {name : Span} (fits : name.FitsIn r.text) (own : c.suggestion.replace = r.replacing name) :
      c.suggestion.replace.ReachesAround r.text r.offset := by
    rw [own]
    exact reachesAround_replacing boundary fits
  have of_endTag {candidates : List Candidate} {name : Span} {inStartTag : Bool} (fits : name.FitsIn r.text)
      (proposed : r.closeTagCandidates name inStartTag = .ok candidates) (mem : c ∈ candidates) :
      c.suggestion.replace.ReachesAround r.text r.offset := by
    rcases replace_of_mem_closeTagCandidates proposed mem with own | ⟨start, starts, own⟩
    · exact of_name fits own
    · exact of_name ⟨starts, boundary⟩ own
  unfold CompletionRequest.candidates at proposed
  cases place : cursor.place with rw [place] at fits proposed
  | newTag name bracket =>
    obtain ⟨endTags, end_proposed, rfl⟩ := Except.map_eq_ok_iff.mp proposed
    rcases List.mem_append.mp mem with mem | mem
    · exact of_name fits.2.2 (of_mem_openTagCandidates mem).2
    · exact of_endTag fits.2.2 end_proposed mem
  | tagName name bracket =>
    obtain rfl := Except.ok.inj proposed
    exact of_name fits.2.2 (of_mem_openTagCandidates mem).2
  | endTag name => exact of_endTag fits.2.2 proposed mem
  | attributeName name =>
    obtain rfl := Except.ok.inj proposed
    exact of_name fits (replace_of_mem_attributeCandidates mem)
  | attributeValue value =>
    obtain rfl := Except.ok.inj proposed
    obtain ⟨part, part_fits, own⟩ := exists_valueReplacement boundary fits
    exact of_name part_fits ((of_mem_valueCandidates mem).2.1.trans own)
  | afterStartTag tag stop =>
    obtain rfl := Except.ok.inj proposed
    obtain rfl := here tag stop place
    rw [(of_mem_autoCloseCandidates mem).2]
    exact ⟨Nat.le_refl _, Nat.le_refl _, boundary, boundary⟩
  | elsewhere =>
    obtain rfl := Except.ok.inj proposed
    cases mem

end CompletionRequest

namespace Document

variable {v : Vocabulary} {t : Text} {d : Document} {options : CompletionOptions} {offset : Nat}

/-- **What is proposed with any document** replaces a span of the text around the cursor. -/
theorem reachesAround_of_complete {suggestions : List Suggestion}
    (answer : d.complete t v options offset = .ok suggestions) :
    ∀ s ∈ suggestions, s.replace.ReachesAround t offset := by
  intro suggestion mem
  obtain ⟨boundary, id, candidates, -, proposed, rfl⟩ := exists_candidates answer mem
  obtain ⟨c, c_mem, same⟩ := exists_candidate_of_mem_rank mem
  rw [same]
  have fits := Cursor.fitsIn_locate v (d.node id).start boundary
  refine CompletionRequest.reachesAround_of_mem_candidates boundary fits ?_ proposed c_mem
  intro tag stop place
  -- The search starts in the content, without closing tokens.
  refine Cursor.stop_of_find ?_ ?_ place
  · unfold Tokenizer.start
    split <;> rfl
  · intro inside
    rw [Tokenizer.mode_start] at inside
    cases inside

/-- **Completion with the document of the text** proposes a list of replacements of spans around the cursor,
which lie in the text and have their ends at boundaries. -/
theorem complete_replaces (v : Vocabulary) (t : Text) (options : CompletionOptions) (offset : Nat) :
    ∃ suggestions, (parse v t).complete t v options offset = .ok suggestions ∧ ∀ s ∈ suggestions,
      s.replace.start ≤ offset ∧ offset ≤ s.replace.stop ∧ s.replace.stop ≤ t.byteLength ∧
        t.isBoundary s.replace.start = true ∧ t.isBoundary s.replace.stop = true := by
  obtain ⟨suggestions, answer⟩ := exists_complete v v t options offset
  refine ⟨suggestions, answer, ?_⟩
  intro s mem
  obtain ⟨starts, stops, start_fits, stop_fits⟩ := reachesAround_of_complete answer s mem
  refine ⟨starts, stops, ?_, start_fits, stop_fits⟩
  obtain ⟨before, ahead, split, place⟩ := isBoundary_iff.mp stop_fits
  rw [split, byteLength_append, ← place]
  exact Nat.le_add_right _ _

end Document

end MarkupAnalysis
