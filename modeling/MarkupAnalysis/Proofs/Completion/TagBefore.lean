import MarkupAnalysis.Proofs.Completion.Classification
import MarkupAnalysis.Proofs.Token.BlankRuns

/-! # The tag before a cursor

Wherever an end tag is proposed, the `<` or the `</` of a tag stands before the cursor, right before the name
that is to be replaced.

* **`Place.endTagName?`** — the places that end tags are proposed for.
* **`Tokenizer.not_whitespace_behind`** — blanks come in one token.
* **`TagBefore`** — the bracket of the tag that the cursor is in.
* **`Document.exists_tagBefore`** — where end tags are proposed, there is one. -/

namespace MarkupAnalysis

open Text Document

/-- The name that an end tag is proposed for at a place, and whether a start tag may follow there too. -/
def Place.endTagName? : Place → Option (Span × Bool)
  | .newTag name _ => some (name, true)
  | .endTag name => some (name, false)
  | _ => none

/-- One of the tiles is at or before an offset. -/
theorem Span.Tiles.exists_touching {start stop offset : Nat} {spans : List Span}
    (h : Tiles start spans stop) (behind : start < offset) (inside : offset ≤ stop) :
    ∃ span ∈ spans, span.start < offset ∧ offset ≤ span.stop := by
  induction spans generalizing start with
  | nil =>
    obtain rfl : start = stop := h
    omega
  | cons span spans ih =>
    obtain ⟨rfl, -, later⟩ := h
    by_cases here : offset ≤ span.stop
    · exact ⟨span, List.mem_cons_self, behind, here⟩
    · obtain ⟨other, mem, touches⟩ := ih later (Nat.lt_of_not_le here)
      exact ⟨other, List.mem_cons_of_mem _ mem, touches⟩

namespace Tokenizer

variable {s s' : Tokenizer} {first : List Token}

/-- A passage has no tokens or a last one. -/
theorem Passes.last_step (h : s.Passes first s') : first = [] ∧ s' = s ∨
    ∃ earlier before, s.Passes earlier before ∧ before.ahead ≠ [] ∧
      first = earlier ++ [before.token] ∧ s' = before.rest := by
  refine h.along (P := fun first s' => first = [] ∧ s' = s ∨ ∃ earlier before, s.Passes earlier before ∧
    before.ahead ≠ [] ∧ first = earlier ++ [before.token] ∧ s' = before.rest) (.inl ⟨rfl, rfl⟩) ?_
  intro earlier before passes some_ahead _
  exact .inr ⟨earlier, before, passes, some_ahead, rfl, rfl⟩

/-- **Blanks come in one token.** -/
theorem not_whitespace_behind (kind : s.token.kind = .whitespace) : s.rest.token.kind ≠ .whitespace := by
  intro more
  have some_ahead := ahead_ne_nil kind (by decide)
  have blank := token_spells some_ahead
  have more_blank := token_spells (ahead_ne_nil more (by decide))
  rw [kind] at blank
  rw [more] at more_blank
  obtain ⟨run, c, text⟩ := (List.eq_nil_or_concat' s.token.text).resolve_left (text_ne_nil kind (by decide))
  obtain ⟨d, others, more_text⟩ := List.exists_cons_of_ne_nil (text_ne_nil more (by decide))
  -- The last blank is followed by none.
  have ends := @readToken_endsRun s.vocabulary s.pseudoClose s.memory s.ahead s.mode
  rw [← reading_eq some_ahead] at ends
  have lexeme : s.ahead.take s.reading.length = run ++ [c] := text
  have next : (s.ahead.drop s.reading.length).head? = some d := by
    have ahead := s.rest.lexeme_append_ahead_rest
    have more_text : s.rest.lexeme = d :: others := more_text
    rw [more_text] at ahead
    exact congrArg List.head? ahead.symm
  have solid := (ends c (by rw [lexeme]; simp) (blank c (by rw [text]; simp)) d next).1
  rw [more_blank d (by rw [more_text]; simp)] at solid
  cases solid

/-- **Blanks behind the bracket of a tag** stand right behind it. -/
theorem Passes.bracket_before_blanks (h : s.Passes first s') (content : s.mode = .content)
    (kind : s'.token.kind = .whitespace) (opened : s'.mode = .startTagOpened ∨ s'.mode = .endTagOpened) :
    ∃ earlier before, s.Passes earlier before ∧ before.ahead ≠ [] ∧ s' = before.rest ∧
      (s'.mode = .startTagOpened ∧ before.token.kind = .startTagOpen ∨
        s'.mode = .endTagOpened ∧ before.token.kind = .endTagOpen) := by
  rcases h.last_step with ⟨-, rfl⟩ | ⟨earlier, before, passes, some_ahead, -, rfl⟩
  · rw [content] at opened
    rcases opened with opened | opened <;> cases opened
  · refine ⟨earlier, before, passes, some_ahead, rfl, ?_⟩
    have reads := reads some_ahead
    have not_blank : before.token.kind ≠ .whitespace := fun blank => not_whitespace_behind blank kind
    rcases opened with opened | opened
    · refine .inl ⟨opened, ?_⟩
      rw [opened] at reads
      generalize before.token.kind = kind, before.mode = m at reads not_blank
      cases reads with
      | startTagOpens => rfl
      | _ => exact absurd rfl not_blank
    · refine .inr ⟨opened, ?_⟩
      rw [opened] at reads
      generalize before.token.kind = kind, before.mode = m at reads not_blank
      cases reads with
      | endTagOpens => rfl
      | _ => exact absurd rfl not_blank

/-- Blanks change nothing but the place. -/
theorem mode_rest_of_whitespace (kind : s.token.kind = .whitespace) : s.rest.mode = s.mode := by
  have reads := reads (ahead_ne_nil kind (by decide))
  rw [kind] at reads
  generalize s.mode = m, s.rest.mode = m' at reads
  cases reads <;> rfl

end Tokenizer

/-- **The bracket of the tag that a cursor is in**, as the text has it: no other one stands between it and the
cursor. -/
structure TagBefore (t : Text) (offset bracket : Nat) (inStartTag : Bool) : Prop where
  /-- The bracket stands before the cursor. -/
  behind : bracket < offset
  /-- Up to the cursor there is no other one. An end tag goes on with a slash. -/
  stands : ∃ stop part, t.slice? ⟨bracket, stop⟩ = some ('<' :: part) ∧ offset ≤ stop ∧ '<' ∉ part ∧
    (inStartTag = false → part.head? = some '/')

namespace TagBefore

variable {t part : Text} {offset bracket stop : Nat} {inStartTag : Bool}

/-- The bracket of a start tag, with blanks only up to the cursor. -/
theorem of_startTag (behind : bracket < offset) (ends : offset ≤ stop)
    (slice : t.slice? ⟨bracket, stop⟩ = some (['<'] ++ part)) (blank : ∀ c ∈ part, isAsciiBlank c = true) :
    TagBefore t offset bracket true :=
  ⟨behind, stop, part, slice, ends, fun mem => absurd (blank '<' mem) (by decide), nofun⟩

/-- The bracket of an end tag. -/
theorem of_endTag (behind : bracket < offset) (ends : offset ≤ stop)
    (slice : t.slice? ⟨bracket, stop⟩ = some ("</".toList ++ part)) (absent : '<' ∉ part) :
    TagBefore t offset bracket false := by
  refine ⟨behind, stop, '/' :: part, slice, ends, fun mem => ?_, fun _ => rfl⟩
  rcases List.mem_cons.mp mem with slash | mem
  · exact absurd slash (by decide)
  · exact absent mem

/-- The text is split at the bracket. -/
theorem exists_split (h : TagBefore t offset bracket inStartTag) : ∃ before rest,
    t = before ++ '<' :: rest ∧ byteLength before = bracket ∧
      (inStartTag = false → rest.head? = some '/') := by
  obtain ⟨stop, part, slice, -, -, slash⟩ := h.stands
  obtain ⟨before, behind, split, place, -⟩ := slice?_eq_some_iff.mp slice
  refine ⟨before, part ++ behind, by simp [split], place, fun endTag => ?_⟩
  rw [List.head?_append, slash endTag]
  rfl

/-- **Every other bracket before the cursor** stands before this one. -/
theorem le (h : TagBefore t offset bracket inStartTag) {before rest : Text}
    (split : t = before ++ '<' :: rest) (earlier : byteLength before < offset) :
    byteLength before ≤ bracket := by
  obtain ⟨stop, part, slice, ends, absent, -⟩ := h.stands
  by_contra later
  have inside := (@slice?_split t ['<'] part bracket stop slice).2
  have stops := stop_le_of_slice? inside split (Nat.lt_of_not_le later) absent
  omega

end TagBefore

namespace Cursor

variable {t : Text} {s : Tokenizer} {offset : Nat} {tag attributeName : Option Text}

/-- Behind the cursor there is no place. -/
theorem place_find_of_behind (behind : offset < s.position) :
    (find t offset tag attributeName s.trace).place = .elsewhere := by
  obtain ⟨further, trace⟩ := exists_trace s
  rw [trace, Tokenizer.advance, find]
  exact congrArg place (if_pos (by simp [Tokenizer.token_span, behind]))

/-- The end of what is replaced does not come before the cursor. -/
theorem le_nextStop (kind : TokenKind) : offset ≤ nextStop offset kind s.trace := by
  obtain ⟨further, trace⟩ := exists_trace s
  rw [trace, Tokenizer.advance, nextStop]
  split
  · rename_i next
    simp only [Bool.and_eq_true, decide_eq_true_eq] at next
    exact next.2 ▸ Tokenizer.position_le_rest
  · exact Nat.le_refl _

/-- Blanks behind the name of an end tag are no place for proposals. -/
theorem place_find_of_ended (mode : s.mode = .endTag) (other : s.token.kind ≠ .whitespace)
    (here : s.position = offset) : (find t offset tag attributeName s.trace).place = .elsewhere := by
  by_cases ended : s.ahead = []
  · rw [Tokenizer.trace_of_ahead_eq_nil ended, Tokenizer.advance, find]
    exact congrArg place (if_pos (by simp [Tokenizer.token_kind_eq_eof_iff.mpr ended]))
  · have touches : offset ≤ s.token.span.stop := here ▸ Tokenizer.position_le_rest
    have reads := Tokenizer.reads ended
    rw [mode] at reads
    rw [find_eq ended (Nat.le_of_eq here)]
    unfold place?
    generalize s.token.kind = kind, s.rest.mode = m' at reads other
    cases reads with
    | endTagBlank => exact absurd rfl other
    | endTagGivenUp | endTagEnds =>
      dsimp only
      rw [if_pos touches]
    | _ => contradiction

/-- The place at the next token, or else one behind it. -/
theorem place_find_eq (some_ahead : s.ahead ≠ []) (starts : s.token.span.start ≤ offset) :
    ∃ tag' attributeName', (find t offset tag attributeName s.trace).place =
      (place? t offset tag s.token s.rest s.rest.trace).getD
        (find t offset tag' attributeName' s.rest.trace).place := by
  rw [find_eq some_ahead starts]
  cases place? t offset tag s.token s.rest s.rest.trace with
  | some place => exact ⟨none, none, rfl⟩
  | none => exact ⟨_, _, rfl⟩

/-- **Where the next token makes a place for end tags.** -/
inductive MakesEndTagPlace (t : Text) (s : Tokenizer) (name : Span) : Bool → Prop
  /-- Right behind the `<` of a start tag. -/
  | startTagOpen (kind : s.token.kind = .startTagOpen) (starts : name.start = s.position + 1) :
      MakesEndTagPlace t s name true
  /-- In blanks behind it. -/
  | startTagOpened (kind : s.token.kind = .whitespace) (mode : s.mode = .startTagOpened)
      (starts : name.start = s.position) : MakesEndTagPlace t s name true
  /-- In the `</` of an end tag. -/
  | endTagOpen (kind : s.token.kind = .endTagOpen) (starts : name.start = s.position + 1) :
      MakesEndTagPlace t s name false
  /-- In blanks behind it. -/
  | endTagOpened (kind : s.token.kind = .whitespace) (mode : s.mode = .endTagOpened)
      (starts : name.start = s.position - 1) : MakesEndTagPlace t s name false
  /-- In the name of an end tag. -/
  | endTag (kind : s.token.kind = .endTag) (starts : slashBefore? t s.position = some name.start) :
      MakesEndTagPlace t s name false

section

variable {name : Span} {inStartTag : Bool} (starts : s.token.span.start < offset)
  (ends : offset ≤ s.token.span.stop)
  (place : (find t offset tag attributeName s.trace).place.endTagName? = some (name, inStartTag))

include starts ends place in
/-- In blanks. -/
theorem makesEndTagPlace_of_whitespace (kind : s.token.kind = .whitespace) :
    MakesEndTagPlace t s name inStartTag ∧ offset ≤ name.stop := by
  have some_ahead := Tokenizer.ahead_ne_nil kind (by decide)
  have mode := Tokenizer.mode_rest_of_whitespace kind
  obtain ⟨tag', attributeName', same⟩ := @place_find_eq t s offset tag attributeName some_ahead
    (Nat.le_of_lt starts)
  rw [same, place?, kind] at place
  dsimp only at place
  rw [if_pos ends, blankPlace?, mode] at place
  -- Blanks are a place for end tags only between a bracket and the name.
  cases opened : s.mode with rw [opened] at place
  | startTagOpened =>
    obtain ⟨rfl, rfl⟩ := Prod.mk.inj (Option.some.inj place)
    refine ⟨.startTagOpened kind opened rfl, ?_⟩
    dsimp only
    split_ifs
    · exact le_nextStop _
    · exact Nat.le_refl _
  | endTagOpened =>
    obtain ⟨rfl, rfl⟩ := Prod.mk.inj (Option.some.inj place)
    exact ⟨.endTagOpened kind opened rfl, Nat.le_refl _⟩
  | startTag | attributeName | attributeValue | content => cases place
  | endTag =>
    dsimp only [Option.getD] at place
    rcases Nat.lt_or_eq_of_le ends with behind | here
    · rw [place_find_of_behind behind] at place
      cases place
    · rw [place_find_of_ended (mode.trans opened) (Tokenizer.not_whitespace_behind kind) here.symm] at place
      cases place
  | embeddedContent | comment | doctype =>
    have reads := Tokenizer.reads some_ahead
    rw [kind, opened] at reads
    generalize s.rest.mode = m' at reads
    cases reads with
    | startTagBlank inside | endTagBlank inside => cases inside

include starts ends place in
/-- **A place for end tags is made** by the token that the cursor is in. -/
theorem makesEndTagPlace_of_find (opened : s.Opened t) :
    MakesEndTagPlace t s name inStartTag ∧ offset ≤ name.stop := by
  have some_ahead : s.ahead ≠ [] :=
    (Tokenizer.some_ahead_of_some_text (Nat.lt_of_lt_of_le starts ends)).1
  by_cases blank : s.token.kind = .whitespace
  · exact makesEndTagPlace_of_whitespace starts ends place blank
  obtain ⟨tag', attributeName', same⟩ := @place_find_eq t s offset tag attributeName some_ahead
    (Nat.le_of_lt starts)
  rw [same] at place
  -- Tokens behind the cursor make no place.
  have not_behind : (find t offset tag' attributeName' s.rest.trace).place.endTagName? =
      some (name, inStartTag) → s.token.span.stop = offset := by
    intro place
    refine Nat.le_antisymm (Nat.le_of_not_lt fun behind => ?_) ends
    rw [place_find_of_behind behind] at place
    cases place
  unfold place? at place
  cases kind : s.token.kind with rw [kind] at place
  | startTagOpen =>
    have stop := Tokenizer.position_rest_of_text (Tokenizer.text_of_startTagOpen kind).1
    dsimp only at place
    split_ifs at place with stops
    · obtain ⟨rfl, rfl⟩ := Prod.mk.inj (Option.some.inj place)
      exact ⟨.startTagOpen kind (stops.symm.trans stop), le_nextStop _⟩
    · exact absurd (not_behind place) stops
  | whitespace => exact absurd kind blank
  | endTagOpen =>
    dsimp only at place
    rw [if_pos ends] at place
    obtain ⟨rfl, rfl⟩ := Prod.mk.inj (Option.some.inj place)
    refine ⟨.endTagOpen kind rfl, ?_⟩
    dsimp only
    split_ifs
    · exact le_nextStop _
    · exact Nat.le_refl _
  | endTag =>
    obtain ⟨start, opens⟩ := opened.endTag (Tokenizer.mode_of_endTag kind)
    have slash := slashBefore?_eq opens
    have position : s.token.span.start = s.position := rfl
    dsimp only at place
    rw [if_pos ends, position, slash] at place
    obtain ⟨rfl, rfl⟩ := Prod.mk.inj (Option.some.inj place)
    exact ⟨.endTag kind slash, ends⟩
  | delimiterAssign =>
    dsimp only at place
    split_ifs at place with stops
    · cases place
    · exact absurd (not_behind place) stops
  | startTagClose =>
    dsimp only at place
    rw [if_pos ends] at place
    cases tag <;> cases place
  | startTag | attributeName | attributeValue =>
    have touches : s.token.span.touches offset = true :=
      Span.touches_iff.mpr ⟨Nat.le_of_lt starts, ends⟩
    dsimp only at place
    rw [if_pos touches] at place
    cases place
  | _ =>
    dsimp only at place
    rw [if_pos ends] at place
    cases place

end

end Cursor

namespace Document

variable {v : Vocabulary} {t : Text} {id : NodeId} {offset : Nat} {name : Span} {inStartTag : Bool}

/-- **In blanks behind a bracket** the bracket is that of the tag. -/
theorem exists_tagBefore_of_blanks {start : Nat} {first : List Token} {s : Tokenizer}
    (scan : (Tokenizer.start v t start).Passes first s) (kind : s.token.kind = .whitespace)
    (starts : s.position < offset) (ends : offset ≤ s.token.span.stop)
    (opened : s.mode = .startTagOpened ∨ s.mode = .endTagOpened) :
    ∃ bracket, s.mode = .startTagOpened ∧ s.position = bracket + 1 ∧ TagBefore t offset bracket true ∨
      s.mode = .endTagOpened ∧ s.position = bracket + 2 ∧ TagBefore t offset bracket false := by
  obtain ⟨earlier, before, passes, some_ahead, rfl, brackets⟩ :=
    scan.bracket_before_blanks (Tokenizer.mode_start v t start) kind opened
  have here : before.At t := passes.at_of_at (Tokenizer.at_start v t start)
  have both := slice?_join here.slice here.rest.slice
  have blank := Tokenizer.token_spells (Tokenizer.ahead_ne_nil kind (by decide))
  rw [kind] at blank
  have behind : before.position < offset := Nat.lt_of_le_of_lt Tokenizer.position_le_rest starts
  refine ⟨before.position, brackets.imp ?_ ?_⟩
  · rintro ⟨mode, own⟩
    obtain ⟨text, -⟩ := Tokenizer.text_of_startTagOpen own
    rw [text] at both
    exact ⟨mode, Tokenizer.position_rest_of_text text, .of_startTag behind ends both blank⟩
  · rintro ⟨mode, own⟩
    have text := Tokenizer.text_of_endTagOpen own
    rw [text] at both
    exact ⟨mode, Tokenizer.position_rest_of_text text,
      .of_endTag behind ends both fun mem => absurd (blank '<' mem) (by decide)⟩

/-- **In the name of an end tag** its `</` is that of the tag, and the blanks before the name belong to it. -/
theorem exists_tagBefore_of_endTag {s : Tokenizer} (here : s.At t) (opened : s.Opened t)
    (kind : s.token.kind = .endTag) (starts : s.position < offset) (ends : offset ≤ s.token.span.stop) :
    ∃ bracket, Cursor.slashBefore? t s.position = some (bracket + 1) ∧ TagBefore t offset bracket false := by
  obtain ⟨bracket, opens⟩ := opened.endTag (Tokenizer.mode_of_endTag kind)
  refine ⟨bracket, Cursor.slashBefore?_eq opens, ?_⟩
  obtain ⟨blanks, slice, blank⟩ := opens.exists_slice
  have whole := slice?_join slice here.slice
  rw [List.append_assoc] at whole
  have behind : bracket ≤ s.position := Nat.le_trans (Nat.le_add_right _ _) opens.le
  refine .of_endTag (Nat.lt_of_le_of_lt behind starts) ends whole fun mem => ?_
  rcases List.mem_append.mp mem with mem | mem
  · exact absurd (blank '<' mem) (by decide)
  · exact absurd ((Tokenizer.name_of_endTag kind).1.chars '<' mem) (by decide)

/-- **Where end tags are proposed there is a tag before the cursor.** The name to be replaced starts right
behind its first bracket and does not end before the cursor. -/
theorem exists_tagBefore {start : Nat} (behind : (Tokenizer.start v t start).position < offset)
    (inside : offset ≤ t.byteLength)
    (place : (Cursor.locate v t start offset).place.endTagName? = some (name, inStartTag)) :
    ∃ bracket, TagBefore t offset bracket inStartTag ∧ name.start = bracket + 1 ∧ offset ≤ name.stop := by
  have from_start := Tokenizer.at_start v t start
  obtain ⟨span, mem, starts, ends⟩ := (Tokenizer.tokens_tile from_start).exists_touching behind inside
  obtain ⟨token, in_scan, rfl⟩ := List.mem_map.mp mem
  obtain ⟨first, after, all⟩ := List.mem_iff_append.mp in_scan
  obtain ⟨s, scan, rfl, -⟩ := Tokenizer.passes_of_tokens_eq all
  obtain ⟨tag, attributeName, located⟩ := locate_of_passes scan starts
  have opened := opened_of_passes_start scan
  rw [located] at place
  -- The token that the cursor is in decides where the bracket stands.
  obtain ⟨makes, stop⟩ := Cursor.makesEndTagPlace_of_find starts ends place opened
  have here : s.At t := scan.at_of_at from_start
  have own : t.slice? ⟨s.position, s.token.span.stop⟩ = some s.token.text := here.slice
  cases makes with
  | startTagOpen kind begins =>
    rw [(Tokenizer.text_of_startTagOpen kind).1] at own
    exact ⟨s.position, .of_startTag starts ends own nofun, begins, stop⟩
  | endTagOpen kind begins =>
    rw [Tokenizer.text_of_endTagOpen kind] at own
    exact ⟨s.position, .of_endTag starts ends own List.not_mem_nil, begins, stop⟩
  | startTagOpened kind mode begins =>
    obtain ⟨bracket, ⟨-, place, tag⟩ | ⟨other, -⟩⟩ :=
      exists_tagBefore_of_blanks scan kind starts ends (.inl mode)
    · exact ⟨bracket, tag, begins.trans place, stop⟩
    · rw [mode] at other
      cases other
  | endTagOpened kind mode begins =>
    obtain ⟨bracket, ⟨other, -⟩ | ⟨-, place, tag⟩⟩ :=
      exists_tagBefore_of_blanks scan kind starts ends (.inr mode)
    · rw [mode] at other
      cases other
    · refine ⟨bracket, tag, ?_, stop⟩
      rw [begins, place]
      rfl
  | endTag kind slash =>
    obtain ⟨bracket, found, tag⟩ := exists_tagBefore_of_endTag here opened kind starts ends
    exact ⟨bracket, tag, Option.some.inj (slash.symm.trans found), stop⟩

end Document

end MarkupAnalysis
