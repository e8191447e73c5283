import MarkupAnalysis.Completion.Complete
import MarkupAnalysis.Proofs.Token.Restart
import MarkupAnalysis.Proofs.Token.Spelling

/-! # Places fit the text

The cursor is found among tokens of the text, so all offsets that its place carries are boundaries of this
text, whatever offset the search has started from. A bracket stands before every name.

* **`Text.OpenedBy`** — an opening bracket and blanks before an offset.
* **`Tokenizer.Opened`** — after an opening bracket and before the name there are blanks only.
* **`Place.FitsIn`** — the offsets of a place fit a text.
* **`Cursor.fitsIn_place?`** — the place at a token fits.
* **`Cursor.fitsIn_locate`** — the place that is found fits. -/

namespace MarkupAnalysis

open Text

/-! ## Characters of one byte -/

namespace Text

/-- A slice of characters of one byte can be cut anywhere. -/
theorem isBoundary_of_slice? {t part : Text} {start stop offset : Nat}
    (slice : t.slice? ⟨start, stop⟩ = some part) (single : ∀ c ∈ part, c.utf8Size = 1)
    (lower : start ≤ offset) (upper : offset ≤ stop) : t.isBoundary offset = true := by
  have byteLength_eq {text : Text} (single : ∀ c ∈ text, c.utf8Size = 1) :
      byteLength text = text.length := by
    induction text with
    | nil => rfl
    | cons c text ih =>
      rw [byteLength_cons, single c List.mem_cons_self,
        ih fun d mem => single d (List.mem_cons_of_mem _ mem), List.length_cons, Nat.add_comm]
  obtain ⟨before, behind, split, rfl, rfl⟩ := slice?_eq_some_iff.mp slice
  rw [byteLength_eq single] at upper
  refine isBoundary_iff.mpr ⟨before ++ part.take (offset - byteLength before),
    part.drop (offset - byteLength before) ++ behind, ?_, ?_⟩
  · rw [split, List.append_assoc, List.append_assoc, ← List.append_assoc (part.take _),
      List.take_append_drop]
  · rw [byteLength_append, byteLength_eq fun c mem => single c (List.mem_of_mem_take mem),
      List.length_take]
    omega

/-- A text that is turned round has as many bytes. -/
@[simp] theorem byteLength_reverse (t : Text) : byteLength t.reverse = byteLength t := by
  induction t with
  | nil => rfl
  | cons c t ih => simp [ih, Nat.add_comm]

/-- ASCII blanks have one byte. -/
theorem utf8Size_of_isAsciiBlank {c : Char} (blank : isAsciiBlank c = true) : c.utf8Size = 1 := by
  simp only [isAsciiBlank, Bool.or_eq_true, decide_eq_true_eq] at blank
  rcases blank with (((rfl | rfl) | rfl) | rfl) | rfl <;> rfl

/-! ## Opening brackets -/

/-- **An opening bracket** stands at an offset, and only blanks stand between it and another offset. -/
def OpenedBy (t bracket : Text) (start position : Nat) : Prop :=
  t.slice? ⟨start, start + bracket.byteLength⟩ = some bracket ∧
    t.BlankBetween (start + bracket.byteLength) position

namespace OpenedBy

variable {t bracket : Text} {start position offset : Nat}

/-- The bracket and the blanks behind it as one slice. -/
theorem exists_slice (h : t.OpenedBy bracket start position) : ∃ blanks,
    t.slice? ⟨start, position⟩ = some (bracket ++ blanks) ∧ ∀ c ∈ blanks, isAsciiBlank c = true := by
  obtain ⟨opens, blanks, slice, blank⟩ := h
  exact ⟨blanks, slice?_join opens slice, blank⟩

/-- The blanks are behind the bracket. -/
theorem le (h : t.OpenedBy bracket start position) : start + bracket.byteLength ≤ position := by
  obtain ⟨-, blanks, slice, -⟩ := h
  obtain ⟨-, -, -, -, stop⟩ := slice?_eq_some_iff.mp slice
  omega

/-- From the bracket of a start tag or an end tag on, the text can be cut anywhere. -/
theorem isBoundary (h : t.OpenedBy bracket start position) (opens : bracket <+: "</".toList)
    (lower : start ≤ offset) (upper : offset ≤ position) : t.isBoundary offset = true := by
  have single : ∀ c ∈ "</".toList, c.utf8Size = 1 :=
    List.forall_mem_cons.mpr ⟨rfl, List.forall_mem_singleton.mpr rfl⟩
  obtain ⟨blanks, slice, blank⟩ := h.exists_slice
  refine isBoundary_of_slice? slice (fun c mem => ?_) lower upper
  rcases List.mem_append.mp mem with in_bracket | in_blanks
  · exact single c (opens.subset in_bracket)
  · exact utf8Size_of_isAsciiBlank (blank c in_blanks)

end OpenedBy

end Text

/-- The slash before the name of an end tag is that of its bracket. -/
theorem Cursor.slashBefore?_eq {t : Text} {start position : Nat}
    (h : t.OpenedBy "</".toList start position) : slashBefore? t position = some (start + 1) := by
  obtain ⟨blanks, slice, blank⟩ := h.exists_slice
  obtain ⟨before, behind, split, rfl, rfl⟩ := slice?_eq_some_iff.mp slice
  have taken : t.takeBytes? (byteLength before + byteLength ("</".toList ++ blanks)) =
      some (before ++ ("</".toList ++ blanks)) := by
    rw [split, ← byteLength_append]
    exact takeBytes?_append _ _
  have backwards : (before ++ ("</".toList ++ blanks)).reverse.dropWhile isAsciiBlank =
      '/' :: '<' :: before.reverse := by
    have all : ∀ c ∈ blanks.reverse, isAsciiBlank c = true := fun c mem => blank c (List.mem_reverse.mp mem)
    rw [List.reverse_append, List.reverse_append, List.append_assoc, List.dropWhile_append_of_pos all]
    rfl
  rw [slashBefore?, taken, Option.getD_some, backwards]
  show some (byteLength ('<' :: before.reverse)) = _
  rw [byteLength_cons, byteLength_reverse, Nat.add_comm]
  rfl

/-! ## Between an opening bracket and a name -/

namespace Tokenizer

variable {s s' : Tokenizer} {t : Text}

/-- **After an opening bracket** and before the name there are blanks only. -/
structure Opened (t : Text) (s : Tokenizer) : Prop where
  /-- After the `<` of a start tag. -/
  startTag : s.mode = .startTagOpened → ∃ start, t.OpenedBy ['<'] start s.position
  /-- After the `</` of an end tag. -/
  endTag : s.mode = .endTagOpened → ∃ start, t.OpenedBy "</".toList start s.position

/-- In the content no tag has been opened. -/
theorem opened_of_content (mode : s.mode = .content) : s.Opened t := by
  constructor <;> rw [mode] <;> exact nofun

/-- A scan is started in the content. -/
theorem mode_start (v : Vocabulary) (t : Text) (offset : Nat) : (start v t offset).mode = .content := by
  unfold start
  split <;> rfl

/-- A token that is the bracket opens a tag. -/
theorem At.openedBy (here : s.At t) {bracket : Text} (text : s.token.text = bracket) :
    t.OpenedBy bracket s.position s.rest.position := by
  have slice := here.slice
  have stop := position_rest_of_text text
  rw [text] at slice
  refine ⟨?_, ?_⟩
  · rw [← stop]
    exact slice
  · rw [← stop]
    exact .refl here.rest.isBoundary

/-- **A step** leaves only blanks between the bracket and the name. -/
theorem Opened.rest (h : s.Opened t) (here : s.At t) (some_ahead : s.ahead ≠ []) : s.rest.Opened t := by
  have reads := reads some_ahead
  constructor <;> intro mode <;> rw [mode] at reads
  · rcases reads.to_startTagOpened with kind | ⟨kind, before⟩
    · exact ⟨_, here.openedBy (text_of_startTagOpen kind).1⟩
    · obtain ⟨start, opens, blank⟩ := h.startTag before
      exact ⟨start, opens, blank.join (here.blankBetween kind)⟩
  · rcases reads.to_endTagOpened with kind | ⟨kind, before⟩
    · exact ⟨_, here.openedBy (text_of_endTagOpen kind)⟩
    · obtain ⟨start, opens, blank⟩ := h.endTag before
      exact ⟨start, opens, blank.join (here.blankBetween kind)⟩

end Tokenizer

/-! ## Places -/

/-- Both ends of the span are boundaries of the text. -/
def Span.FitsIn (t : Text) (s : Span) : Prop := t.isBoundary s.start = true ∧ t.isBoundary s.stop = true

/-- **The offsets of a place fit a text**: they are boundaries, and so is the offset of the bracket that is
one before a name. -/
def Place.FitsIn (t : Text) : Place → Prop
  | .newTag name bracket | .tagName name bracket =>
    bracket + 1 = name.start ∧ t.isBoundary bracket = true ∧ name.FitsIn t
  | .endTag name => 0 < name.start ∧ t.isBoundary (name.start - 1) = true ∧ name.FitsIn t
  | .attributeName span | .attributeValue span => span.FitsIn t
  | .afterStartTag _ stop => t.isBoundary stop = true
  | .elsewhere => True

namespace Cursor

variable {t : Text} {s : Tokenizer} {offset : Nat} {tag : Option Text} {place : Place}

/-- The next token comes first. -/
theorem exists_trace (s : Tokenizer) : ∃ further, s.trace = s.advance :: further := by
  by_cases ended : s.ahead = []
  · exact ⟨[], Tokenizer.trace_of_ahead_eq_nil ended⟩
  · exact ⟨_, Tokenizer.trace_of_ahead_ne_nil ended⟩

/-- The end of the next token is a boundary. -/
theorem isBoundary_nextStop (here : s.At t) (boundary : t.isBoundary offset = true) (kind : TokenKind) :
    t.isBoundary (nextStop offset kind s.trace) = true := by
  obtain ⟨further, trace⟩ := exists_trace s
  rw [trace, Tokenizer.advance, nextStop]
  split
  · exact here.rest.isBoundary
  · exact boundary

/-- The place in blanks fits. -/
theorem fitsIn_blankPlace? (here : s.At t) (opened : s.Opened t) (boundary : t.isBoundary offset = true)
    (kind : s.token.kind = .whitespace)
    (found : blankPlace? offset s.token.span s.rest s.rest.trace = some place) : place.FitsIn t := by
  have reads := Tokenizer.reads (Tokenizer.ahead_ne_nil kind (by decide))
  have stop := here.rest.isBoundary
  rw [kind] at reads
  unfold blankPlace? at found
  -- Blanks leave the mode as it is, so the mode behind them tells what stands before them.
  generalize mode : s.rest.mode = m at found reads
  cases m with
  | startTagOpened =>
    obtain rfl := Option.some.inj found
    obtain ⟨start, opens⟩ := opened.startTag (reads.to_startTagOpened.resolve_left nofun).2
    have behind : start + 1 ≤ s.position := opens.le
    refine ⟨Nat.sub_add_cancel (Nat.le_trans (Nat.le_add_left 1 start) behind),
      opens.isBoundary ⟨['/'], rfl⟩ (Nat.le_sub_of_add_le behind) (Nat.sub_le _ _),
      here.isBoundary, ?_⟩
    dsimp only
    split
    · exact isBoundary_nextStop here.rest boundary _
    · exact boundary
  | endTagOpened =>
    obtain rfl := Option.some.inj found
    obtain ⟨start, opens⟩ := opened.endTag (reads.to_endTagOpened.resolve_left nofun).2
    have behind : start + 2 ≤ s.position := opens.le
    have position : s.token.span.start = s.position := rfl
    refine ⟨?_, opens.isBoundary List.prefix_rfl ?_ ?_,
      opens.isBoundary List.prefix_rfl ?_ (Nat.sub_le _ _), boundary⟩ <;> dsimp only <;> omega
  | startTag | attributeName | attributeValue =>
    obtain rfl := Option.some.inj found
    exact ⟨stop, boundary⟩
  | content =>
    obtain rfl := Option.some.inj found
    trivial
  | _ => cases found

/-- **The place at a token fits.** -/
theorem fitsIn_place? (here : s.At t) (opened : s.Opened t) (boundary : t.isBoundary offset = true)
    (found : place? t offset tag s.token s.rest s.rest.trace = some place) : place.FitsIn t := by
  have start := here.isBoundary
  have stop := here.rest.isBoundary
  unfold place? at found
  cases kind : s.token.kind with rw [kind] at found
  | startTagOpen =>
    obtain ⟨ends, found⟩ := Option.ite_none_right_eq_some.mp found
    obtain rfl := Option.some.inj found
    have behind := Tokenizer.position_rest_of_text (Tokenizer.text_of_startTagOpen kind).1
    refine ⟨?_, start, boundary, isBoundary_nextStop here.rest boundary _⟩
    rw [← ends]
    exact behind.symm
  | startTag =>
    obtain ⟨-, found⟩ := Option.ite_none_right_eq_some.mp found
    obtain rfl := Option.some.inj found
    -- Only blanks stand between the bracket and the name, and each of them is one byte.
    obtain ⟨opening, opens⟩ := opened.startTag (Tokenizer.mode_of_startTag kind)
    have behind : opening + 1 ≤ s.position := opens.le
    exact ⟨Nat.sub_add_cancel (Nat.le_trans (Nat.le_add_left 1 opening) behind),
      opens.isBoundary ⟨['/'], rfl⟩ (Nat.le_sub_of_add_le behind) (Nat.sub_le _ _),
      start, stop⟩
  | attributeName | attributeValue =>
    obtain ⟨-, found⟩ := Option.ite_none_right_eq_some.mp found
    obtain rfl := Option.some.inj found
    exact ⟨start, stop⟩
  | delimiterAssign =>
    obtain ⟨-, found⟩ := Option.ite_none_right_eq_some.mp found
    obtain rfl := Option.some.inj found
    exact ⟨boundary, isBoundary_nextStop here.rest boundary _⟩
  | whitespace =>
    obtain ⟨-, found⟩ := Option.ite_none_right_eq_some.mp found
    exact fitsIn_blankPlace? here opened boundary kind found
  | endTagOpen =>
    obtain ⟨-, found⟩ := Option.ite_none_right_eq_some.mp found
    obtain rfl := Option.some.inj found
    have opens := here.openedBy (Tokenizer.text_of_endTagOpen kind)
    -- The name to be replaced starts with the slash.
    have slash : t.isBoundary (s.position + 1) = true :=
      opens.isBoundary List.prefix_rfl (Nat.le_succ _) (Nat.le_trans (Nat.le_succ _) opens.le)
    refine ⟨Nat.succ_pos _, start, slash, ?_⟩
    dsimp only
    split
    · exact isBoundary_nextStop here.rest boundary _
    · exact boundary
  | endTag =>
    obtain ⟨-, found⟩ := Option.ite_none_right_eq_some.mp found
    obtain ⟨opening, opens⟩ := opened.endTag (Tokenizer.mode_of_endTag kind)
    -- The slash is found across the blanks before the name.
    rw [Tokenizer.token_span, slashBefore?_eq opens] at found
    obtain rfl := Option.some.inj found
    have behind : opening + 2 ≤ s.position := opens.le
    have bracket : t.isBoundary opening = true :=
      opens.isBoundary List.prefix_rfl (Nat.le_refl _) (by omega)
    have slash : t.isBoundary (opening + 1) = true :=
      opens.isBoundary List.prefix_rfl (Nat.le_succ _) (by omega)
    exact ⟨Nat.succ_pos _, bracket, slash, stop⟩
  | startTagClose =>
    obtain ⟨-, found⟩ := Option.ite_none_right_eq_some.mp found
    obtain rfl := Option.some.inj found
    cases tag with
    | none => trivial
    | some tag => exact stop
  | _ =>
    obtain ⟨-, found⟩ := Option.ite_none_right_eq_some.mp found
    obtain rfl := Option.some.inj found
    trivial

/-- **The place that is found among tokens fits.** -/
theorem fitsIn_find (here : s.At t) (opened : s.Opened t) (boundary : t.isBoundary offset = true)
    (tag attributeName : Option Text) : (find t offset tag attributeName s.trace).place.FitsIn t := by
  induction s using Tokenizer.induction generalizing tag attributeName with
  | ended s ended =>
    rw [Tokenizer.trace_of_ahead_eq_nil ended, Tokenizer.advance, find,
      if_pos (by simp [Tokenizer.token_kind_eq_eof_iff.mpr ended])]
    trivial
  | step s some_ahead ih =>
    rw [Tokenizer.trace_of_ahead_ne_nil some_ahead, Tokenizer.advance, find]
    split
    · trivial
    · cases found : place? t offset tag s.token s.rest s.rest.trace with
      | some place => exact fitsIn_place? here opened boundary found
      | none => exact ih here.rest (opened.rest here some_ahead) _ _

/-- **The place at an offset fits**, wherever the search starts. -/
theorem fitsIn_locate (v : Vocabulary) (start : Nat) (boundary : t.isBoundary offset = true) :
    (locate v t start offset).place.FitsIn t :=
  fitsIn_find (Tokenizer.at_start v t start) (Tokenizer.opened_of_content (Tokenizer.mode_start v t start))
    boundary none none

end Cursor

end MarkupAnalysis
