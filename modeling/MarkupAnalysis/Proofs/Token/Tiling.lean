import MarkupAnalysis.Proofs.Token.Passage

/-! # Tokens tile the text

A scan cuts the text from its starting point to the end into adjacent tokens. Nothing is skipped and
nothing is read twice, whatever mode the scan starts in; only closing tokens for interrupted tags, and
the end of the text, are empty.

* **`Span.Tiles`** — adjacent spans from one offset to another.
* **`CompleteScan`** — what is true of all tokens of a scan together.
* **`Tokenizer.HandsOut`** — tokens taken one by one until there are none.
* **`handsOut_completeScan`** — taking tokens one by one comes to an end, with a complete scan. -/

namespace MarkupAnalysis

open Text

/-- Two elements of a list in order are the same, or one of them comes before the other. -/
theorem eq_or_rel_of_pairwise {α : Type} {R : α → α → Prop} {l : List α} (ordered : l.Pairwise R) {x y : α}
    (mem : x ∈ l) (mem' : y ∈ l) : x = y ∨ R x y ∨ R y x := by
  obtain ⟨before, after, rfl⟩ := List.append_of_mem mem
  obtain ⟨-, behind, across⟩ := List.pairwise_append.mp ordered
  rcases List.mem_append.mp mem' with earlier | here
  · exact .inr (.inr (across y earlier x List.mem_cons_self))
  rcases List.mem_cons.mp here with rfl | later
  · exact .inl rfl
  · exact .inr (.inl (List.rel_of_pairwise_cons behind later))

/-- Each span starts where the one before ends: the first at `start`, and the last ends at `stop`. -/
def Span.Tiles : (start : Nat) → List Span → (stop : Nat) → Prop
  | start, [], stop => start = stop
  | start, span :: spans, stop => span.start = start ∧ start ≤ span.stop ∧ Tiles span.stop spans stop

/-- Of two tiles the first one ends before the second one starts. -/
theorem Span.Tiles.pairwise {start stop : Nat} {spans : List Span} (h : Tiles start spans stop) :
    spans.Pairwise fun a b => a.stop ≤ b.start := by
  -- Not only the next tile but all later ones start behind a tile.
  have starts_after : ∀ {start : Nat} {spans : List Span}, Tiles start spans stop →
      ∀ span ∈ spans, start ≤ span.start := by
    intro start spans h span mem
    induction spans generalizing start with
    | nil => simp at mem
    | cons first spans ih =>
      rcases List.mem_cons.mp mem with rfl | later
      · exact Nat.le_of_eq h.1.symm
      · exact Nat.le_trans h.2.1 (ih h.2.2 later)
  induction spans generalizing start with
  | nil => exact .nil
  | cons span spans ih => exact .cons (starts_after h.2.2) (ih h.2.2)

/-- A closing token that stands for the `<` of the next tag. -/
def Token.Interrupts (token : Token) : Prop :=
  (token.kind = .startTagClose ∨ token.kind = .endTagClose) ∧
    token.error = some .closingBracketMissing

/-- **A complete scan** of a text from `start` on. -/
structure CompleteScan (t : Text) (start : Nat) (tokens : List Token) : Prop where
  /-- The last token is `eof`, and no other one is. -/
  ends : ∃ before last, tokens = before ++ [last] ∧ last.kind = .eof ∧
    ∀ token ∈ before, token.kind ≠ .eof
  /-- The tokens are adjacent, from the start to the end of the text. -/
  tiles : Span.Tiles start (tokens.map (·.span)) t.byteLength
  /-- Tokens are cut at character boundaries. -/
  boundaries : ∀ token ∈ tokens, t.isBoundary token.span.start ∧ t.isBoundary token.span.stop
  /-- A token has the characters of its span. -/
  slices : ∀ token ∈ tokens, t.slice? token.span = some token.text
  /-- Only `eof` and the closing tokens of interrupted tags are empty. -/
  empty : ∀ token ∈ tokens, token.span.isEmpty ↔ token.kind = .eof ∨ token.Interrupts
  /-- There are at most two tokens for each byte, and `eof`. -/
  count : tokens.length ≤ 2 * (t.byteLength - start) + 1

namespace Tokenizer

variable {s : Tokenizer} {t : Text}

/-! ## The tokens to come -/

/-- The tokens to come are adjacent. -/
theorem tokens_tile (h : s.At t) : Span.Tiles s.position (s.tokens.map (·.span)) t.byteLength := by
  induction s using Tokenizer.induction with
  | ended s ended =>
    have still : s.rest.position = s.position := by
      simp [rest, lexeme, ended]
    rw [tokens_of_ahead_eq_nil ended]
    exact ⟨rfl, position_le_rest, still.trans (h.position_eq ended)⟩
  | step s some_ahead ih =>
    rw [tokens_of_ahead_ne_nil some_ahead]
    exact ⟨rfl, position_le_rest, ih h.rest⟩

/-- A token to come is handed out somewhere in the text. -/
theorem exists_at_of_mem_tokens (h : s.At t) {token : Token} (mem : token ∈ s.tokens) :
    ∃ s' : Tokenizer, s'.At t ∧ s'.token = token := by
  obtain ⟨before, after, split⟩ := List.mem_iff_append.mp mem
  obtain ⟨s', passes, same, -⟩ := passes_of_tokens_eq split
  exact ⟨s', passes.at_of_at h, same⟩

/-- `eof` comes last and only once. -/
theorem tokens_end (s : Tokenizer) :
    ∃ before last, s.tokens = before ++ [last] ∧ last.kind = .eof ∧
      ∀ token ∈ before, token.kind ≠ .eof := by
  obtain ⟨passed, s', passes, ended, all⟩ := s.exists_passes
  refine ⟨passed, s'.token, all, token_kind_eq_eof_iff.mpr ended, ?_⟩
  clear all ended
  -- A token that was passed over had text ahead, so it was not `eof`.
  induction passes with
  | here => simp
  | step some_ahead _ ih =>
    intro token mem
    rcases List.mem_cons.mp mem with rfl | later
    · exact mt token_kind_eq_eof_iff.mp some_ahead
    · exact ih token later

/-- A token is empty at the end of the text and where it stands for an interruption. -/
theorem token_isEmpty_iff (s : Tokenizer) :
    s.token.span.isEmpty ↔ s.token.kind = .eof ∨ s.token.Interrupts := by
  have no_bytes : s.token.span.isEmpty ↔ s.token.text = [] := by
    rw [← byteLength_eq_zero_iff, Span.isEmpty, beq_iff_eq]
    show s.position = s.position + s.token.text.byteLength ↔ _
    omega
  rw [no_bytes, token_kind_eq_eof_iff]
  by_cases ended : s.ahead = []
  · simp [token, lexeme, ended]
  · simp only [ended, false_or]
    exact token_text_eq_nil_iff ended

/-- A token with characters stands before the end of the text and interrupts nothing. -/
theorem some_ahead_of_some_text (some_text : s.position < s.token.span.stop) :
    s.ahead ≠ [] ∧ ¬ s.token.Interrupts := by
  have not_empty : ¬ s.token.span.isEmpty = true := by
    rw [Span.isEmpty, beq_iff_eq]
    exact Nat.ne_of_lt some_text
  rw [token_isEmpty_iff, not_or, token_kind_eq_eof_iff] at not_empty
  exact not_empty

/-- One more than the tokens that characters account for: `eof`, or an empty token with which a tag is
interrupted. The content never begins with such a token. -/
def mayRest (s : Tokenizer) : Nat := if s.mode = .content ∧ s.ahead ≠ [] then 0 else 1

theorem mayRest_le_one (s : Tokenizer) : s.mayRest ≤ 1 := by
  unfold mayRest
  split <;> omega

/-- **At most two tokens for each character, and `eof`.** A token without characters leads to the content,
and the next one there has characters; hence the content saves one token of the bound. -/
theorem length_tokens_le (s : Tokenizer) : s.tokens.length ≤ 2 * s.ahead.length + s.mayRest := by
  induction s using Tokenizer.induction with
  | ended s ended => simp [tokens_of_ahead_eq_nil ended, mayRest, ended]
  | step s some_ahead ih =>
    rw [tokens_of_ahead_ne_nil some_ahead, List.length_cons]
    have progress := readToken_progresses s.vocabulary s.pseudoClose s.mode s.memory
    obtain ⟨c, cs, split⟩ := List.exists_cons_of_ne_nil some_ahead
    specialize progress c cs
    rw [← split, ← reading_eq some_ahead] at progress
    have shorter : s.rest.ahead.length = s.ahead.length - s.reading.length := List.length_drop
    have some_left : 0 < s.ahead.length := List.length_pos_iff.mpr some_ahead
    have at_most_one := s.rest.mayRest_le_one
    rcases progress with taken | ⟨back, away⟩
    · -- A token with characters pays for itself and for what may rest after it.
      omega
    · -- Any other token leaves another mode for the content.
      have outside : s.mayRest = 1 := if_neg fun h => away h.1
      by_cases taken : s.reading.length = 0
      · have same : s.rest.ahead = s.ahead := by simp [rest, taken]
        have inside : s.rest.mayRest = 0 := if_pos ⟨back, same ▸ some_ahead⟩
        omega
      · omega

/-- **All tokens to come are a complete scan.** -/
theorem completeScan (h : s.At t) : CompleteScan t s.position s.tokens where
  ends := s.tokens_end
  tiles := tokens_tile h
  boundaries := by
    intro token mem
    obtain ⟨s', here, rfl⟩ := exists_at_of_mem_tokens h mem
    exact ⟨here.isBoundary, here.rest.isBoundary⟩
  slices := by
    intro token mem
    obtain ⟨s', here, rfl⟩ := exists_at_of_mem_tokens h mem
    exact here.slice
  empty := by
    intro token mem
    obtain ⟨s', -, rfl⟩ := exists_at_of_mem_tokens h mem
    exact s'.token_isEmpty_iff
  count := by
    have bound := s.length_tokens_le
    have := s.mayRest_le_one
    have := length_le_byteLength s.ahead
    have := h.byteLength_ahead
    omega

/-! ## One by one -/

/-- **Taking tokens one by one** until there are none: the tokens that are handed out. -/
inductive HandsOut : Tokenizer → List Token → Prop
  /-- Nothing is handed out any more. -/
  | nothing {s : Tokenizer} (none_left : s.next? = none) : HandsOut s []
  /-- A token is handed out, and the others after it. -/
  | token {s s' : Tokenizer} {token : Token} {tokens : List Token}
      (handed : s.next? = some (token, s')) (further : HandsOut s' tokens) :
      HandsOut s (token :: tokens)

/-- Taking tokens one by one yields one list at most. -/
theorem HandsOut.unique {first second : List Token} (h : s.HandsOut first)
    (h' : s.HandsOut second) : first = second := by
  induction h generalizing second with
  | nothing none_left =>
    cases h' with
    | nothing => rfl
    | token handed => simp [none_left] at handed
  | token handed _ ih =>
    cases h' with
    | nothing none_left => simp [none_left] at handed
    | token handed' further =>
      obtain ⟨rfl, rfl⟩ := Prod.mk.inj (Option.some.inj (handed.symm.trans handed'))
      rw [ih further]

/-- Taking tokens one by one yields all tokens up to `eof`. -/
theorem handsOut_tokens (fresh : s.finished = false) : s.HandsOut s.tokens := by
  induction s using Tokenizer.induction with
  | ended s ended =>
    have handed : s.next? = some (s.token, { s.rest with finished := true }) := by
      simp [next?, fresh, token_kind_eq_eof_iff.mpr ended]
    rw [tokens_of_ahead_eq_nil ended]
    exact .token handed (.nothing rfl)
  | step s some_ahead ih =>
    have unfinished : s.rest.finished = false := fresh
    have more : (s.token.kind == .eof) = false := by
      simpa using mt token_kind_eq_eof_iff.mp some_ahead
    have handed : s.next? = some (s.token, s.rest) := by
      simp [next?, fresh, more, ← unfinished]
    rw [tokens_of_ahead_ne_nil some_ahead]
    exact .token handed (ih unfinished)

end Tokenizer

/-- Where a scan starts: at the offset, if that is a character boundary, else at the end. -/
def scanStart (t : Text) (offset : Nat) : Nat := if t.isBoundary offset then offset else t.byteLength

/-- A tokenizer is started at the start of its scan. -/
theorem position_start (v : Vocabulary) (t : Text) (offset : Nat) :
    (Tokenizer.start v t offset).position = scanStart t offset := by
  unfold Tokenizer.start scanStart isBoundary
  split <;> simp_all

/-- **Every scan comes to an end and tiles the text**: from any offset, in any mode, with closing tokens
for interrupted tags or without them. -/
theorem handsOut_completeScan (v : Vocabulary) (t : Text) (offset : Nat) (mode : Mode)
    (pseudoClose : Bool) :
    ∃ tokens,
      (∀ handed, (((Tokenizer.start v t offset).withMode mode).withPseudoClose pseudoClose).HandsOut
        handed ↔ handed = tokens) ∧
      CompleteScan t (scanStart t offset) tokens := by
  set s := ((Tokenizer.start v t offset).withMode mode).withPseudoClose pseudoClose
  have here : s.At t := Tokenizer.at_start v t offset
  have fresh : s.finished = false := by
    show (Tokenizer.start v t offset).finished = false
    unfold Tokenizer.start
    split <;> rfl
  refine ⟨s.tokens, fun handed => ⟨fun h => h.unique (Tokenizer.handsOut_tokens fresh), ?_⟩, ?_⟩
  · rintro rfl
    exact Tokenizer.handsOut_tokens fresh
  · rw [← position_start v t offset]
    exact Tokenizer.completeScan here

end MarkupAnalysis
