import MarkupAnalysis.Token.Progress

/-! # The tokenizer

A tokenizer stands somewhere in a text and cuts one token after the other off what lies ahead. It can be
started at any character boundary and in any mode.

* **`Tokenizer`** — the place, the mode and what is remembered.
* **`Tokenizer.advance`** — the next token and the tokenizer after it.
* **`Tokenizer.trace`**, **`Tokenizer.tokens`** — all tokens up to the end of the text. Each step but the
  last one takes characters or gets back to the content, so the list is finite
  (`remaining_rest_lt`).
* **`Tokenizer.next?`** — the tokens one by one, the end of the text only once. -/

namespace MarkupAnalysis

open Text

/-- A place in a text from which tokens are cut. -/
structure Tokenizer where
  /-- The vocabulary that tells which bodies are opaque. -/
  vocabulary : Vocabulary
  /-- Whether a `<` that interrupts a tag yields an empty closing token first. -/
  pseudoClose : Bool := false
  /-- The byte offset of the place. -/
  position : Nat
  /-- The text ahead. -/
  ahead : Text
  /-- The mode of the grammar. -/
  mode : Mode := .content
  /-- What is remembered from the tag being read. -/
  memory : TagMemory := {}
  /-- Whether the end of the text has been handed out by `next?`. -/
  finished : Bool := false

namespace Mode

/-- One outside the content, where a token may take no character. -/
def detour : Mode → Nat
  | content => 0
  | _ => 1

/-- A mode costs at most one token without characters. -/
theorem detour_le_one (mode : Mode) : mode.detour ≤ 1 := by cases mode <;> decide

/-- Every mode but the content costs one. -/
theorem detour_eq_one {mode : Mode} (h : mode ≠ content) : mode.detour = 1 := by
  cases mode <;> first | rfl | exact absurd rfl h

end Mode

namespace Tokenizer

/-! ## Starting -/

/-- A tokenizer in the content at `offset`. An offset that is no character boundary stands for the end
of the text. -/
def start (v : Vocabulary) (t : Text) (offset : Nat) : Tokenizer :=
  match t.dropBytes? offset with
  | some ahead => { vocabulary := v, position := offset, ahead }
  | none => { vocabulary := v, position := t.byteLength, ahead := [] }

/-- Like `start`, but an offset that is no character boundary is refused. -/
def start? (v : Vocabulary) (t : Text) (offset : Nat) : Except ScanError Tokenizer :=
  if t.isBoundary offset then .ok (start v t offset)
  else .error (.offsetOutOfBounds offset t.byteLength)

/-- The same place in another mode. -/
def withMode (s : Tokenizer) (mode : Mode) : Tokenizer := { s with mode }

/-- The same place with or without closing tokens for interrupted tags. -/
def withPseudoClose (s : Tokenizer) (pseudoClose : Bool) : Tokenizer := { s with pseudoClose }

/-! ## One token -/

/-- What comes next. -/
def reading (s : Tokenizer) : Reading :=
  match s.ahead with
  | [] => ⟨.eof, 0, s.mode, s.memory, none⟩
  | c :: cs => readToken s.vocabulary s.pseudoClose s.mode s.memory (c :: cs)

/-- The characters of the next token. -/
def lexeme (s : Tokenizer) : Text := s.ahead.take s.reading.length

/-- The next token. At the end of the text it is `eof`, time and again. -/
def token (s : Tokenizer) : Token where
  kind := s.reading.kind
  span := ⟨s.position, s.position + s.lexeme.byteLength⟩
  text := s.lexeme
  error := s.reading.error

/-- The tokenizer after the next token. -/
def rest (s : Tokenizer) : Tokenizer :=
  { s with
    position := s.position + s.lexeme.byteLength
    ahead := s.ahead.drop s.reading.length
    mode := s.reading.mode
    memory := s.reading.memory }

/-- The next token and the tokenizer after it. -/
def advance (s : Tokenizer) : Token × Tokenizer := (s.token, s.rest)

/-- The text ahead is the next lexeme followed by the text ahead of the rest. -/
theorem lexeme_append_ahead_rest (s : Tokenizer) : s.lexeme ++ s.rest.ahead = s.ahead :=
  List.take_append_drop _ _

/-! ## Progress -/

/-- Bounds the number of tokens to come: two for each character, and one more outside the content. -/
def remaining (s : Tokenizer) : Nat := 2 * s.ahead.length + s.mode.detour

/-- Before the end of the text every token brings the bound down. -/
theorem remaining_rest_lt (s : Tokenizer) (h : ¬ s.ahead.isEmpty) :
    s.rest.remaining < s.remaining := by
  have progress : 0 < s.reading.length ∨ (s.reading.mode = .content ∧ s.mode ≠ .content) := by
    unfold reading
    split
    · simp_all
    · exact readToken_progresses ..
  have shorter : s.rest.ahead.length = s.ahead.length - s.reading.length := List.length_drop
  have some_ahead : 0 < s.ahead.length := by
    simpa [List.length_pos_iff, List.isEmpty_iff] using h
  have detour : s.rest.mode.detour ≤ 1 := Mode.detour_le_one _
  simp only [remaining, shorter]
  rcases progress with taken | ⟨back, away⟩
  · omega
  · have straight : s.rest.mode.detour = 0 := by rw [show s.rest.mode = .content from back]; rfl
    have := Mode.detour_eq_one away
    omega

/-! ## All tokens -/

/-- Every token to come with the tokenizer after it; the last one is `eof`. -/
def trace (s : Tokenizer) : List (Token × Tokenizer) :=
  if s.ahead.isEmpty then [s.advance] else s.advance :: s.rest.trace
termination_by s.remaining
decreasing_by exact s.remaining_rest_lt (by assumption)

/-- Every token to come; the last one is `eof`. -/
def tokens (s : Tokenizer) : List Token := s.trace.map Prod.fst

/-! ## One by one -/

/-- The next token and the tokenizer after it; nothing once `eof` has been handed out. -/
def next? (s : Tokenizer) : Option (Token × Tokenizer) :=
  if s.finished then none
  else some (s.token, { s.rest with finished := s.token.kind == .eof })

/-- All that `next?` still hands out, with the tokenizer that has handed out everything. -/
def drain (s : Tokenizer) : List Token × Tokenizer :=
  if s.finished then ([], s)
  else
    let trace := s.trace
    (trace.map Prod.fst, { (trace.getLast?.map Prod.snd).getD s with finished := true })

end Tokenizer

/-- The tokens of a text from `offset` on, started in the content. -/
def tokenize (v : Vocabulary) (t : Text) (offset : Nat) : List Token :=
  (Tokenizer.start v t offset).tokens

end MarkupAnalysis
