import MarkupAnalysis.Proofs.Text.Boundary
import MarkupAnalysis.Proofs.Token.Grammar

/-! # Passing over tokens

A scan as a chain of steps: each step hands out one token and moves on. The end of the text is where a
chain cannot go on.

* **`Tokenizer.At`** — the tokenizer stands in a text, its position being that of the text ahead.
* **`Tokenizer.Passes`** — from one tokenizer to a later one over a list of tokens.
* **`Tokenizer.exists_passes`** — all tokens are those passed over on the way to the end, and `eof`.
* **`Tokenizer.passes_of_tokens_eq`** — each token of a scan is handed out at a place passed to.
* **`Tokenizer.Passes.along`** — what one step preserves is preserved along a chain. -/

namespace MarkupAnalysis

open Text

/-- No mode reads the end of the text. -/
theorem Mode.Reads.kind_ne_eof {m m' : Mode} {kind : TokenKind} (h : m.Reads kind m') :
    kind ≠ .eof := by
  cases h <;> simp

namespace Tokenizer

variable {s s' : Tokenizer} {t : Text}

/-! ## One step -/

/-- Before the end of the text the next token is read in the mode. -/
theorem reading_eq (some_ahead : s.ahead ≠ []) :
    s.reading = readToken s.vocabulary s.pseudoClose s.mode s.memory s.ahead := by
  obtain ⟨c, cs, h⟩ := List.exists_cons_of_ne_nil some_ahead
  simp [reading, h]

/-- At the end of the text the next token is `eof`. -/
theorem reading_of_ahead_eq_nil (h : s.ahead = []) : s.reading = ⟨.eof, 0, s.mode, s.memory, none⟩ := by
  simp [reading, h]

/-- The next token follows the grammar. -/
theorem reads (some_ahead : s.ahead ≠ []) : s.mode.Reads s.token.kind s.rest.mode := by
  simp only [token, rest, reading_eq some_ahead]
  exact readToken_reads _ _ _ _ some_ahead

/-- Only at the end of the text `eof` comes next. -/
theorem token_kind_eq_eof_iff : s.token.kind = .eof ↔ s.ahead = [] := by
  constructor
  · intro h
    by_contra some_ahead
    exact (reads some_ahead).kind_ne_eof h
  · intro h
    simp [token, reading_of_ahead_eq_nil h]

/-- The next token holds the characters between the place and the next place. -/
theorem token_span : s.token.span = ⟨s.position, s.rest.position⟩ := rfl

/-- The next place is as many bytes further as the token has. -/
theorem position_rest : s.rest.position = s.position + s.token.text.byteLength := rfl

/-- No step goes back. -/
theorem position_le_rest : s.position ≤ s.rest.position := Nat.le_add_right _ _

/-- Before the end of the text a token is empty exactly when it stands for an interruption. -/
theorem token_text_eq_nil_iff (some_ahead : s.ahead ≠ []) :
    s.token.text = [] ↔ s.reading.Interrupts := by
  have : s.token.text = [] ↔ s.reading.length = 0 := by simp [token, lexeme, some_ahead]
  rw [this, reading_eq some_ahead]
  exact readToken_length_eq_zero_iff _ _ _ _ some_ahead

/-- A token that does not close a tag has characters. -/
theorem position_lt_rest (some_ahead : s.ahead ≠ []) (start : s.token.kind ≠ .startTagClose)
    (stop : s.token.kind ≠ .endTagClose) : s.position < s.rest.position := by
  -- An empty token would be an interruption, and those close tags.
  have : s.token.text ≠ [] := fun h =>
    ((token_text_eq_nil_iff some_ahead).mp h).1.elim (fun k => start k) (fun k => stop k)
  have := mt byteLength_eq_zero_iff.mp this
  rw [position_rest]
  omega

/-- Before the end of the text there is a token other than `eof`. -/
theorem ahead_ne_nil {kind : TokenKind} (h : s.token.kind = kind) (other : kind ≠ .eof) :
    s.ahead ≠ [] :=
  mt token_kind_eq_eof_iff.mpr (h ▸ other)

/-- The name of an end tag comes after `</`. -/
theorem mode_of_endTag (h : s.token.kind = .endTag) : s.mode = .endTagOpened := by
  have reads := reads (ahead_ne_nil h (by decide))
  rw [h] at reads
  generalize s.mode = m, s.rest.mode = m' at reads
  cases reads
  rfl

/-- An end tag opens with `</`. -/
theorem text_of_endTagOpen (h : s.token.kind = .endTagOpen) : s.token.text = "</".toList := by
  have some_ahead := ahead_ne_nil h (by decide)
  have reads := reads some_ahead
  rw [h] at reads
  have outside : s.mode.betweenTags := by
    generalize s.mode = m, s.rest.mode = m' at reads
    cases reads
    assumption
  have opens : s.reading.kind = .endTagOpen := h
  show s.ahead.take s.reading.length = _
  rw [reading_eq some_ahead] at opens ⊢
  exact readToken_endTagOpen _ _ _ outside opens

/-! ## The place in the text -/

/-- The tokenizer stands in the text: ahead of it is what follows its position. -/
def At (s : Tokenizer) (t : Text) : Prop :=
  ∃ before, t = before ++ s.ahead ∧ s.position = byteLength before

/-- A tokenizer is started in its text. -/
theorem at_start (v : Vocabulary) (t : Text) (offset : Nat) : (start v t offset).At t := by
  unfold start
  split
  · rename_i ahead h
    obtain ⟨before, rfl, rfl⟩ := dropBytes?_eq_some_iff.mp h
    exact ⟨before, rfl, rfl⟩
  · exact ⟨t, by simp, rfl⟩

/-- A step stays in the text. -/
theorem At.rest (h : s.At t) : s.rest.At t := by
  obtain ⟨before, rfl, same⟩ := h
  refine ⟨before ++ s.lexeme, ?_, ?_⟩
  · rw [List.append_assoc, lexeme_append_ahead_rest]
  · rw [byteLength_append, ← same]
    rfl

/-- The place is inside the text. -/
theorem At.position_le (h : s.At t) : s.position ≤ t.byteLength := by
  obtain ⟨before, rfl, same⟩ := h
  simp [same]

/-- The text ahead is what remains of the text. -/
theorem At.byteLength_ahead (h : s.At t) : s.position + s.ahead.byteLength = t.byteLength := by
  obtain ⟨before, rfl, same⟩ := h
  simp [same]

/-- At the end of the text the place is its length. -/
theorem At.position_eq (h : s.At t) (ended : s.ahead = []) : s.position = t.byteLength := by
  have := h.byteLength_ahead
  rw [ended] at this
  exact this

/-- The place is a character boundary. -/
theorem At.isBoundary (h : s.At t) : t.isBoundary s.position = true := by
  obtain ⟨before, split, same⟩ := h
  exact isBoundary_iff.mpr ⟨before, s.ahead, split, same.symm⟩

/-- The next token has the characters of its span. -/
theorem At.slice (h : s.At t) : t.slice? s.token.span = some s.token.text := by
  obtain ⟨before, rfl, same⟩ := h
  have whole : s.token.text ++ s.rest.ahead = s.ahead := s.lexeme_append_ahead_rest
  rw [token_span, position_rest, same, ← whole]
  exact slice?_append before s.token.text s.rest.ahead

/-! ## Chains of steps -/

/-- At the end of the text `eof` is the only token to come. -/
theorem tokens_of_ahead_eq_nil (h : s.ahead = []) : s.tokens = [s.token] := by
  rw [tokens, trace, if_pos (by simp [h])]
  rfl

/-- Before the end of the text the tokens to come are the next one and those of the rest. -/
theorem tokens_of_ahead_ne_nil (h : s.ahead ≠ []) : s.tokens = s.token :: s.rest.tokens := by
  rw [tokens, trace, if_neg (by simpa using h)]
  rfl

/-- **Induction along a scan**: at the end of the text, and one step back. -/
theorem induction {P : Tokenizer → Prop} (ended : ∀ s, s.ahead = [] → P s)
    (step : ∀ s, s.ahead ≠ [] → P s.rest → P s) (s : Tokenizer) : P s := by
  -- The recursion of the scan itself.
  induction s using trace.induct with
  | case1 s h => exact ended s (by simpa using h)
  | case2 s h ih => exact step s (by simpa using h) ih

/-- **A passage**: steps from one tokenizer to a later one, over a list of tokens. -/
inductive Passes : Tokenizer → List Token → Tokenizer → Prop
  /-- Without a step. -/
  | here (s : Tokenizer) : Passes s [] s
  /-- One step and all further ones. -/
  | step {s s' : Tokenizer} {tokens : List Token} (some_ahead : s.ahead ≠ [])
      (further : Passes s.rest tokens s') : Passes s (s.token :: tokens) s'

/-- The tokens of a scan are those passed over and those still to come. -/
theorem Passes.tokens_eq {passed : List Token} (h : s.Passes passed s') :
    s.tokens = passed ++ s'.tokens := by
  induction h with
  | here => rfl
  | step some_ahead _ ih => rw [tokens_of_ahead_ne_nil some_ahead, ih, List.cons_append]

/-- The way to the end of the text, where `eof` is handed out. -/
theorem exists_passes (s : Tokenizer) :
    ∃ passed s', s.Passes passed s' ∧ s'.ahead = [] ∧ s.tokens = passed ++ [s'.token] := by
  have reached : ∃ passed s', s.Passes passed s' ∧ s'.ahead = [] := by
    induction s using Tokenizer.induction with
    | ended s h => exact ⟨[], s, .here s, h⟩
    | step s h ih =>
      obtain ⟨passed, s', further, ended⟩ := ih
      exact ⟨s.token :: passed, s', .step h further, ended⟩
  obtain ⟨passed, s', passes, ended⟩ := reached
  refine ⟨passed, s', passes, ended, ?_⟩
  rw [passes.tokens_eq, tokens_of_ahead_eq_nil ended]

/-- Where a token of a scan is handed out. -/
theorem passes_of_tokens_eq {before after : List Token} {token : Token}
    (h : s.tokens = before ++ token :: after) :
    ∃ s', s.Passes before s' ∧ s'.token = token ∧ s'.tokens = token :: after := by
  induction before generalizing s with
  | nil =>
    refine ⟨s, .here s, ?_, h⟩
    by_cases ended : s.ahead = []
    · rw [tokens_of_ahead_eq_nil ended] at h
      exact (List.cons.inj h).1
    · rw [tokens_of_ahead_ne_nil ended] at h
      exact (List.cons.inj h).1
  | cons first before ih =>
    by_cases ended : s.ahead = []
    · -- `eof` has no token after it.
      rw [tokens_of_ahead_eq_nil ended] at h
      simp at h
    · rw [tokens_of_ahead_ne_nil ended] at h
      obtain ⟨rfl, further⟩ := List.cons.inj h
      obtain ⟨s', passes, same, all⟩ := ih further
      exact ⟨s', .step ended passes, same, all⟩

namespace Passes

/-- **Induction along a passage**: what is so at the start and stays so with every step is so at the
end. -/
theorem along {P : List Token → Tokenizer → Prop} (first : P [] s)
    (step : ∀ passed s', s.Passes passed s' → s'.ahead ≠ [] → P passed s' →
      P (passed ++ [s'.token]) s'.rest)
    {passed : List Token} (h : s.Passes passed s') : P passed s' := by
  induction h generalizing P with
  | here => exact first
  | @step s _ _ some_ahead _ ih =>
    -- Chains grow at their front, so the first token moves into the property.
    refine ih (P := fun passed s' => P (s.token :: passed) s') (step [] s (.here s) some_ahead first) ?_
    intro passed s' further more so_far
    exact step _ s' (.step some_ahead further) more so_far

/-- Two passages, one after the other. -/
theorem trans {s'' : Tokenizer} {passed further : List Token} (h : s.Passes passed s')
    (h' : s'.Passes further s'') : s.Passes (passed ++ further) s'' := by
  induction h with
  | here => exact h'
  | step some_ahead _ ih => exact .step some_ahead (ih h')

/-- What one step preserves is preserved along a passage, together with what a fold makes of the
tokens. -/
theorem foldl {α : Type} {take : α → Token → α} {P : Tokenizer → α → Prop}
    (step : ∀ s a, s.ahead ≠ [] → P s a → P s.rest (take a s.token)) {passed : List Token} {a : α}
    (h : s.Passes passed s') (first : P s a) : P s' (passed.foldl take a) := by
  refine h.along (P := fun passed s' => P s' (passed.foldl take a)) first ?_
  intro passed s' _ some_ahead here
  rw [List.foldl_append]
  exact step s' _ some_ahead here

/-- A property of tokenizers that one step preserves is preserved along a passage. -/
theorem preserves {P : Tokenizer → Prop} (step : ∀ s, s.ahead ≠ [] → P s → P s.rest)
    {passed : List Token} (h : s.Passes passed s') (first : P s) : P s' :=
  h.along (P := fun _ s' => P s') first fun _ s' _ => step s'

/-- A passage keeps the vocabulary. -/
theorem vocabulary {passed : List Token} (h : s.Passes passed s') : s'.vocabulary = s.vocabulary :=
  h.preserves (P := fun s' => s'.vocabulary = s.vocabulary) (fun _ _ same => same) rfl

/-- One more step. -/
theorem concat {passed : List Token} (h : s.Passes passed s') (some_ahead : s'.ahead ≠ []) :
    s.Passes (passed ++ [s'.token]) s'.rest :=
  h.trans (.step some_ahead (.here s'.rest))

/-- A passage stays in the text. -/
theorem at_of_at {passed : List Token} (h : s.Passes passed s') (first : s.At t) : s'.At t :=
  h.preserves (P := fun s => s.At t) (fun _ _ => At.rest) first

end Passes

end Tokenizer

end MarkupAnalysis
