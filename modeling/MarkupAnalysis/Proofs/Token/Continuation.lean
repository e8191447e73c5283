import MarkupAnalysis.Proofs.Token.Lookahead
import MarkupAnalysis.Proofs.Token.Passage

/-! # Scans of a text that goes on

Where a text goes on, its scan keeps all tokens up to the last one that closes something, and may be
different from there on: what ends with the text may go on behind it.

* **`Tokenizer.extend`** — the same place in a longer text.
* **`Tokenizer.extend_step`** — one step in either text.
* **`Tokenizer.exists_common_passage`** — the passage that both scans share. -/

namespace MarkupAnalysis

open Text

namespace Tokenizer

/-- The same place in a text that goes on. -/
def extend (s : Tokenizer) (u : Text) : Tokenizer := { s with ahead := s.ahead ++ u }

variable {s : Tokenizer}

/-- A token has the characters that its reading takes. -/
theorem length_lexeme_le (s : Tokenizer) : s.reading.length ≤ s.ahead.length := by
  by_cases ended : s.ahead = []
  · rw [reading_of_ahead_eq_nil ended]
    exact Nat.zero_le _
  · rw [reading_eq ended]
    exact readToken_length_le _ _ _ _ ended

/-- **What is settled is read in the same way** in a text that goes on. -/
theorem extend_step (some_ahead : s.ahead ≠ []) (settled : s.reading.SettledBy s.ahead)
    (declaration : s.reading.kind = .startDoctype → '>' ∈ s.ahead) (u : Text) :
    (s.extend u).token = s.token ∧ (s.extend u).rest = s.rest.extend u := by
  have longer : (s.extend u).ahead ≠ [] := List.append_ne_nil_of_left_ne_nil some_ahead u
  have inside := s.length_lexeme_le
  have same : (s.extend u).reading = s.reading := by
    rw [reading_eq some_ahead] at settled declaration ⊢
    rw [reading_eq longer]
    exact readToken_append some_ahead settled declaration u
  have lexeme : (s.extend u).lexeme = s.lexeme := by
    rw [Tokenizer.lexeme, Tokenizer.lexeme, same]
    exact List.take_append_of_le_length inside
  refine ⟨?_, ?_⟩
  · simp only [token, same, lexeme]
    rfl
  · simp only [rest, same, lexeme]
    simp only [extend, List.drop_append_of_le_length inside]

/-- A token that reaches the end of the text is followed by the end only. -/
theorem closes_eq_false_of_reaches (reaches : s.ahead.length ≤ s.reading.length)
    (other : s.reading.kind.closes = false) : ∀ token ∈ s.tokens, token.kind.closes = false := by
  have last {s : Tokenizer} (ended : s.ahead = []) : s.token.kind.closes = false := by
    rw [token_kind_eq_eof_iff.mpr ended]
    rfl
  intro token mem
  by_cases ended : s.ahead = []
  · rw [tokens_of_ahead_eq_nil ended] at mem
    rw [List.mem_singleton.mp mem]
    exact last ended
  · have rest_ended : s.rest.ahead = [] := List.drop_eq_nil_of_le reaches
    rw [tokens_of_ahead_ne_nil ended, tokens_of_ahead_eq_nil rest_ended] at mem
    rcases List.mem_cons.mp mem with rfl | mem
    · exact other
    · rw [List.mem_singleton.mp mem]
      exact last rest_ended

/-- Where nothing is settled, nothing is closed any more. -/
theorem closes_eq_false_of_not_settled (not_settled : ¬ s.reading.SettledBy s.ahead) :
    ∀ token ∈ s.tokens, token.kind.closes = false := by
  obtain ⟨reaches, other⟩ := not_or.mp not_settled
  exact closes_eq_false_of_reaches (Nat.not_lt.mp reaches) (by simpa using other)

/-- In a declaration without a bracket nothing is closed any more. -/
theorem closes_eq_false_of_doctype (mode : s.mode = .doctype) (no_bracket : '>' ∉ s.ahead) :
    ∀ token ∈ s.tokens, token.kind.closes = false := by
  refine closes_eq_false_of_reaches ?_ ?_
  · by_cases ended : s.ahead = []
    · rw [ended]
      exact Nat.zero_le _
    · have upto := lengthUntil_char no_bracket []
      rw [List.append_nil] at upto
      have not_yet : startsWith ['>'] s.ahead = false := by
        by_contra here
        rw [Bool.not_eq_false, startsWith, List.isPrefixOf_iff_prefix] at here
        obtain ⟨rest, split⟩ := here
        exact no_bracket (by simp [← split])
      rw [reading_eq ended, mode, readToken, readDoctype, not_yet, upto]
      exact Nat.le_add_right _ _
  · by_cases ended : s.ahead = []
    · rw [reading_of_ahead_eq_nil ended]
      rfl
    · rw [reading_eq ended, mode, readToken, readDoctype]
      split <;> rfl

/-- **The passage that both scans share**: behind it the shorter scan closes nothing. -/
theorem exists_common_passage (s : Tokenizer) (u : Text) :
    ∃ common s', s.Passes common s' ∧ (s.extend u).Passes common (s'.extend u) ∧
      ∀ token ∈ s'.tokens, token.kind.closes = false := by
  induction s using Tokenizer.induction with
  | ended s ended =>
    refine ⟨[], s, .here s, .here _, closes_eq_false_of_reaches (by simp [ended]) ?_⟩
    rw [reading_of_ahead_eq_nil ended]
    rfl
  | step s some_ahead ih =>
    -- As long as each token is settled both scans share it; the first one that is not ends the passage.
    by_cases settled : s.reading.SettledBy s.ahead
    · by_cases declaration : s.reading.kind = .startDoctype → '>' ∈ s.ahead
      · obtain ⟨same, same_rest⟩ := extend_step some_ahead settled declaration u
        obtain ⟨common, s', passes, passes', none_closes⟩ := ih
        have longer : (s.extend u).ahead ≠ [] := List.append_ne_nil_of_left_ne_nil some_ahead u
        refine ⟨s.token :: common, s', .step some_ahead passes, ?_, none_closes⟩
        rw [← same_rest] at passes'
        exact same ▸ .step longer passes'
      · -- A declaration without its bracket runs to the end of the text.
        obtain ⟨opens, no_bracket⟩ := Classical.not_imp.mp declaration
        have opens : s.token.kind = .startDoctype := opens
        have reads := reads some_ahead
        rw [opens] at reads
        have mode : s.rest.mode = .doctype := by
          generalize s.mode = m, s.rest.mode = m' at reads
          cases reads
          rfl
        have still_none : '>' ∉ s.rest.ahead := fun mem => no_bracket (List.mem_of_mem_drop mem)
        refine ⟨[], s, .here s, .here _, fun token mem => ?_⟩
        rw [tokens_of_ahead_ne_nil some_ahead] at mem
        rcases List.mem_cons.mp mem with rfl | mem
        · rw [opens]
          rfl
        · exact closes_eq_false_of_doctype mode still_none token mem
    · exact ⟨[], s, .here s, .here _, closes_eq_false_of_not_settled settled⟩

end Tokenizer

end MarkupAnalysis
