import MarkupAnalysis.Proofs.Token.Restart

/-! # Scans with and without closing tokens for interrupted tags

A scan may report a `<` that interrupts a tag by an empty closing token. A scan that does not goes the same
way until it comes to such a `<`: there it takes the `<` for a character that fits nowhere.

* **`readToken_of_not_interrupts`** — what is no interruption is read alike.
* **`Tokenizer.step_withPseudoClose`** — so is the next token, and the scans go on from the same place.
* **`Tokenizer.error_ne_of_plain`**, **`Tokenizer.interrupts_iff`** — missing brackets are reported with
  interruptions only.
* **`Tokenizer.Passes.withPseudoClose`** — scans go the same way over tokens that interrupt nothing.
* **`Tokenizer.steps`**, **`pseudoClose_adds`** — whole scans are the same up to the first report. -/

namespace MarkupAnalysis

open Text

/-! ## Readings

Inside a tag a reading either is an interruption or is the same for both kinds of scan. -/

section readings

variable {v : Vocabulary} {memory : TagMemory} {t : Text}

theorem readEndTag_pseudoClose : (readEndTag true memory t).Interrupts ∨
    readEndTag false memory t = readEndTag true memory t := by
  unfold readEndTag
  simp only [Bool.true_and, Bool.false_and, Bool.false_eq_true, if_false]
  split_ifs with blanks closes next
  · exact .inr rfl
  · exact .inr rfl
  · exact .inl ⟨.inr rfl, rfl⟩
  · exact .inr rfl

theorem readEndTagOpened_pseudoClose : (readEndTagOpened true memory t).Interrupts ∨
    readEndTagOpened false memory t = readEndTagOpened true memory t := by
  unfold readEndTagOpened
  dsimp only
  split_ifs
  · exact .inr rfl
  · exact .inr rfl
  · exact .inr rfl
  · exact readEndTag_pseudoClose

theorem readStartTag_pseudoClose : (readStartTag v true memory t).Interrupts ∨
    readStartTag v false memory t = readStartTag v true memory t := by
  unfold readStartTag
  dsimp only
  generalize (if memory.blankBefore then lengthWhile isAttributeNameChar t else 0) = name
  simp only [Bool.true_and, Bool.false_and, Bool.false_eq_true, if_false]
  split_ifs with blanks named selfCloses closes next
  · exact .inr rfl
  · exact .inr rfl
  · exact .inr rfl
  · exact .inr rfl
  · exact .inl ⟨.inl rfl, rfl⟩
  · exact .inr rfl

theorem readStartTagOpened_pseudoClose : (readStartTagOpened v true memory t).Interrupts ∨
    readStartTagOpened v false memory t = readStartTagOpened v true memory t := by
  unfold readStartTagOpened
  dsimp only
  split_ifs
  · exact .inr rfl
  · exact .inr rfl
  · exact .inr rfl
  · exact readStartTag_pseudoClose

theorem readAttributeName_pseudoClose : (readAttributeName v true memory t).Interrupts ∨
    readAttributeName v false memory t = readAttributeName v true memory t := by
  unfold readAttributeName
  dsimp only
  split_ifs
  · exact .inr rfl
  · exact .inr rfl
  · exact readStartTag_pseudoClose

theorem readAttributeValue_pseudoClose : (readAttributeValue v true memory t).Interrupts ∨
    readAttributeValue v false memory t = readAttributeValue v true memory t := by
  unfold readAttributeValue
  dsimp only
  split_ifs
  · exact .inr rfl
  · exact .inr rfl
  · exact readStartTag_pseudoClose
  · split
    · exact .inr rfl
    · exact .inr rfl
    · exact readStartTag_pseudoClose

/-- **What is no interruption is read alike.** -/
theorem readToken_of_not_interrupts {m : Mode} (smooth : ¬ (readToken v true m memory t).Interrupts) :
    readToken v false m memory t = readToken v true m memory t := by
  cases m with
  | startTagOpened => exact readStartTagOpened_pseudoClose.resolve_left smooth
  | endTagOpened => exact readEndTagOpened_pseudoClose.resolve_left smooth
  | startTag => exact readStartTag_pseudoClose.resolve_left smooth
  | endTag => exact readEndTag_pseudoClose.resolve_left smooth
  | attributeName => exact readAttributeName_pseudoClose.resolve_left smooth
  | attributeValue => exact readAttributeValue_pseudoClose.resolve_left smooth
  | content | doctype | comment | embeddedContent => rfl

/-! Without closing tokens nothing is an interruption: no bracket is reported as missing. -/

theorem error_readContent (memory : TagMemory) (t : Text) : (readContent memory t).error = none := by
  unfold readContent
  split <;> rfl

theorem error_readComment_ne : (readComment memory t).error ≠ some .closingBracketMissing := by
  unfold readComment
  dsimp only
  split_ifs <;> exact nofun

theorem error_readDoctype (memory : TagMemory) (t : Text) : (readDoctype memory t).error = none := by
  unfold readDoctype
  split <;> rfl

theorem error_readEmbeddedContent (memory : TagMemory) (t : Text) :
    (readEmbeddedContent memory t).error = none := by
  unfold readEmbeddedContent
  dsimp only
  split
  · rfl
  · exact error_readContent memory t

theorem error_readEndTag_ne : (readEndTag false memory t).error ≠ some .closingBracketMissing := by
  unfold readEndTag
  simp only [Bool.false_and, Bool.false_eq_true, if_false]
  split_ifs <;> exact nofun

theorem error_readEndTagOpened_ne :
    (readEndTagOpened false memory t).error ≠ some .closingBracketMissing := by
  unfold readEndTagOpened
  dsimp only
  split_ifs
  · exact nofun
  · exact nofun
  · exact nofun
  · exact error_readEndTag_ne

theorem error_readStartTag_ne : (readStartTag v false memory t).error ≠ some .closingBracketMissing := by
  unfold readStartTag closeStartTag
  dsimp only
  generalize (if memory.blankBefore then lengthWhile isAttributeNameChar t else 0) = name
  simp only [Bool.false_and, Bool.false_eq_true, if_false]
  split_ifs <;> exact nofun

theorem error_readStartTagOpened_ne :
    (readStartTagOpened v false memory t).error ≠ some .closingBracketMissing := by
  unfold readStartTagOpened
  dsimp only
  split_ifs
  · exact nofun
  · exact nofun
  · exact nofun
  · exact error_readStartTag_ne

theorem error_readAttributeName_ne :
    (readAttributeName v false memory t).error ≠ some .closingBracketMissing := by
  unfold readAttributeName
  dsimp only
  split_ifs
  · exact nofun
  · exact nofun
  · exact error_readStartTag_ne

theorem error_readAttributeValue_ne :
    (readAttributeValue v false memory t).error ≠ some .closingBracketMissing := by
  have quoted (quote : Char) (cs : Text) :
      (readQuotedValue memory quote cs).error ≠ some .closingBracketMissing := by
    unfold readQuotedValue
    dsimp only
    split <;> exact nofun
  unfold readAttributeValue
  dsimp only
  split_ifs
  · exact nofun
  · exact nofun
  · exact error_readStartTag_ne
  · split
    · exact quoted _ _
    · exact quoted _ _
    · exact error_readStartTag_ne

/-- **No bracket is reported as missing** without closing tokens. -/
theorem error_readToken_ne (m : Mode) :
    (readToken v false m memory t).error ≠ some .closingBracketMissing := by
  cases m with
  | content => exact error_readContent memory t ▸ nofun
  | startTagOpened => exact error_readStartTagOpened_ne
  | endTagOpened => exact error_readEndTagOpened_ne
  | doctype => exact error_readDoctype memory t ▸ nofun
  | startTag => exact error_readStartTag_ne
  | endTag => exact error_readEndTag_ne
  | comment => exact error_readComment_ne
  | embeddedContent => exact error_readEmbeddedContent memory t ▸ nofun
  | attributeName => exact error_readAttributeName_ne
  | attributeValue => exact error_readAttributeValue_ne

end readings

/-! ## Scans -/

namespace Tokenizer

variable {s s' : Tokenizer} {t : Text} {passed : List Token}

/-- A scan without closing tokens reports no bracket as missing. -/
theorem error_ne_of_plain (plain : s.pseudoClose = false) :
    s.token.error ≠ some .closingBracketMissing := by
  show s.reading.error ≠ _
  by_cases ended : s.ahead = []
  · rw [reading_of_ahead_eq_nil ended]
    exact nofun
  · rw [reading_eq ended, plain]
    exact error_readToken_ne s.mode

/-- In a scan without closing tokens no token is an interruption. -/
theorem not_interrupts_of_plain (plain : s.pseudoClose = false) : ¬ s.token.Interrupts :=
  fun interrupts => error_ne_of_plain plain interrupts.2

/-- A start tag ends in a start tag. -/
theorem inStartTag_of_startTagClose (kind : s.token.kind = .startTagClose) : s.mode.inStartTag = true := by
  have reads := reads (ahead_ne_nil kind (by decide))
  rw [kind] at reads
  generalize s.mode = m, s.rest.mode = m' at reads
  cases reads with
  | startTagEnds inside | startTagEndsBeforeBody inside => exact inside

/-- The next reading is the same unless it is an interruption. -/
theorem reading_withPseudoClose (reports : s.pseudoClose = true) (smooth : ¬ s.token.Interrupts) :
    (s.withPseudoClose false).reading = s.reading := by
  by_cases ended : s.ahead = []
  · rw [reading_of_ahead_eq_nil ended, reading_of_ahead_eq_nil (s := s.withPseudoClose false) ended]
    rfl
  · have smooth : ¬ s.reading.Interrupts := smooth
    rw [reading_eq ended, reports] at smooth ⊢
    rw [reading_eq (s := s.withPseudoClose false) ended]
    exact readToken_of_not_interrupts smooth

/-- **The next token is the same** unless it is an interruption, and the scans go on from the same place. -/
theorem step_withPseudoClose (reports : s.pseudoClose = true) (smooth : ¬ s.token.Interrupts) :
    (s.withPseudoClose false).token = s.token ∧
      (s.withPseudoClose false).rest = s.rest.withPseudoClose false := by
  have same := reading_withPseudoClose reports smooth
  constructor <;> simp only [token, rest, lexeme, same] <;> rfl

/-- **Scans go the same way** over tokens that interrupt nothing. -/
theorem Passes.withPseudoClose (h : s.Passes passed s') (reports : s.pseudoClose = true)
    (smooth : ∀ token ∈ passed, ¬ token.Interrupts) :
    (s.withPseudoClose false).Passes passed (s'.withPseudoClose false) := by
  induction h with
  | here => exact .here _
  | @step s s' tokens some_ahead further ih =>
    obtain ⟨token, rest⟩ := step_withPseudoClose reports (smooth _ List.mem_cons_self)
    have later := ih reports fun token mem => smooth token (List.mem_cons_of_mem _ mem)
    rw [← rest] at later
    rw [← token]
    exact .step some_ahead later

/-- A missing bracket is reported with an interruption only. -/
theorem interrupts_iff (reports : s.pseudoClose = true) :
    s.token.Interrupts ↔ s.token.error = some .closingBracketMissing := by
  refine ⟨And.right, fun missing => ?_⟩
  by_contra smooth
  -- Without an interruption the other scan hands out the same token, and it reports no such bracket.
  refine error_ne_of_plain (s := s.withPseudoClose false) rfl ?_
  rw [(step_withPseudoClose reports smooth).1]
  exact missing

/-! ## Whole scans -/

/-- All tokens to come, each with the mode behind it. -/
def steps (s : Tokenizer) : List (Token × Mode) := s.trace.map fun step => (step.1, step.2.mode)

theorem steps_of_ahead_eq_nil (ended : s.ahead = []) : s.steps = [(s.token, s.rest.mode)] := by
  rw [steps, trace_of_ahead_eq_nil ended]
  rfl

theorem steps_of_ahead_ne_nil (some_ahead : s.ahead ≠ []) :
    s.steps = (s.token, s.rest.mode) :: s.rest.steps := by
  rw [steps, trace_of_ahead_ne_nil some_ahead]
  rfl

/-- Without closing tokens no step reports a missing bracket. -/
theorem error_ne_of_mem_steps (plain : s.pseudoClose = false) :
    ∀ step ∈ s.steps, step.1.error ≠ some .closingBracketMissing := by
  induction s using Tokenizer.induction with
  | ended s ended =>
    rw [steps_of_ahead_eq_nil ended]
    exact List.forall_mem_singleton.mpr (error_ne_of_plain plain)
  | step s some_ahead ih =>
    rw [steps_of_ahead_ne_nil some_ahead]
    exact List.forall_mem_cons.mpr ⟨error_ne_of_plain plain, ih plain⟩

/-- **The steps of both scans** start with the same ones. If the shared steps do not end with the text, the
next one reports a missing bracket. -/
theorem exists_steps_eq_append (reports : s.pseudoClose = true) : ∃ shared further further',
    s.steps = shared ++ further ∧ (s.withPseudoClose false).steps = shared ++ further' ∧
      (∀ step ∈ shared, step.1.error ≠ some .closingBracketMissing) ∧
      (further = [] ∧ further' = [] ∨
        ∃ step ∈ further.head?, step.1.error = some .closingBracketMissing) := by
  induction s using Tokenizer.induction with
  | ended s ended =>
    have smooth : ¬ s.token.Interrupts := by
      rintro ⟨kind, -⟩
      rw [token_kind_eq_eof_iff.mpr ended] at kind
      rcases kind with kind | kind <;> cases kind
    obtain ⟨token, rest⟩ := step_withPseudoClose reports smooth
    refine ⟨s.steps, [], [], (List.append_nil _).symm, ?_, ?_, .inl ⟨rfl, rfl⟩⟩
    · rw [List.append_nil, steps_of_ahead_eq_nil ended, steps_of_ahead_eq_nil (s := s.withPseudoClose false) ended,
        token, rest]
      rfl
    · rw [steps_of_ahead_eq_nil ended]
      exact List.forall_mem_singleton.mpr (mt (interrupts_iff reports).mpr smooth)
  | step s some_ahead ih =>
    rw [steps_of_ahead_ne_nil some_ahead]
    by_cases smooth : s.token.Interrupts
    · exact ⟨[], _, _, rfl, rfl, List.forall_mem_nil _, .inr ⟨_, rfl, smooth.2⟩⟩
    · obtain ⟨token, rest⟩ := step_withPseudoClose reports smooth
      obtain ⟨shared, further, further', same, same', silent, last⟩ := ih reports
      refine ⟨(s.token, s.rest.mode) :: shared, further, further', by rw [same]; rfl, ?_, ?_, last⟩
      · rw [steps_of_ahead_ne_nil (s := s.withPseudoClose false) some_ahead, token, rest, same']
        rfl
      · exact List.forall_mem_cons.mpr ⟨mt (interrupts_iff reports).mpr smooth, silent⟩

end Tokenizer

/-- **Closing tokens only add to a scan**: from any offset and in any mode, a scan with them and a scan without
them take the same steps up to the first token that reports a missing bracket. If there is none, they take the
same steps throughout. -/
theorem pseudoClose_adds (v : Vocabulary) (t : Text) (offset : Nat) (mode : Mode) :
    let s := (Tokenizer.start v t offset).withMode mode
    let reporting := (s.withPseudoClose true).steps
    let plain := (s.withPseudoClose false).steps
    (reporting.takeWhile fun step => step.1.error ≠ some .closingBracketMissing) <+: plain ∧
      ((∀ step ∈ reporting, step.1.error ≠ some .closingBracketMissing) → reporting = plain) ∧
      ∀ step ∈ plain, step.1.error ≠ some .closingBracketMissing := by
  intro s reporting plain
  obtain ⟨shared, further, further', whole, whole', silent, last⟩ :=
    (s.withPseudoClose true).exists_steps_eq_append rfl
  have plain_eq : plain = shared ++ further' := whole'
  have reporting_eq : reporting = shared ++ further := whole
  refine ⟨?_, fun unreported => ?_, Tokenizer.error_ne_of_mem_steps rfl⟩
  · have stops : (further.takeWhile fun step => step.1.error ≠ some .closingBracketMissing) = [] := by
      rcases last with ⟨rfl, -⟩ | ⟨step, first, missing⟩
      · rfl
      · obtain ⟨more, rfl⟩ := List.head?_eq_some_iff.mp first
        exact List.takeWhile_cons_of_neg (by simpa using missing)
    rw [reporting_eq, plain_eq, List.takeWhile_append_of_pos (by simpa using silent), stops,
      List.append_nil]
    exact List.prefix_append shared further'
  · rcases last with ⟨rfl, rfl⟩ | ⟨step, first, missing⟩
    · rw [reporting_eq, plain_eq]
    · refine absurd missing (unreported step ?_)
      rw [reporting_eq]
      exact List.mem_append_right _ (List.mem_of_head? first)

end MarkupAnalysis
