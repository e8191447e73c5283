import Mathlib.Logic.Function.Iterate
import MarkupAnalysis.Proofs.Token.Tiling

/-! # Restarting a scan

A scan can be taken up again at most places without what it remembers of the tag being read. What a
mode does not look at before it is replaced makes no difference.

* **`Mode.restartable`** — the modes that need no memory.
* **`Mode.Forgives`** — memories that make no difference in a mode.
* **`readToken_alike`** — one step with either memory.
* **`Tokenizer.SameScan`** — scans with the same tokens and modes to come.
* **`Tokenizer.sameScan_restarted`** — a scan that is taken up again goes on as the first one does. -/

namespace MarkupAnalysis

open Text

/-! ## What a mode needs to know -/

namespace Mode

/-- The modes in which nothing is remembered of a tag that is being read. -/
def restartable : Mode → Bool
  | content | startTagOpened | endTagOpened | endTag | comment | doctype => true
  | startTag | attributeName | attributeValue | embeddedContent => false

/-- **Memories that make no difference** in a mode before a text. In the attribute list of a tag without
a name, blanks may be left from the tag before; there the bracket comes next. -/
def Forgives (mode : Mode) (ahead : Text) (m m' : TagMemory) : Prop :=
  match mode with
  | startTag => m'.tag = m.tag ∧ m'.typeValue = m.typeValue ∧
      (m'.blankBefore = m.blankBefore ∨ ∀ c ∈ ahead.head?, c = '>')
  | attributeName | attributeValue => m'.tag = m.tag ∧ m'.typeValue = m.typeValue ∧
      m'.attributeName = m.attributeName ∧ m'.blankBefore = m.blankBefore
  | embeddedContent => m'.embeddedTag = m.embeddedTag
  | _ => True

/-- Where nothing is remembered, no memory makes a difference. -/
theorem forgives_of_restartable {mode : Mode} (h : mode.restartable) (ahead : Text)
    (m m' : TagMemory) : mode.Forgives ahead m m' := by
  cases mode <;> trivial

end Mode

/-! ## One step -/

/-- **Readings that differ in what they remember at most**, and there it makes no difference. -/
structure Reading.Alike (t : Text) (r r' : Reading) : Prop where
  kind : r'.kind = r.kind
  length : r'.length = r.length
  mode : r'.mode = r.mode
  error : r'.error = r.error
  memory : r.mode.Forgives (t.drop r.length) r.memory r'.memory

/-- A reading that leads to a mode without memory. -/
theorem Reading.Alike.of_restartable {t : Text} {r : Reading} (h : r.mode.restartable)
    (m : TagMemory) : r.Alike t { r with memory := m } :=
  ⟨rfl, rfl, rfl, rfl, Mode.forgives_of_restartable h _ _ _⟩

section steps

variable (v : Vocabulary) (pseudoClose : Bool) (m m' : TagMemory) (t : Text)

theorem readContent_alike : (readContent m t).Alike t (readContent m' t) := by
  unfold readContent
  -- The memory is handed on as it is, and none of the modes after it needs one.
  split <;> exact .of_restartable rfl m'

theorem readComment_alike : (readComment m t).Alike t (readComment m' t) := by
  unfold readComment
  dsimp only
  split_ifs <;> exact .of_restartable rfl m'

theorem readDoctype_alike : (readDoctype m t).Alike t (readDoctype m' t) := by
  unfold readDoctype
  split <;> exact .of_restartable rfl m'

theorem readEndTag_alike : (readEndTag pseudoClose m t).Alike t (readEndTag pseudoClose m' t) := by
  unfold readEndTag
  dsimp only
  split_ifs <;> exact .of_restartable rfl m'

theorem readEndTagOpened_alike :
    (readEndTagOpened pseudoClose m t).Alike t (readEndTagOpened pseudoClose m' t) := by
  unfold readEndTagOpened
  dsimp only
  split_ifs
  · exact .of_restartable rfl m'
  · exact .of_restartable rfl m'
  · exact .of_restartable rfl m'
  · exact readEndTag_alike pseudoClose m m' t

variable {m m' t}

/-- Whether a body is opaque depends on the name of the tag and on its `type` value. -/
theorem closeStartTag_alike (tag : m'.tag = m.tag) (typeValue : m'.typeValue = m.typeValue) :
    (closeStartTag v m).Alike t (closeStartTag v m') := by
  have same : opensEmbeddedBody v m' = opensEmbeddedBody v m := by
    simp only [opensEmbeddedBody, tag, typeValue]
  unfold closeStartTag
  rw [same]
  split
  · exact ⟨rfl, rfl, rfl, rfl, congrArg some tag⟩
  · exact .of_restartable rfl m'

/-- In an attribute list the name of the latest attribute is not looked at. -/
theorem readStartTag_alike (tag : m'.tag = m.tag) (typeValue : m'.typeValue = m.typeValue)
    (blankBefore : m'.blankBefore = m.blankBefore) :
    (readStartTag v pseudoClose m t).Alike t (readStartTag v pseudoClose m' t) := by
  unfold readStartTag
  rw [blankBefore]
  dsimp only
  generalize (if m.blankBefore then lengthWhile isAttributeNameChar t else 0) = name
  split_ifs
  · exact ⟨rfl, rfl, rfl, rfl, tag, typeValue, .inl rfl⟩
  · exact ⟨rfl, rfl, rfl, rfl, tag, typeValue, rfl, rfl⟩
  · exact .of_restartable rfl m'
  · exact closeStartTag_alike v tag typeValue
  · exact .of_restartable rfl m'
  · exact ⟨rfl, rfl, rfl, rfl, tag, typeValue, .inl blankBefore⟩

/-- Before a bracket it does not matter whether blanks were read. -/
theorem readStartTag_alike_of_forgives (some_ahead : t ≠ [])
    (h : Mode.startTag.Forgives t m m') :
    (readStartTag v pseudoClose m t).Alike t (readStartTag v pseudoClose m' t) := by
  obtain ⟨tag, typeValue, same | bracket⟩ := h
  · exact readStartTag_alike v pseudoClose tag typeValue same
  · obtain ⟨c, rest, rfl⟩ := List.exists_cons_of_ne_nil some_ahead
    obtain rfl : c = '>' := bracket c rfl
    rw [readStartTag_bracket, readStartTag_bracket]
    exact closeStartTag_alike v tag typeValue

/-- What precedes a bracket, or the end of the text. -/
theorem head?_drop_lengthUntil (c : Char) (t : Text) :
    ∀ d ∈ (t.drop (lengthUntil (startsWith [c]) t)).head?, d = c := by
  induction t with
  | nil => simp [lengthUntil]
  | cons first rest ih =>
    rw [lengthUntil]
    split
    · rename_i found
      have : c = first := by simpa [startsWith, List.isPrefixOf] using found
      simp [this]
    · exact ih

/-- After `<` all that was remembered is replaced, but for the blanks: before a name they are, and
without one the bracket comes next. -/
theorem readStartTagOpened_alike (m m' : TagMemory) (some_ahead : t ≠ []) :
    (readStartTagOpened v pseudoClose m t).Alike t (readStartTagOpened v pseudoClose m' t) := by
  unfold readStartTagOpened
  dsimp only
  split_ifs with _ _ junk
  · exact ⟨rfl, rfl, rfl, rfl, rfl, rfl, .inl rfl⟩
  · exact ⟨rfl, rfl, rfl, rfl, trivial⟩
  · exact ⟨rfl, rfl, rfl, rfl, rfl, rfl, .inr (head?_drop_lengthUntil '>' t)⟩
  · obtain ⟨rest, rfl⟩ := startsWith_of_lengthUntil_eq_zero some_ahead (Nat.eq_zero_of_not_pos junk)
    rw [readStartTag_bracket, readStartTag_bracket]
    exact closeStartTag_alike v rfl rfl

theorem readAttributeName_alike (h : Mode.attributeName.Forgives t m m') :
    (readAttributeName v pseudoClose m t).Alike t (readAttributeName v pseudoClose m' t) := by
  obtain ⟨tag, typeValue, attributeName, blankBefore⟩ := h
  unfold readAttributeName
  dsimp only
  split_ifs
  · exact ⟨rfl, rfl, rfl, rfl, tag, typeValue, attributeName, rfl⟩
  · exact ⟨rfl, rfl, rfl, rfl, tag, typeValue, attributeName, blankBefore⟩
  · exact readStartTag_alike v pseudoClose tag typeValue blankBefore

/-- Memories that are alike note a value for the same attribute. -/
theorem TagMemory.noteValue_alike (h : Mode.attributeValue.Forgives t m m') (value : Text) :
    (m'.noteValue value).tag = (m.noteValue value).tag ∧
      (m'.noteValue value).typeValue = (m.noteValue value).typeValue := by
  obtain ⟨tag, typeValue, attributeName, -⟩ := h
  unfold TagMemory.noteValue
  rw [attributeName]
  split
  · exact ⟨tag, rfl⟩
  · exact ⟨tag, typeValue⟩

theorem readQuotedValue_alike (h : Mode.attributeValue.Forgives t m m') (quote : Char) (cs : Text) :
    (readQuotedValue m quote cs).Alike t (readQuotedValue m' quote cs) := by
  obtain ⟨tag, typeValue⟩ := TagMemory.noteValue_alike h (cs.take (lengthUntil (startsWith [quote]) cs))
  unfold readQuotedValue
  dsimp only
  split <;> exact ⟨rfl, rfl, rfl, rfl, tag, typeValue, .inl rfl⟩

theorem readAttributeValue_alike (h : Mode.attributeValue.Forgives t m m') :
    (readAttributeValue v pseudoClose m t).Alike t (readAttributeValue v pseudoClose m' t) := by
  have noted := TagMemory.noteValue_alike h (t.take (unquotedValueLength t))
  unfold readAttributeValue
  dsimp only
  split_ifs
  · exact ⟨rfl, rfl, rfl, rfl, h⟩
  · exact ⟨rfl, rfl, rfl, rfl, noted.1, noted.2, .inl rfl⟩
  · exact readStartTag_alike v pseudoClose noted.1 noted.2 rfl
  · split
    · exact readQuotedValue_alike h _ _
    · exact readQuotedValue_alike h _ _
    · exact readStartTag_alike v pseudoClose h.1 h.2.1 rfl

theorem readEmbeddedContent_alike (h : Mode.embeddedContent.Forgives t m m') :
    (readEmbeddedContent m t).Alike t (readEmbeddedContent m' t) := by
  unfold readEmbeddedContent
  rw [show m'.embeddedTag = m.embeddedTag from h]
  dsimp only
  split_ifs
  · exact .of_restartable rfl m'
  · exact readContent_alike m m' t

/-- **One step with either memory** reads the same. -/
theorem readToken_alike {mode : Mode} (some_ahead : t ≠ []) (h : mode.Forgives t m m') :
    (readToken v pseudoClose mode m t).Alike t (readToken v pseudoClose mode m' t) := by
  cases mode with
  | content => exact readContent_alike m m' t
  | startTagOpened => exact readStartTagOpened_alike v pseudoClose m m' some_ahead
  | endTagOpened => exact readEndTagOpened_alike pseudoClose m m' t
  | doctype => exact readDoctype_alike m m' t
  | startTag => exact readStartTag_alike_of_forgives v pseudoClose some_ahead h
  | endTag => exact readEndTag_alike pseudoClose m m' t
  | comment => exact readComment_alike m m' t
  | embeddedContent => exact readEmbeddedContent_alike h
  | attributeName => exact readAttributeName_alike v pseudoClose h
  | attributeValue => exact readAttributeValue_alike v pseudoClose h

end steps

/-! ## Whole scans -/

namespace Tokenizer

/-- A tokenizer that has been started anew at the place, in the mode that the scan is in there. -/
def restarted (s : Tokenizer) (t : Text) : Tokenizer :=
  ((start s.vocabulary t s.position).withMode s.mode).withPseudoClose s.pseudoClose

/-- At the end of the text only `eof` is to come. -/
theorem trace_of_ahead_eq_nil {s : Tokenizer} (h : s.ahead = []) : s.trace = [s.advance] := by
  rw [trace, if_pos (by simp [h])]

/-- Before the end of the text the next step comes first. -/
theorem trace_of_ahead_ne_nil {s : Tokenizer} (h : s.ahead ≠ []) :
    s.trace = s.advance :: s.rest.trace := by
  rw [trace, if_neg (by simpa using h)]

/-- **Scans that go on alike**: the same tokens are to come, and the modes between them are the same. -/
structure SameScan (s s' : Tokenizer) : Prop where
  /-- The tokens and modes up to the end of the text are the same. -/
  trace : s'.trace.map (fun step => (step.1, step.2.mode)) =
    s.trace.map fun step => (step.1, step.2.mode)
  /-- The tokens and modes after any number of steps are the same, also beyond the end of the text. -/
  steps : ∀ n, (rest^[n] s').token = (rest^[n] s).token ∧ (rest^[n] s').mode = (rest^[n] s).mode
  /-- Taken one by one until there are none, they are the same. -/
  handsOut : ∀ tokens, s'.HandsOut tokens ↔ s.HandsOut tokens

/-- **Tokenizers at the same place in the same mode**, with memories that make no difference there. -/
structure Alike (s s' : Tokenizer) : Prop where
  same : s' = { s with memory := s'.memory }
  memory : s.mode.Forgives s.ahead s.memory s'.memory

/-- **What is read alike** is the same token, and leads to tokenizers that are alike. -/
theorem alike_rest_of_reading {s s' : Tokenizer}
    (same : s' = { s with mode := s'.mode, memory := s'.memory })
    (reading : s.reading.Alike s.ahead s'.reading) : s'.token = s.token ∧ s.rest.Alike s'.rest := by
  have position : s'.position = s.position := by rw [same]
  have ahead : s'.ahead = s.ahead := by rw [same]
  have lexeme : s'.lexeme = s.lexeme := by
    rw [Tokenizer.lexeme, Tokenizer.lexeme, reading.length, ahead]
  refine ⟨?_, ?_, reading.memory⟩
  · simp only [token, lexeme, reading.kind, reading.error, position]
  · simp only [rest, lexeme, reading.length, reading.mode, position, ahead]
    rw [same]

namespace Alike

variable {s s' : Tokenizer}

/-- The next token is read in the same way. -/
theorem reading (h : s.Alike s') : s.reading.Alike s.ahead s'.reading := by
  obtain ⟨same, memory⟩ := h
  have ahead : s'.ahead = s.ahead := by rw [same]
  by_cases ended : s.ahead = []
  · rw [reading_of_ahead_eq_nil ended, reading_of_ahead_eq_nil (ahead.trans ended), same]
    exact ⟨rfl, rfl, rfl, rfl, memory⟩
  · rw [reading_eq ended, reading_eq (ahead ▸ ended), same]
    exact readToken_alike s.vocabulary s.pseudoClose ended memory

/-- The next token is the same, and a step keeps tokenizers alike. -/
theorem step (h : s.Alike s') : s'.token = s.token ∧ s.rest.Alike s'.rest := by
  refine alike_rest_of_reading ?_ h.reading
  have mode : s'.mode = s.mode := by rw [h.same]
  rw [mode]
  exact h.same

theorem token (h : s.Alike s') : s'.token = s.token := h.step.1

theorem rest (h : s.Alike s') : s.rest.Alike s'.rest := h.step.2

/-- Any number of steps keeps tokenizers alike. -/
theorem iterate (h : s.Alike s') (n : Nat) : (Tokenizer.rest^[n] s).Alike (Tokenizer.rest^[n] s') := by
  induction n generalizing s s' with
  | zero => exact h
  | succ n ih => exact ih h.rest

/-- Scans that are alike have the same tokens and modes to come. -/
theorem trace (h : s.Alike s') : s'.trace.map (fun step => (step.1, step.2.mode)) =
    s.trace.map fun step => (step.1, step.2.mode) := by
  have advance {s s' : Tokenizer} (h : s.Alike s') :
      (s'.token, s'.rest.mode) = (s.token, s.rest.mode) :=
    Prod.ext h.token h.reading.mode
  induction s using Tokenizer.induction generalizing s' with
  | ended s ended =>
    have ended' : s'.ahead = [] := h.same ▸ ended
    rw [trace_of_ahead_eq_nil ended, trace_of_ahead_eq_nil ended']
    exact congrArg (fun step => [step]) (advance h)
  | step s some_ahead ih =>
    have some_ahead' : s'.ahead ≠ [] := h.same ▸ some_ahead
    rw [trace_of_ahead_ne_nil some_ahead, trace_of_ahead_ne_nil some_ahead', List.map_cons,
      List.map_cons, ih h.rest]
    exact congrArg (· :: _) (advance h)

/-- Scans that are alike have the same tokens to come. -/
theorem tokens (h : s.Alike s') : s'.tokens = s.tokens := by
  have firsts := congrArg (List.map Prod.fst) h.trace
  simpa [Tokenizer.tokens, Function.comp_def] using firsts

/-- **Tokenizers that are alike go on alike.** -/
theorem sameScan (h : s.Alike s') (fresh : s.finished = false) : s.SameScan s' := by
  refine ⟨h.trace, fun n => ⟨(h.iterate n).token, ?_⟩, fun tokens => ?_⟩
  · rw [(h.iterate n).same]
  · have fresh' : s'.finished = false := by
      rw [h.same]
      exact fresh
    -- Each of the two hands out one list, and it is the same list.
    have all {s : Tokenizer} (fresh : s.finished = false) : s.HandsOut tokens ↔ tokens = s.tokens :=
      ⟨fun handed => handed.unique (handsOut_tokens fresh), fun same => same ▸ handsOut_tokens fresh⟩
    rw [all fresh', all fresh, h.tokens]

end Alike

/-- A tokenizer that is started where another one stands has the same text ahead. -/
theorem start_position {s : Tokenizer} {t : Text} (here : s.At t) (v : Vocabulary) :
    start v t s.position = { vocabulary := v, position := s.position, ahead := s.ahead } := by
  obtain ⟨before, split, position⟩ := here
  have ahead : t.dropBytes? s.position = some s.ahead := by
    rw [split, position, dropBytes?_append]
  simp only [start, ahead]

/-- **Where nothing is remembered of a tag that is being read, a scan can be taken up again.** -/
theorem sameScan_restarted {s : Tokenizer} {t : Text} (here : s.At t) (fresh : s.finished = false)
    (mode : s.mode.restartable) : s.SameScan (s.restarted t) := by
  have restarted_eq : s.restarted t = { s with memory := {} } := by
    rw [restarted, start_position here, withMode, withPseudoClose, ← fresh]
  have alike : s.Alike (s.restarted t) := by
    rw [restarted_eq]
    exact ⟨rfl, Mode.forgives_of_restartable mode _ _ _⟩
  exact alike.sameScan fresh

end Tokenizer

end MarkupAnalysis
