import MarkupAnalysis.Pairing
import MarkupAnalysis.Proofs.Document.Moving
import MarkupAnalysis.Proofs.Document.Recovery
import MarkupAnalysis.Proofs.Token.Respelling

/-! # Edits of tag names

What a text becomes when some names of its tags are replaced, and which tokens it has then.

* **`TextEdit.applyTo?`**, **`TextEdit.applyAll?`** — the text after one edit, and after many.
* **`TextEdit.shift`**, **`TextEdit.shiftAll`** — where an offset is afterwards; `TextEdit.shiftAll_add` says
  how far it has moved.
* **`TextEdit.respell`**, **`TextEdit.respellAll`** — what a token is afterwards.
* **`TextEdit.Respells`** — the edits that replace the name of a tag by another one.
* **`Document.tokensOf_apply`**, **`Document.tokensOf_applyAll`** — the tokens of the edited text. -/

namespace MarkupAnalysis

open Document

namespace TextEdit

/-! ## Texts, offsets and tokens -/

/-- The text after the edit; none if there is no such span in the text. -/
def applyTo? (e : TextEdit) (t : Text) : Option Text := do
  let before ← t.takeBytes? e.span.start
  let behind ← t.dropBytes? e.span.stop
  pure (before ++ (e.newText ++ behind))

/-- The text after all edits. The last one comes first, so that the others still find their places. -/
def applyAll? : List TextEdit → Text → Option Text
  | [], t => some t
  | e :: edits, t => (applyAll? edits t).bind e.applyTo?

/-- Where the offset is after the edit: what stands behind it moves. -/
def shift (e : TextEdit) (offset : Nat) : Nat :=
  if e.span.stop ≤ offset then offset + e.newText.byteLength - e.span.length else offset

/-- Where the offset is after all edits. -/
def shiftAll (edits : List TextEdit) (offset : Nat) : Nat := edits.foldr shift offset

/-- The size of the edits before the offset, taken together. -/
def sizeBefore (size : TextEdit → Nat) (offset : Nat) : List TextEdit → Nat
  | [] => 0
  | e :: edits =>
    if e.span.stop ≤ offset then size e + sizeBefore size offset edits
    else sizeBefore size offset edits

/-- The token after the edit. -/
def respell (e : TextEdit) (token : Token) : Token :=
  { token with
    span := token.span.moved e.shift
    text := if token.span = e.span then e.newText else token.text }

/-- The token after all edits. -/
def respellAll (edits : List TextEdit) (token : Token) : Token := edits.foldr respell token

variable {e e' : TextEdit} {edits : List TextEdit} {offset bound : Nat}

/-! ## Offsets -/

/-- What stands before the edit stays. -/
theorem shift_of_lt (before : offset < e.span.stop) : e.shift offset = offset :=
  if_neg (Nat.not_le.mpr before)

/-- What stands behind the edit moves by what the text grows or shrinks. -/
theorem shift_add (forward : e.span.start ≤ e.span.stop) (behind : e.span.stop ≤ offset) :
    e.shift offset + (e.span.stop - e.span.start) = offset + e.newText.byteLength := by
  rw [shift, if_pos behind, Span.length]
  omega

/-- No edit moves anything past its own start. -/
theorem le_shift (before : bound ≤ e.span.start) (forward : e.span.start ≤ e.span.stop)
    (behind : bound ≤ offset) : bound ≤ e.shift offset := by
  by_cases past : e.span.stop ≤ offset
  · have := shift_add forward past
    omega
  · rwa [shift_of_lt (Nat.not_le.mp past)]

/-- Edits that come one after the other. -/
structure Apart (edits : List TextEdit) : Prop where
  /-- Each edit ends before the next one starts. -/
  ordered : edits.Pairwise fun e e' => e.span.stop ≤ e'.span.start
  /-- Each edit replaces something. -/
  nonempty : ∀ e ∈ edits, e.span.start < e.span.stop

theorem Apart.tail (h : Apart (e :: edits)) : Apart edits :=
  ⟨(List.pairwise_cons.mp h.ordered).2, fun e mem => h.nonempty e (List.mem_cons_of_mem _ mem)⟩

theorem Apart.head (h : Apart (e :: edits)) : ∀ e' ∈ edits, e.span.stop ≤ e'.span.start :=
  (List.pairwise_cons.mp h.ordered).1

/-- What stands before all edits stays. -/
theorem shiftAll_of_le (nonempty : ∀ e ∈ edits, e.span.start < e.span.stop)
    (before : ∀ e ∈ edits, offset ≤ e.span.start) : shiftAll edits offset = offset := by
  induction edits with
  | nil => rfl
  | cons e edits ih =>
    have rest : shiftAll edits offset = offset :=
      ih (fun e mem => nonempty e (List.mem_cons_of_mem _ mem))
        fun e mem => before e (List.mem_cons_of_mem _ mem)
    show e.shift (shiftAll edits offset) = offset
    rw [rest]
    exact shift_of_lt (Nat.lt_of_le_of_lt (before e List.mem_cons_self)
      (nonempty e List.mem_cons_self))

/-- Nothing moves past the start of the first edit. -/
theorem le_shiftAll (nonempty : ∀ e ∈ edits, e.span.start < e.span.stop)
    (before : ∀ e ∈ edits, bound ≤ e.span.start) (behind : bound ≤ offset) :
    bound ≤ shiftAll edits offset := by
  induction edits with
  | nil => exact behind
  | cons e edits ih =>
    exact le_shift (before e List.mem_cons_self) (Nat.le_of_lt (nonempty e List.mem_cons_self))
      (ih (fun e mem => nonempty e (List.mem_cons_of_mem _ mem))
        fun e mem => before e (List.mem_cons_of_mem _ mem))

/-- No edit stands before the offset. -/
theorem sizeBefore_eq_zero (size : TextEdit → Nat) (behind : ∀ e ∈ edits, offset < e.span.stop) :
    sizeBefore size offset edits = 0 := by
  induction edits with
  | nil => rfl
  | cons e edits ih =>
    rw [sizeBefore, if_neg (Nat.not_le.mpr (behind e List.mem_cons_self))]
    exact ih fun e mem => behind e (List.mem_cons_of_mem _ mem)

/-- **How far an offset moves**: by what the edits before it put in and take out. -/
theorem shiftAll_add (apart : Apart edits) (offset : Nat) :
    shiftAll edits offset + sizeBefore (·.span.length) offset edits =
      offset + sizeBefore (·.newText.byteLength) offset edits := by
  induction edits with
  | nil => rfl
  | cons e edits ih =>
    have rest := ih apart.tail
    have nonempty := apart.nonempty e List.mem_cons_self
    show e.shift (shiftAll edits offset) + _ = _
    by_cases past : e.span.stop ≤ offset
    · have shifted := shift_add (Nat.le_of_lt nonempty) (le_shiftAll apart.tail.nonempty apart.head past)
      have length : e.span.length = e.span.stop - e.span.start := rfl
      rw [sizeBefore, sizeBefore, if_pos past, if_pos past]
      omega
    · -- Then the later edits are not before the offset either.
      have behind : ∀ e' ∈ edits, offset ≤ e'.span.start ∧ offset < e'.span.stop := fun e' mem => by
        have := apart.head e' mem
        have := apart.tail.nonempty e' mem
        omega
      have none_before (size : TextEdit → Nat) : sizeBefore size offset edits = 0 :=
        sizeBefore_eq_zero size fun e mem => (behind e mem).2
      rw [sizeBefore, sizeBefore, if_neg past, if_neg past, none_before, none_before,
        shiftAll_of_le apart.tail.nonempty fun e mem => (behind e mem).1, shift_of_lt (by omega)]

/-! ## Texts -/

/-- The text around an edit. -/
theorem applyTo?_append {before middle behind : Text}
    (span : e.span = ⟨before.byteLength, before.byteLength + middle.byteLength⟩) :
    e.applyTo? (before ++ (middle ++ behind)) = some (before ++ (e.newText ++ behind)) := by
  have behind_eq : Text.dropBytes? (before ++ (middle ++ behind)) e.span.stop = some behind := by
    rw [span, ← List.append_assoc, ← Text.byteLength_append]
    exact Text.dropBytes?_append _ _
  have before_eq : Text.takeBytes? (before ++ (middle ++ behind)) e.span.start = some before := by
    rw [span]
    exact Text.takeBytes?_append _ _
  simp only [applyTo?, before_eq, behind_eq, Option.bind_eq_bind, Option.bind_some, Option.pure_def]

/-- The length of the text after an edit. -/
theorem byteLength_of_applyTo? {t t' : Text} (forward : e.span.start ≤ e.span.stop)
    (applied : e.applyTo? t = some t') : t'.byteLength = e.shift t.byteLength := by
  simp only [applyTo?, Option.bind_eq_bind, Option.bind_eq_some_iff, Option.pure_def,
    Option.some.injEq] at applied
  obtain ⟨before, taken, behind, dropped, rfl⟩ := applied
  obtain ⟨ahead, -, start⟩ := Text.takeBytes?_eq_some_iff.mp taken
  obtain ⟨before', rfl, stop⟩ := Text.dropBytes?_eq_some_iff.mp dropped
  have inside : e.span.stop ≤ Text.byteLength (before' ++ behind) := by
    rw [Text.byteLength_append]
    omega
  have shifted := shift_add forward inside
  rw [Text.byteLength_append] at shifted
  rw [Text.byteLength_append, Text.byteLength_append, Text.byteLength_append]
  omega

/-- The length of the text after all edits. -/
theorem byteLength_of_applyAll? {t t' : Text} (nonempty : ∀ e ∈ edits, e.span.start < e.span.stop)
    (applied : applyAll? edits t = some t') : t'.byteLength = shiftAll edits t.byteLength := by
  induction edits generalizing t' with
  | nil =>
    rw [← Option.some.inj applied]
    rfl
  | cons e edits ih =>
    obtain ⟨t₁, others, last⟩ := Option.bind_eq_some_iff.mp applied
    rw [byteLength_of_applyTo? (Nat.le_of_lt (nonempty e List.mem_cons_self)) last,
      ih (fun e mem => nonempty e (List.mem_cons_of_mem _ mem)) others]
    rfl

/-! ## Tokens -/

@[simp] theorem kind_respellAll (edits : List TextEdit) (token : Token) :
    (respellAll edits token).kind = token.kind := by
  induction edits with
  | nil => rfl
  | cons e edits ih => exact ih

@[simp] theorem error_respellAll (edits : List TextEdit) (token : Token) :
    (respellAll edits token).error = token.error := by
  induction edits with
  | nil => rfl
  | cons e edits ih => exact ih

@[simp] theorem span_respellAll (edits : List TextEdit) (token : Token) :
    (respellAll edits token).span = token.span.moved (shiftAll edits) := by
  induction edits with
  | nil => rfl
  | cons e edits ih => exact congrArg (Span.moved e.shift) ih

/-- The first edit comes last. -/
theorem text_respellAll_cons (e : TextEdit) (edits : List TextEdit) (token : Token) :
    (respellAll (e :: edits) token).text =
      if token.span.moved (shiftAll edits) = e.span then e.newText
      else (respellAll edits token).text := by
  rw [← span_respellAll]
  rfl

/-- A token keeps its text or gets it from an edit. -/
theorem text_respellAll_cases (edits : List TextEdit) (token : Token) :
    (respellAll edits token).text = token.text ∨
      ∃ e ∈ edits, (respellAll edits token).text = e.newText := by
  induction edits with
  | nil => exact .inl rfl
  | cons e edits ih =>
    rw [text_respellAll_cons]
    split
    · exact .inr ⟨e, List.mem_cons_self, rfl⟩
    · exact ih.imp_right fun ⟨e', mem, given⟩ => ⟨e', List.mem_cons_of_mem _ mem, given⟩

/-- The token is replaced by an edit or lies on one side of it. -/
def Meets (edits : List TextEdit) (token : Token) : Prop := ∀ e ∈ edits,
  token.span = e.span ∨ token.span.stop ≤ e.span.start ∨ e.span.stop ≤ token.span.start

/-- What stands before all edits stays. -/
theorem moved_shiftAll {span : Span} (nonempty : ∀ e ∈ edits, e.span.start < e.span.stop)
    (forward : span.start ≤ span.stop) (before : ∀ e ∈ edits, span.stop ≤ e.span.start) :
    span.moved (shiftAll edits) = span := by
  rw [Span.moved, shiftAll_of_le nonempty before,
    shiftAll_of_le nonempty fun e mem => Nat.le_trans forward (before e mem)]

/-- **A token finds its own edit**, even after the edits behind it. -/
theorem moved_eq_iff (apart : Apart (e :: edits)) {token : Token} (meets : Meets (e :: edits) token)
    (forward : token.span.start ≤ token.span.stop) :
    token.span.moved (shiftAll edits) = e.span ↔ token.span = e.span := by
  have nonempty := apart.nonempty e List.mem_cons_self
  have unmoved (before : token.span.stop ≤ e.span.stop) :
      token.span.moved (shiftAll edits) = token.span :=
    moved_shiftAll apart.tail.nonempty forward
      fun e' mem => Nat.le_trans before (apart.head e' mem)
  rcases meets e List.mem_cons_self with same | before | behind
  · rw [unmoved (by rw [same])]
  · rw [unmoved (by omega)]
  · have moved := le_shiftAll apart.tail.nonempty apart.head behind
    refine iff_of_false (fun same => ?_) fun same => ?_
    · have : shiftAll edits token.span.start = e.span.start := congrArg Span.start same
      omega
    · rw [same] at behind
      omega

/-- A token that no edit replaces keeps its text. -/
theorem text_respellAll_of_forall_ne (apart : Apart edits) {token : Token} (meets : Meets edits token)
    (forward : token.span.start ≤ token.span.stop) (other : ∀ e ∈ edits, token.span ≠ e.span) :
    (respellAll edits token).text = token.text := by
  induction edits with
  | nil => rfl
  | cons e edits ih =>
    have rest := ih apart.tail (fun e mem => meets e (List.mem_cons_of_mem _ mem))
      fun e mem => other e (List.mem_cons_of_mem _ mem)
    rw [text_respellAll_cons, if_neg, rest]
    rw [moved_eq_iff apart meets forward]
    exact other e List.mem_cons_self

/-- A token that an edit replaces gets its text from there. -/
theorem text_respellAll_of_mem (apart : Apart edits) {token : Token} (meets : Meets edits token)
    (forward : token.span.start ≤ token.span.stop) (mem : e ∈ edits) (here : token.span = e.span) :
    (respellAll edits token).text = e.newText := by
  induction edits with
  | nil => cases mem
  | cons first edits ih =>
    rw [text_respellAll_cons]
    rcases List.mem_cons.mp mem with rfl | later
    · rw [if_pos ((moved_eq_iff apart meets forward).mpr here)]
    · rw [if_neg, ih apart.tail (fun e mem => meets e (List.mem_cons_of_mem _ mem)) later]
      rw [moved_eq_iff apart meets forward, here]
      intro same
      have apart_here := apart.head e later
      have nonempty := apart.nonempty first List.mem_cons_self
      rw [same] at apart_here
      omega

/-! ## Edits of names -/

/-- **The edit replaces the name of a tag by another one** whose body is no more opaque. -/
structure Respells (v : Vocabulary) (t : Text) (e : TextEdit) : Prop where
  /-- A name stands there. -/
  token : ∃ token ∈ tokensOf v t,
    (token.kind = .startTag ∨ token.kind = .endTag) ∧ token.span = e.span
  /-- The new text is a name. -/
  name : IsTagName e.newText
  /-- The name stands for no opaque body. -/
  markup : v.isEmbeddedContent e.newText = false

/-- What stands before the edit stays. -/
theorem respell_of_before {token : Token} (nonempty : e.span.start < e.span.stop)
    (forward : token.span.start ≤ token.span.stop) (before : token.span.stop ≤ e.span.start) :
    e.respell token = token := by
  have moved : token.span.moved e.shift = token.span := by
    rw [Span.moved, shift_of_lt (by omega), shift_of_lt (by omega)]
  have other : token.span ≠ e.span := by
    intro same
    rw [same] at before
    omega
  rw [respell, moved, if_neg other]

/-- What stands behind the edit moves. -/
theorem respell_of_behind {token : Token} (nonempty : e.span.start < e.span.stop)
    (behind : e.span.stop ≤ token.span.start) :
    e.respell token = { token with span := token.span.moved e.shift } := by
  have other : token.span ≠ e.span := by
    intro same
    rw [same] at behind
    omega
  rw [respell, if_neg other]

/-- What the edit replaces. -/
theorem respell_of_eq {token : Token} (nonempty : e.span.start < e.span.stop)
    (here : token.span = e.span) :
    e.respell token =
      { token with
        span := ⟨token.span.start, token.span.start + e.newText.byteLength⟩
        text := e.newText } := by
  have stop := shift_add (e := e) (Nat.le_of_lt nonempty) (Nat.le_refl e.span.stop)
  have moved : e.shift e.span.stop = e.span.start + e.newText.byteLength := by omega
  rw [respell, if_pos here, here, Span.moved, shift_of_lt nonempty, moved]

end TextEdit

/-- No start tag of the text has an opaque body. -/
def Document.NamesMarkup (v : Vocabulary) (t : Text) : Prop := ∀ token ∈ tokensOf v t,
  token.kind = .startTag → v.isEmbeddedContent token.text = false

namespace Document

variable {v : Vocabulary} {t t' : Text} {e : TextEdit} {edits : List TextEdit}

/-- The scan of a text without opaque bodies. -/
theorem NamesMarkup.scanner (names : NamesMarkup v t) :
    (scanner v t).ReadsMarkup ∧ (scanner v t).NamesMarkup := by
  have tokens : (Document.scanner v t).tokens = tokensOf v t := rfl
  refine ⟨?_, ?_⟩
  · rw [scanner_eq]
    exact ⟨by simp, .inl rfl⟩
  · have vocabulary : (Document.scanner v t).vocabulary = v := by rw [scanner_eq]
    rw [Tokenizer.NamesMarkup, vocabulary, tokens]
    exact names

/-- Where a passage through the text has led to. -/
theorem position_of_passes {s : Tokenizer} {passed : List Token} (h : (scanner v t).Passes passed s) :
    t = passed.flatMap (·.text) ++ s.ahead ∧
      s.position = Text.byteLength (passed.flatMap (·.text)) := by
  have ahead : (scanner v t).ahead = t := by rw [scanner_eq]
  have whole : t = passed.flatMap (·.text) ++ s.ahead := ahead.symm.trans h.ahead_eq
  obtain ⟨before, split, position⟩ := h.at_of_at (scanner_at v t)
  obtain rfl : before = passed.flatMap (·.text) := List.append_cancel_right (split.symm.trans whole)
  exact ⟨whole, position⟩

/-- What stands behind a token moves by what its text grows or shrinks. -/
theorem shift_behind_token {s : Tokenizer} (here : s.token.span = e.span) {offset : Nat}
    (behind : s.rest.position ≤ offset) :
    e.shift offset + s.token.text.byteLength = offset + e.newText.byteLength := by
  have stop : e.span.stop = s.rest.position := by rw [← here]; rfl
  have start : e.span.start = s.position := by rw [← here]; rfl
  have reaches := s.position_rest
  have forward : e.span.start ≤ e.span.stop := start ▸ stop ▸ Tokenizer.position_le_rest
  have shifted := TextEdit.shift_add forward (stop ▸ behind)
  omega

/-- The tokens around the edited one: those before it stay, those behind it move. -/
theorem map_respell {before after : List Token} {token : Token}
    (all : tokensOf v t = before ++ token :: after) (here : token.span = e.span)
    (nonempty : e.span.start < e.span.stop) :
    (tokensOf v t).map e.respell = before ++
      { token with
        span := ⟨token.span.start, token.span.start + e.newText.byteLength⟩
        text := e.newText } ::
      after.map fun token => { token with span := token.span.moved e.shift } := by
  have order := tokensOf_pairwise v t
  have forward := fun token mem => (@span_of_mem_tokensOf v t token mem).1
  rw [all] at order forward ⊢
  obtain ⟨-, behind, apart⟩ := List.pairwise_append.mp order
  have before_eq : before.map e.respell = before := by
    refine (List.map_congr_left fun token mem => ?_).trans (List.map_id before)
    refine TextEdit.respell_of_before nonempty (forward token (by simp [mem])) ?_
    rw [← here]
    exact apart token mem _ List.mem_cons_self
  have behind_eq : after.map e.respell =
      after.map fun token => { token with span := token.span.moved e.shift } := by
    refine List.map_congr_left fun token mem => TextEdit.respell_of_behind nonempty ?_
    rw [← here]
    exact (List.pairwise_cons.mp behind).1 token mem
  rw [List.map_append, List.map_cons, before_eq, behind_eq, TextEdit.respell_of_eq nonempty here]

/-- **The tokens of a text after the edit of a name.** -/
theorem tokensOf_apply (names : NamesMarkup v t) (h : e.Respells v t) :
    ∃ t', e.applyTo? t = some t' ∧ tokensOf v t' = (tokensOf v t).map e.respell := by
  obtain ⟨token, mem, kind, here⟩ := h.token
  have nonempty : e.span.start < e.span.stop := here ▸ (span_of_mem_tokensOf mem).2 kind
  obtain ⟨before, after, all⟩ := List.mem_iff_append.mp mem
  obtain ⟨s, passes, rfl, further⟩ := Tokenizer.passes_of_tokens_eq all
  have passes : (scanner v t).Passes before s := passes
  have at_name : s.AtName := kind
  have after_eq : s.rest.tokens = after := by
    rw [Tokenizer.tokens_of_ahead_ne_nil at_name.some_ahead] at further
    exact (List.cons.inj further).2
  obtain ⟨whole, position⟩ := position_of_passes passes
  rw [← s.lexeme_append_ahead_rest] at whole
  refine ⟨before.flatMap (·.text) ++ (e.newText ++ s.rest.ahead), ?applied, ?tokens⟩
  case applied =>
    conv_lhs => rw [whole]
    refine TextEdit.applyTo?_append ?_
    rw [← here, Tokenizer.token_span, Tokenizer.position_rest, position]
    rfl
  case tokens =>
    have vocabulary : s.vocabulary = v := by
      refine passes.preserves (P := fun s => s.vocabulary = v) (fun _ _ same => same) ?_
      rw [scanner_eq]
    -- The way to the name is the same, and what comes behind it is the same in other places.
    have scanned := passes.tokens_respelled at_name names.scanner.1 names.scanner.2 h.name
      (vocabulary ▸ h.markup) fun _ behind => shift_behind_token here behind
    rw [after_eq] at scanned
    have tokens : tokensOf v (before.flatMap (·.text) ++ (e.newText ++ s.rest.ahead)) =
        ((scanner v t).withAhead (before.flatMap (·.text) ++ (e.newText ++ s.rest.ahead))).tokens := by
      show (scanner v _).tokens = _
      rw [scanner_eq, scanner_eq]
      rfl
    rw [tokens, scanned, map_respell all here nonempty]
    rfl

/-- **The tokens of a text after the edits of names.** -/
theorem tokensOf_applyAll (names : NamesMarkup v t) (apart : TextEdit.Apart edits)
    (h : ∀ e ∈ edits, e.Respells v t) :
    ∃ t', TextEdit.applyAll? edits t = some t' ∧
      tokensOf v t' = (tokensOf v t).map (TextEdit.respellAll edits) := by
  induction edits with
  | nil => exact ⟨t, rfl, (List.map_id _).symm⟩
  | cons e edits ih =>
    -- The other edits come first. They lie behind this one and bring in no opaque body.
    obtain ⟨t₁, applied, tokens⟩ := ih apart.tail fun e mem => h e (List.mem_cons_of_mem _ mem)
    have names₁ : NamesMarkup v t₁ := by
      intro token mem kind
      rw [tokens] at mem
      obtain ⟨original, known, rfl⟩ := List.mem_map.mp mem
      rcases TextEdit.text_respellAll_cases edits original with kept | ⟨e', mem', given⟩
      · rw [kept]
        exact names original known (by simpa using kind)
      · rw [given]
        exact (h e' (List.mem_cons_of_mem _ mem')).markup
    have respells : e.Respells v t₁ := by
      obtain ⟨⟨token, mem, kind, span⟩, name, markup⟩ := h e List.mem_cons_self
      refine ⟨⟨TextEdit.respellAll edits token, ?_, by simpa using kind, ?_⟩, name, markup⟩
      · rw [tokens]
        exact List.mem_map_of_mem mem
      · -- The edits behind the name do not move it.
        rw [TextEdit.span_respellAll, span]
        exact TextEdit.moved_shiftAll apart.tail.nonempty
          (Nat.le_of_lt (apart.nonempty e List.mem_cons_self)) apart.head
    obtain ⟨t', last, tokens'⟩ := tokensOf_apply names₁ respells
    refine ⟨t', Option.bind_eq_some_iff.mpr ⟨t₁, applied, last⟩, ?_⟩
    rw [tokens', tokens, List.map_map]
    rfl

end Document

end MarkupAnalysis
