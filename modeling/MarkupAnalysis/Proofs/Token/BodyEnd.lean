import MarkupAnalysis.Proofs.Token.Body
import MarkupAnalysis.Proofs.Token.Bracket

/-! # The first end tag and the end of a body

The body of an embedded element stops at an end tag of the element, or where the text does. There may be
several such places, and the body stops at the first of them. Only a script may go on, and only if it holds
a `<script` after a `<!--`: what marks a script never reaches over a `<`, so no end tag is skipped.

* **`StartsEndTag`**, **`IsBody`**, **`IsFirstBody`** — the places where a body may stop, and the first one.
* **`HoldsScriptTag`**, **`HidesEndTag`** — what makes a script go on.
* **`isFirstBody_take`** — looking for an end tag finds the first one.
* **`ScriptEscape.Exposes`**, **`scriptBodyLength_of_exposes`** — a script stops there as well, unless its
  end tag is hidden.
* **`Tokenizer.tokens_of_body`** — a body is one token, or none if it is empty.
* **`Tokenizer.Passes.embeddedBody`** — the body behind any start tag that has an opaque one. -/

namespace MarkupAnalysis

open Text

variable {tag t : Text}

/-! ## Where bodies may stop -/

/-- The text starts with `</` and the name of the tag, in any case. -/
def StartsEndTag (tag t : Text) : Prop :=
  ∃ name rest, t = '<' :: '/' :: (name ++ rest) ∧ equalsIgnoringCase tag name = true

/-- **A body** is followed by an end tag of its element, or by nothing. -/
def IsBody (tag body t : Text) : Prop :=
  ∃ behind, t = body ++ behind ∧ (behind = [] ∨ StartsEndTag tag behind)

/-- **The body up to the first end tag** is the shortest one. -/
structure IsFirstBody (tag first t : Text) : Prop where
  /-- It is a body. -/
  isBody : IsBody tag first t
  /-- No other body stops earlier. -/
  earliest : ∀ body, IsBody tag body t → first.length ≤ body.length

/-- The start of a script tag, in any case. -/
def HoldsScriptTag (t : Text) : Prop :=
  ∃ before name after, t = before ++ '<' :: (name ++ after) ∧
    equalsIgnoringCase "script".toList name = true

/-- **What hides an end tag**: a script tag after `<!--`. -/
def HidesEndTag (t : Text) : Prop :=
  ∃ before after, t = before ++ ("<!--".toList ++ after) ∧ HoldsScriptTag after

/-- The name may be the first part of a longer one. -/
theorem startsWithIgnoringCase_iff_exists : startsWithIgnoringCase tag t = true ↔
    ∃ name rest, t = name ++ rest ∧ equalsIgnoringCase tag name = true := by
  rw [startsWithIgnoringCase_iff, List.prefix_iff_eq_take, length_lower, ← lower_take]
  constructor
  · intro same
    exact ⟨t.take tag.length, t.drop tag.length, (List.take_append_drop _ _).symm,
      equalsIgnoringCase_iff.mpr same⟩
  · rintro ⟨name, rest, rfl, same⟩
    have same := equalsIgnoringCase_iff.mp same
    rw [length_eq_of_lower same, List.take_left, same]

theorem startsEndTag_iff : StartsEndTag tag t ↔ isEndTagOf tag t = true := by
  rw [isEndTagOf_iff]
  constructor
  · rintro ⟨name, rest, rfl, same⟩
    exact ⟨_, rfl, startsWithIgnoringCase_iff_exists.mpr ⟨name, rest, rfl, same⟩⟩
  · rintro ⟨_, rfl, starts⟩
    obtain ⟨name, rest, rfl, same⟩ := startsWithIgnoringCase_iff_exists.mp starts
    exact ⟨name, rest, rfl, same⟩

/-- What comes before an end tag or the end is a body. -/
theorem isBody_take {n : Nat} (stops : t.drop n = [] ∨ isEndTagOf tag (t.drop n) = true) :
    IsBody tag (t.take n) t :=
  ⟨t.drop n, (List.take_append_drop n t).symm, stops.imp_right startsEndTag_iff.mpr⟩

/-- **Looking for an end tag** finds the first one. -/
theorem isFirstBody_take (tag t : Text) :
    IsFirstBody tag (t.take (lengthUntil (isEndTagOf tag) t)) t := by
  refine ⟨isBody_take (lengthUntil_stops _ t), ?_⟩
  rintro body ⟨behind, rfl, stops⟩
  refine (List.length_take_le _ _).trans (lengthUntil_le_of_stops ?_)
  rw [List.drop_left]
  exact stops.imp_right startsEndTag_iff.mp

/-- There is one first body. -/
theorem IsFirstBody.unique {first first' : Text} (h : IsFirstBody tag first t)
    (h' : IsFirstBody tag first' t) : first = first' := by
  obtain ⟨behind, split, -⟩ := h.isBody
  obtain ⟨behind', split', -⟩ := h'.isBody
  have size : first.length = first'.length := Nat.le_antisymm (h.earliest _ h'.isBody) (h'.earliest _ h.isBody)
  exact (List.append_inj (split.symm.trans split') size).1

/-! ## What hides an end tag -/

theorem HoldsScriptTag.append (h : HoldsScriptTag t) (before : Text) : HoldsScriptTag (before ++ t) := by
  obtain ⟨before', name, after, rfl, same⟩ := h
  exact ⟨before ++ before', name, after, by rw [List.append_assoc], same⟩

theorem HidesEndTag.append (h : HidesEndTag t) (before : Text) : HidesEndTag (before ++ t) := by
  obtain ⟨before', after, rfl, holds⟩ := h
  exact ⟨before ++ before', after, by rw [List.append_assoc], holds⟩

theorem HidesEndTag.holdsScriptTag (h : HidesEndTag t) : HoldsScriptTag t := by
  obtain ⟨before, after, rfl, holds⟩ := h
  exact (holds.append _).append before

namespace ScriptEscape

/-- **Nothing ahead hides the end tag**, at a place that is hidden so deep. -/
def Exposes : ScriptEscape → Text → Prop
  | normal, t => ¬ HidesEndTag t
  | escaped, t => ¬ HoldsScriptTag t
  | doubleEscaped, _ => False

namespace Exposes

variable {hidden : ScriptEscape} {before : Text}

/-- Further on there is less to hide it. -/
theorem of_append (h : hidden.Exposes (before ++ t)) : hidden.Exposes t := by
  cases hidden with
  | normal => exact fun hides => h (hides.append before)
  | escaped => exact fun holds => h (holds.append before)
  | doubleEscaped => exact h

/-- Outside of comments more is needed to hide it. -/
theorem outside (h : hidden.Exposes t) : normal.Exposes t := by
  cases hidden with
  | normal => exact h
  | escaped => exact fun hides => h hides.holdsScriptTag
  | doubleEscaped => exact h.elim

/-- An end tag ends the body where it is exposed. -/
theorem after?_endTag (h : hidden.Exposes t) : hidden.after? .endTag = none := by
  cases hidden with
  | normal | escaped => rfl
  | doubleEscaped => exact h.elim

end Exposes

end ScriptEscape

/-! ## The markers of a script -/

/-- What a marker other than the end tag looks like. -/
def ScriptMarker.LooksLike : ScriptMarker → Text → Prop
  | commentOpen, t => t = "<!--".toList
  | commentClose, t => t = "-->".toList
  | startTag, t => HoldsScriptTag t
  | endTag, _ => False

/-- A marker leaves the end tag exposed: a script tag hides it behind `<!--` only. -/
theorem ScriptEscape.Exposes.after? {hidden : ScriptEscape} {marker : ScriptMarker} {lexeme : Text}
    (h : hidden.Exposes (lexeme ++ t)) (looks : marker.LooksLike lexeme) :
    ∃ hidden', hidden.after? marker = some hidden' ∧ hidden'.Exposes t := by
  cases marker with
  | commentOpen =>
    cases hidden with
    | normal => exact ⟨escaped, rfl, fun holds => h ⟨[], t, congrArg (· ++ t) looks, holds⟩⟩
    | escaped => exact ⟨escaped, rfl, h.of_append⟩
    | doubleEscaped => exact h.elim
  | commentClose => exact ⟨normal, by cases hidden <;> rfl, h.of_append.outside⟩
  | startTag =>
    cases hidden with
    | normal => exact ⟨normal, rfl, h.of_append⟩
    | escaped =>
      obtain ⟨before, name, after, rfl, same⟩ := looks
      exact (h ⟨before, name, after ++ t, by simp, same⟩).elim
    | doubleEscaped => exact h.elim
  | endTag => exact looks.elim

/-- What may follow the name in a marker holds no bracket that opens a tag. -/
theorem not_mem_take_tagTailLength (t : Text) : '<' ∉ t.take (tagTailLength t) := by
  rw [tagTailLength_eq, List.take_add]
  generalize behind : t.drop (lengthWhile isAsciiBlank t) = rest
  intro mem
  rcases List.mem_append.mp mem with blank | mem
  · cases accepts_of_mem_take blank
  · split_ifs at mem with whole slash bracket
    · obtain ⟨rest, rfl⟩ := startsWith_iff.mp whole
      simp at mem
    · obtain ⟨rest, rfl⟩ := startsWith_iff.mp slash
      simp at mem
    · obtain ⟨rest, rfl⟩ := startsWith_iff.mp bracket
      simp at mem
    · simp at mem

/-- The name of a script holds no bracket. -/
theorem not_mem_of_isScript {name : Text} (script : isScript tag = true)
    (same : equalsIgnoringCase tag name = true) : '<' ∉ name := by
  intro mem
  have lowered : lower name = "script".toList :=
    (equalsIgnoringCase_iff.mp same).symm.trans (equalsIgnoringCase_iff.mp script)
  have lower_mem : '<' ∈ lower name := List.mem_map.mpr ⟨'<', mem, rfl⟩
  rw [lowered] at lower_mem
  exact absurd lower_mem (by decide)

/-- A script tag, with all that belongs to its marker, holds no further bracket. -/
theorem exists_scriptTag {name : Text} (script : isScript tag = true)
    (starts : startsWithIgnoringCase tag name = true) :
    ∃ others rest, name = others ++ rest ∧
      others.length = tag.length + tagTailLength (name.drop tag.length) ∧ '<' ∉ others ∧
      HoldsScriptTag ('<' :: others) := by
  obtain ⟨own, rest, rfl, same⟩ := startsWithIgnoringCase_iff_exists.mp starts
  have lowered := equalsIgnoringCase_iff.mp same
  have like : equalsIgnoringCase "script".toList own = true :=
    (equalsIgnoringCase_congr (equalsIgnoringCase_iff.mp script) rfl).symm.trans same
  have tail : (rest.take (tagTailLength rest)).length = tagTailLength rest :=
    List.length_take_of_le (tagTailLength_le rest)
  refine ⟨own ++ rest.take (tagTailLength rest), rest.drop (tagTailLength rest), ?_, ?_, ?_, ?_⟩
  · rw [List.append_assoc, List.take_append_drop]
  · rw [length_eq_of_lower lowered, List.drop_left, List.length_append, tail]
  · rw [List.mem_append, not_or]
    exact ⟨not_mem_of_isScript script same, not_mem_take_tagTailLength rest⟩
  · exact ⟨[], own, _, rfl, like⟩

/-- **A marker other than the end tag** has a bracket at its start only. -/
theorem ScriptMarker.exists_lexeme {marker : ScriptMarker} {n : Nat} (script : isScript tag = true)
    (here : read? tag t = some (marker, n)) (not_end : isEndTagOf tag t = false) :
    ∃ first others rest, t = first :: (others ++ rest) ∧ n = others.length + 1 ∧ '<' ∉ others ∧
      marker.LooksLike (first :: others) := by
  rw [read?_eq] at here
  split_ifs at here with comment opens bracket dashes
  · obtain ⟨rest, rfl⟩ := startsWith_iff.mp comment
    obtain ⟨rfl, rfl⟩ := Prod.mk.inj (Option.some.inj here)
    exact ⟨'<', "!--".toList, rest, rfl, rfl, by decide, rfl⟩
  · -- This one would be the end tag.
    rw [isEndTagOf_eq, opens, Bool.true_and] at not_end
    rw [tagMarker?, not_end] at here
    cases here
  · obtain ⟨name, rfl⟩ := startsWith_iff.mp bracket
    rw [List.singleton_append, List.drop_succ_cons, List.drop_zero, tagMarker?] at here
    split_ifs at here with starts
    obtain ⟨rfl, rfl⟩ := Prod.mk.inj (Option.some.inj here)
    obtain ⟨others, rest, split, size, no_bracket, holds⟩ := exists_scriptTag script starts
    exact ⟨'<', others, rest, congrArg ('<' :: ·) split, by omega, no_bracket, holds⟩
  · obtain ⟨rest, rfl⟩ := startsWith_iff.mp dashes
    obtain ⟨rfl, rfl⟩ := Prod.mk.inj (Option.some.inj here)
    exact ⟨'-', "->".toList, rest, rfl, rfl, by decide, rfl⟩

/-- No end tag starts inside a marker. -/
theorem lengthUntil_isEndTagOf_lexeme {first : Char} {others rest : Text} (no_bracket : '<' ∉ others)
    (not_end : isEndTagOf tag (first :: (others ++ rest)) = false) :
    lengthUntil (isEndTagOf tag) (first :: (others ++ rest)) =
      (first :: others).length + lengthUntil (isEndTagOf tag) rest := by
  rw [← List.cons_append]
  refine lengthUntil_append fun before c after split => ?_
  cases before with
  | nil => rwa [← List.nil_append (c :: after), ← split]
  | cons d before =>
    have mem : c ∈ others := by
      rw [(List.cons.inj split).2]
      exact List.mem_append_right _ List.mem_cons_self
    have other : c ≠ '<' := by
      rintro rfl
      exact no_bracket mem
    simp [isEndTagOf, other]

/-! ## Script bodies -/

/-- **A script stops at the first end tag** unless something hides it. -/
theorem scriptBodyLength_of_exposes (script : isScript tag = true) {hidden : ScriptEscape} {t : Text}
    (exposes : hidden.Exposes (t.take (lengthUntil (isEndTagOf tag) t))) :
    scriptBodyLength tag hidden 0 t = lengthUntil (isEndTagOf tag) t := by
  -- From marker to marker, which takes several characters at once.
  induction size : t.length using Nat.strong_induction_on generalizing hidden t with
  | _ _ ih =>
    cases t with
    | nil => rw [scriptBodyLength, lengthUntil]
    | cons c t =>
      cases ends : isEndTagOf tag (c :: t) with
      | true => rw [scriptBodyLength_of_isEndTagOf ends exposes.after?_endTag, lengthUntil, if_pos ends]
      | false =>
        cases here : ScriptMarker.read? tag (c :: t) with
        | none =>
          have further : lengthUntil (isEndTagOf tag) (c :: t) = lengthUntil (isEndTagOf tag) t + 1 := by
            rw [lengthUntil, ends]
            rfl
          have shorter : t.length < (c :: t).length := Nat.lt_succ_self _
          rw [further, List.take_succ_cons, ← List.singleton_append] at exposes
          rw [further, scriptBodyLength_of_none here, ih _ (size ▸ shorter) exposes.of_append rfl]
        | some found =>
          obtain ⟨marker, n⟩ := found
          obtain ⟨first, others, rest, split, rfl, no_bracket, looks⟩ :=
            ScriptMarker.exists_lexeme script here ends
          rw [split] at here ends size exposes ⊢
          have further := lengthUntil_isEndTagOf_lexeme no_bracket ends
          rw [further, ← List.cons_append, List.take_length_add_append] at exposes
          obtain ⟨hidden', after, exposes'⟩ := exposes.after? looks
          have shorter : rest.length < (first :: (others ++ rest)).length := by
            rw [List.length_cons, List.length_append]
            omega
          rw [scriptBodyLength_of_marker here after, Nat.add_sub_cancel, scriptBodyLength_skip,
            ih _ (size ▸ shorter) exposes' rfl, further, List.length_cons]
          omega

/-- **The body that is read** is a body, and the first one unless something hides the end tag. -/
theorem isBody_take_embeddedBodyLength (tag t : Text) :
    IsBody tag (t.take (embeddedBodyLength (some tag) t)) t :=
  isBody_take (embeddedBodyLength_stops tag t)

theorem embeddedBodyLength_eq (exposed : isScript tag = true →
      ¬ HidesEndTag (t.take (lengthUntil (isEndTagOf tag) t))) :
    embeddedBodyLength (some tag) t = lengthUntil (isEndTagOf tag) t := by
  rw [embeddedBodyLength, Option.getD_some]
  split
  · rename_i script
    have start : ScriptEscape.normal.Exposes (t.take (lengthUntil (isEndTagOf tag) t)) := exposed script
    exact scriptBodyLength_of_exposes script start
  · rfl

/-! ## Bodies as tokens -/

namespace Tokenizer

variable {s : Tokenizer}

/-- The body as a token, if there is any of it. -/
def bodyTokens (s : Tokenizer) (body : Text) : List Token :=
  if body = [] then [] else [⟨.embeddedContent, ⟨s.position, s.position + body.byteLength⟩, body, none⟩]

/-- The place behind the body, where content is read again. -/
def pastBody (s : Tokenizer) (body : Text) : Tokenizer :=
  { s with
    position := s.position + body.byteLength
    ahead := s.ahead.drop body.length
    mode := .content }

/-- Behind an empty body content is read at once. -/
theorem tokens_pastBody_nil (mode : s.mode = .embeddedContent) (embedded : s.memory.embeddedTag = some tag)
    (no_body : embeddedBodyLength (some tag) s.ahead = 0) : (s.pastBody []).tokens = s.tokens := by
  by_cases ended : s.ahead = []
  · rw [tokens_of_ahead_eq_nil ended, tokens_of_ahead_eq_nil (s := s.pastBody []) ended]
    simp [token, lexeme, reading, pastBody, ended]
  · have same : (s.pastBody []).reading = s.reading := by
      rw [reading_of_body mode ended embedded, no_body, if_neg (Nat.lt_irrefl 0),
        reading_eq (s := s.pastBody []) ended]
      rfl
    have token : (s.pastBody []).token = s.token := by
      unfold Tokenizer.token lexeme
      rw [same]
      rfl
    have rest : (s.pastBody []).rest = s.rest := by
      unfold Tokenizer.rest lexeme
      rw [same]
      rfl
    rw [tokens_of_ahead_ne_nil ended, tokens_of_ahead_ne_nil (s := s.pastBody []) ended, token, rest]

/-- **A body is one token**, or none if it is empty. Behind it content is read. -/
theorem tokens_of_body (mode : s.mode = .embeddedContent) (embedded : s.memory.embeddedTag = some tag) :
    s.tokens =
      s.bodyTokens (s.ahead.take (embeddedBodyLength (some tag) s.ahead)) ++
        (s.pastBody (s.ahead.take (embeddedBodyLength (some tag) s.ahead))).tokens := by
  have inside := embeddedBodyLength_le (some tag) s.ahead
  by_cases some_body : 0 < embeddedBodyLength (some tag) s.ahead
  · have some_ahead : s.ahead ≠ [] := List.ne_nil_of_length_pos (by omega)
    have reading := reading_of_body mode some_ahead embedded
    rw [if_pos some_body] at reading
    have some_text : s.ahead.take (embeddedBodyLength (some tag) s.ahead) ≠ [] :=
      List.ne_nil_of_length_pos (by rwa [List.length_take_of_le inside])
    have rest : s.rest = s.pastBody (s.ahead.take (embeddedBodyLength (some tag) s.ahead)) := by
      simp [Tokenizer.rest, lexeme, reading, pastBody, List.length_take_of_le inside]
    rw [tokens_of_ahead_ne_nil some_ahead, rest, bodyTokens, if_neg some_text, token, lexeme, reading]
    rfl
  · have no_body := Nat.eq_zero_of_not_pos some_body
    rw [no_body, List.take_zero, tokens_pastBody_nil mode embedded no_body, bodyTokens, if_pos rfl,
      List.nil_append]

/-- What is remembered behind any token of a scan that has not started in a tag. -/
theorem Passes.remembers_rest {s₀ : Tokenizer} {passed : List Token} (h : s₀.Passes passed s)
    (fresh : s₀.memory.tag = []) (some_ahead : s.ahead ≠ []) :
    s.rest.Remembers (passed ++ [s.token]) := by
  refine Tokenizer.remembers_rest (h.along (P := fun passed s =>
    s.memory.tag = [] ∨ IsTagName s.memory.tag ∧ latestTag passed = some s.memory.tag) (.inl fresh) ?_)
    some_ahead
  intro passed s _ some_ahead tag
  exact (Tokenizer.remembers_rest tag some_ahead).tag

/-- **The body behind a start tag.** Wherever a scan enters an opaque body, the latest start tag has a body
ahead. It is the one up to the first end tag of the element, or to the end of the text; only a script may
go on to a later one, and only if a script tag after `<!--` hides the first. The body is one token, or
none if it is empty, and content is read behind it. -/
theorem Passes.embeddedBody (v : Vocabulary) (t : Text) (offset : Nat) (mode : Mode) (pseudoClose : Bool)
    {passed : List Token}
    (h : (((start v t offset).withMode mode).withPseudoClose pseudoClose).Passes passed s)
    (some_ahead : s.ahead ≠ []) (enters : s.rest.mode = .embeddedContent) :
    ∃ tag first body, latestTag (passed ++ [s.token]) = some tag ∧
      IsFirstBody tag first s.rest.ahead ∧ IsBody tag body s.rest.ahead ∧ first <+: body ∧
      (isScript tag = false ∨ ¬ HidesEndTag first → body = first) ∧
      s.rest.tokens = s.rest.bodyTokens body ++ (s.rest.pastBody body).tokens := by
  have fresh : (((start v t offset).withMode mode).withPseudoClose pseudoClose).memory.tag = [] := by
    unfold start
    split <;> rfl
  have remembers := h.remembers_rest fresh some_ahead
  obtain ⟨embedded, opens⟩ := remembers.body enters
  obtain ⟨-, latest⟩ := remembers.tag.resolve_left (opensEmbeddedBody_iff.mp opens).1
  have first := isFirstBody_take s.rest.memory.tag s.rest.ahead
  have body := isBody_take_embeddedBodyLength s.rest.memory.tag s.rest.ahead
  refine ⟨_, _, _, latest, first, body, ?_, ?_, tokens_of_body enters embedded⟩
  · exact List.prefix_of_prefix_length_le (List.take_prefix _ _) (List.take_prefix _ _) (first.earliest _ body)
  · rintro (other | exposed)
    · rw [embeddedBodyLength_eq fun script => absurd script (by simp [other])]
    · rw [embeddedBodyLength_eq fun _ => exposed]

/-- A script whose end tag is spelled in upper case. -/
def shoutedScript : Text := "<script>a</SCRIPT>b".toList

/-- The body of a script is read up to its end tag. -/
theorem Passes.embeddedBody_shoutedScript :
    let scripts := (Dictionary.empty.markEmbedded ["script".toList]).toVocabulary
    let bracket := (start scripts shoutedScript 0).rest.rest
    bracket.ahead ≠ [] ∧ bracket.rest.mode = .embeddedContent ∧
      IsFirstBody "script".toList "a".toList bracket.rest.ahead ∧
      bracket.rest.tokens =
        ⟨.embeddedContent, ⟨8, 9⟩, "a".toList, none⟩ :: (bracket.rest.pastBody "a".toList).tokens := by
  intro scripts bracket
  have some_ahead : bracket.ahead ≠ [] := by decide +kernel
  have enters : bracket.rest.mode = .embeddedContent := by decide +kernel
  have opens : (start scripts shoutedScript 0).ahead ≠ [] := by decide +kernel
  have named : (start scripts shoutedScript 0).rest.ahead ≠ [] := by decide +kernel
  obtain ⟨tag, first, body, latest, isFirst, -, -, exposed, tokens⟩ :=
    Passes.embeddedBody scripts shoutedScript 0 .content false
      (.step opens (.step named (.here bracket))) some_ahead enters
  have script : latestTag ([(start scripts shoutedScript 0).token, (start scripts shoutedScript 0).rest.token] ++
      [bracket.token]) = some "script".toList := by decide +kernel
  obtain rfl : tag = "script".toList := Option.some.inj (latest.symm.trans script)
  have expected : IsFirstBody "script".toList "a".toList bracket.rest.ahead :=
    isFirstBody_take "script".toList bracket.rest.ahead
  obtain rfl : first = "a".toList := isFirst.unique expected
  have short : ¬ HidesEndTag "a".toList := by
    rintro ⟨before, after, split, -⟩
    have size := congrArg List.length split
    simp at size
    omega
  obtain rfl := exposed (.inr short)
  exact ⟨some_ahead, enters, isFirst, tokens⟩

end Tokenizer

end MarkupAnalysis
