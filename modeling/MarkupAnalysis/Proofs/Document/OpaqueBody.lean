import MarkupAnalysis.Proofs.Document.Names
import MarkupAnalysis.Proofs.Document.Order
import MarkupAnalysis.Proofs.Document.Steps
import MarkupAnalysis.Proofs.Token.OpaqueBody
import MarkupAnalysis.Proofs.Token.Spelling
import MarkupAnalysis.Vocabulary.Dictionary

/-! # Opaque elements

The body of an embedded element is one token at most, and the end tag behind it was looked for by the start
of its name. If that end tag closes the element, the element has no children. A longer name does not close
it: then the element stays open, and what follows goes inside.

* **`Document.Opaque`** — embedded elements without children, whose bodies end at their own end tags.
* **`Document.EmbeddedBodies`**, **`Document.EmbeddedBodies.opaque_of_own`** — what holds of all texts, and
  what follows from it where no name is longer.
* **`Builder.Bare`** — the state between a start tag and the end tag behind its body.
* **`Document.children_of_behind_body`** — the end tag there closes the element or has another name.
* **`Document.parse_embeddedBodies`** — the bodies in every text. -/

namespace MarkupAnalysis

open Text

/-! ## What is expected, and what holds -/

/-- The tokens of a text, with or without closing tokens for interrupted tags. -/
def Document.scanOf (v : Vocabulary) (pseudoClose : Bool) (t : Text) : List Token :=
  ((Tokenizer.start v t 0).withPseudoClose pseudoClose).tokens

/-- **Embedded elements are opaque**: they have no children, and their bodies end at end tags of their
names. -/
structure Document.Opaque (v : Vocabulary) (t : Text) : Prop where
  /-- An element whose tag is embedded, and no script, has no children. -/
  childless : ∀ id name, ((parse v t).node id).name = some name →
    v.isEmbeddedContent name.text = true → isScript name.text = false → (parse v t).children id = []
  /-- Behind a body the text ends, or an end tag of the same name follows. -/
  bodies : ∀ pseudoClose before token after, scanOf v pseudoClose t = before ++ token :: after →
    token.kind = .embeddedContent →
    ∃ tag, latestTag before = some tag ∧ FollowsBody tag.equalsIgnoringCase after

/-- **An end tag of another name** ends the body of an element: it is the first one behind the element's
name and starts with that name, but it is not paired with it. -/
def Document.EndsElsewhere (v : Vocabulary) (tokens : List Token) (name : TagName) : Prop :=
  ∃ (before between after : List Token) (opening stop : Token),
    tokens = before ++ opening :: between ++ stop :: after ∧
    opening.kind = .startTag ∧ name = ⟨opening.text, opening.span⟩ ∧
    (∀ token ∈ between, token.kind ∉ [.startTagOpen, .startTag, .endTag]) ∧
    stop.kind = .endTag ∧ startsWithIgnoringCase name.text stop.text = true ∧
    v.tagNamesMatch name.text stop.text = false

/-- **The bodies of embedded elements**, in every text. -/
structure Document.EmbeddedBodies (v : Vocabulary) (t : Text) : Prop where
  /-- An element whose tag is embedded, and no script, has no children, or an end tag of another name ends
  its body. -/
  children : ∀ id name, ((parse v t).node id).name = some name →
    v.isEmbeddedContent name.text = true → isScript name.text = false →
    (parse v t).children id = [] ∨ EndsElsewhere v (tokensOf v t) name
  /-- Every body is that of an embedded tag. Behind it the text ends, or an end tag follows whose name
  starts with that tag. -/
  bodies : ∀ pseudoClose before token after, scanOf v pseudoClose t = before ++ token :: after →
    token.kind = .embeddedContent →
    ∃ tag, latestTag before = some tag ∧ v.isEmbeddedContent tag = true ∧
      FollowsBody (startsWithIgnoringCase tag) after

/-- **Without longer names** embedded elements are opaque, as long as tags are paired in any case. -/
theorem Document.EmbeddedBodies.opaque_of_own {v : Vocabulary} {t : Text} (h : EmbeddedBodies v t)
    (pairs : ∀ tag name, equalsIgnoringCase tag name = true → v.tagNamesMatch tag name = true)
    (own : ∀ pseudoClose, ∀ stop ∈ scanOf v pseudoClose t, stop.kind = .endTag →
      ∀ tag, v.isEmbeddedContent tag = true → startsWithIgnoringCase tag stop.text = true →
        equalsIgnoringCase tag stop.text = true) : Opaque v t := by
  refine ⟨?childless, ?bodies⟩
  case childless =>
    intro id name named embedded plain
    refine (h.children id name named embedded plain).resolve_right ?_
    rintro ⟨before, between, after, opening, stop, all, -, -, -, kind, starts, other⟩
    have mem : stop ∈ scanOf v true t := by
      show stop ∈ tokensOf v t
      simp [all]
    have same := pairs _ _ (own true stop mem kind name.text embedded starts)
    exact Bool.false_ne_true (other.symm.trans same)
  case bodies =>
    intro pseudoClose before token after all body
    obtain ⟨tag, latest, embedded, follows⟩ := h.bodies pseudoClose before token after all body
    refine ⟨tag, latest, follows.imp (fun ended => ended) ?_⟩
    rintro ⟨opening, stop, more, rfl, opens, kind, starts⟩
    exact ⟨opening, stop, more, rfl, opens, kind,
      own pseudoClose stop (by simp [all]) kind tag embedded starts⟩

/-! ## The element before its end tag -/

/-- No tag opens inside a start tag, and none is named. -/
theorem TokenKind.not_mem_of_isInStartTag {kind : TokenKind} (inside : kind.isInStartTag = true) :
    kind ∉ [.startTagOpen, .startTag, .endTag] := by
  cases kind with
  | whitespace | unknown | attributeName | delimiterAssign | attributeValue => decide
  | _ => cases inside

namespace Builder

variable {v : Vocabulary} {b b' : Builder} {length frontier : Nat} {token : Token} {id : NodeId}

/-- **An element without children so far**, behind its start tag: if it is open, it is the innermost
one. -/
structure Bare (id : NodeId) (b : Builder) : Prop where
  /-- It is an element of the array. -/
  known : id < b.nodes.size
  /-- It is not the root. -/
  off_root : id ≠ Document.root
  /-- No start tag is being read. -/
  none_read : b.startTag = none
  /-- It has no children. -/
  childless : b.children id = []
  /-- No other element is open inside it. -/
  innermost : id ∈ b.openElements → b.openElements.head? = some id

/-- If it is not open any more, it has been left. -/
theorem Bare.past (h : b.Bare id) (left : id ∉ b.openElements) : b.Past id := by
  refine ⟨h.known, h.off_root, ?_⟩
  rintro (mem | reading)
  · exact left mem
  · exact absurd (h.none_read.symm.trans reading) nofun

/-- An element whose start tag is being read has no children. -/
theorem Nested.children_of_reading (nested : b.Nested length frontier) (reading : b.startTag = some id) :
    b.children id = [] := by
  obtain ⟨-, -, -, -, -, -, none_inside⟩ := nested.reading id reading
  exact congrArg Array.toList none_inside

/-- Where its start tag ends, it is bare. -/
theorem bare_of_stack (nested : b.Nested length frontier) (reading : b.startTag = some id)
    (settles : b.Settles b') (none_read : b'.startTag = none)
    (stack : b'.openElements = b.openElements ∨ b'.openElements = (b.leave id).openElements) :
    b'.Bare id := by
  obtain ⟨known, off_root, -⟩ := nested.reading id reading
  have size : b'.nodes.size = b.nodes.size := by simpa [links] using congrArg Array.size settles.links
  refine ⟨size ▸ known, off_root, none_read, ?_, nested.innermost reading stack⟩
  rw [children_congr settles.links]
  exact nested.children_of_reading reading

/-- The bracket of the start tag. An interrupted element is left at once. -/
theorem bare_closeStartTag (nested : b.Nested length frontier) (reading : b.startTag = some id)
    (token : Token) : (b.closeStartTag token).Bare id ∧
      (token.span.isEmpty = true → id ∉ (b.closeStartTag token).openElements) := by
  have settles := b.settles_closeStartTag token
  simp only [closeStartTag, reading] at settles ⊢
  split_ifs at settles ⊢ with interrupted nameless
  · exact ⟨bare_of_stack nested reading settles (startTag_leave _) (.inr (openElements_leave_congr rfl)),
      fun _ => nested.not_mem_of_left reading (openElements_leave_congr rfl)⟩
  · exact ⟨bare_of_stack nested reading settles (startTag_leave _) (.inr (openElements_leave_congr rfl)),
      fun empty => absurd empty interrupted⟩
  · exact ⟨bare_of_stack nested reading settles rfl (.inl rfl), fun empty => absurd empty interrupted⟩

/-- An element that is its start tag is left at once. -/
theorem bare_selfCloseElement (nested : b.Nested length frontier) (reading : b.startTag = some id)
    (stop : Nat) : (b.selfCloseElement stop).Bare id ∧ id ∉ (b.selfCloseElement stop).openElements := by
  have settles := b.settles_selfCloseElement stop
  simp only [selfCloseElement, reading] at settles ⊢
  exact ⟨bare_of_stack nested reading settles (startTag_leave _) (.inr (openElements_leave_congr rfl)),
    nested.not_mem_of_left reading (openElements_leave_congr rfl)⟩

/-- Inside a start tag its element stays the one that is read. -/
theorem startTag_take_of_isInStartTag (v : Vocabulary) (length : Nat)
    (inside : token.kind.isInStartTag = true) : (b.take v length token).startTag = b.startTag := by
  unfold take
  cases kind : token.kind with
  | attributeName =>
    dsimp only [addAttribute]
    split <;> rfl
  | attributeValue =>
    dsimp only [addValue]
    split <;> rfl
  | whitespace | unknown | delimiterAssign => rfl
  | _ => simp [kind, TokenKind.isInStartTag] at inside

theorem startTag_foldl (v : Vocabulary) (length : Nat) {tokens : List Token}
    (inside : ∀ token ∈ tokens, token.kind.isInStartTag = true) :
    (tokens.foldl (take v length) b).startTag = b.startTag := by
  induction tokens generalizing b with
  | nil => rfl
  | cons token tokens ih =>
    obtain ⟨first, others⟩ := List.forall_mem_cons.mp inside
    exact (ih others).trans (startTag_take_of_isInStartTag v length first)

/-- The name of a start tag leaves its element the one that is read. -/
theorem startTag_nameElement (v : Vocabulary) (token : Token) :
    (b.nameElement v token).startTag = b.startTag := by
  unfold nameElement
  split
  · rfl
  · dsimp only
    split
    · exact startTag_leave _
    · rfl

end Builder

/-! ## From the start tag to the end tag -/

namespace Document

variable {v : Vocabulary} {t : Text} {s s' : Tokenizer} {passed : List Token} {id : NodeId}
  {name : TagName}

/-- No token but the `<` of a start tag changes children. -/
theorem children_built_concat (passed : List Token) {token : Token}
    (other : token.kind ≠ .startTagOpen) :
    (built v t (passed ++ [token])).children = (built v t passed).children := by
  rw [built_concat]
  exact Builder.children_congr (Builder.settles_take v t.byteLength other).links

/-- An element that has been left gets no children any more. -/
theorem children_parse_of_past (h : (scanner v t).Passes passed s)
    (past : (built v t passed).Past id) :
    (parse v t).children id = (built v t passed).children id := by
  have rests := rests_built ⟨s.tokens, h.tokens_eq.symm⟩ past
  obtain ⟨stop, node⟩ := rests.node
  rw [children, node_parse rests.past, node]
  rfl

/-- The end of the text changes no children. -/
theorem children_parse_of_ended (h : (scanner v t).Passes passed s) (ended : s.ahead = [])
    (id : NodeId) : (parse v t).children id = (built v t passed).children id := by
  rw [children, node_parse_of_ended h ended]
  split <;> rfl

/-- A bare element that has been left has no children. -/
theorem children_of_bare (h : (scanner v t).Passes passed s) (bare : (built v t passed).Bare id)
    (left : id ∉ (built v t passed).openElements) : (parse v t).children id = [] :=
  (children_parse_of_past h (bare.past left)).trans bare.childless

/-- **The end tag behind the body** of an element closes it, or has another name. -/
theorem children_of_behind_body (h : (scanner v t).Passes passed s)
    (bare : (built v t passed).Bare id) (named : ((built v t passed).node id).name = some name)
    (behind : s.ahead = [] ∨ s.AtEndTagOf name.text) :
    (parse v t).children id = [] ∨
      s.AtEndTagOf name.text ∧ v.tagNamesMatch name.text s.rest.token.text = false := by
  rcases behind with ended | stop
  · exact .inl ((children_parse_of_ended h ended id).trans bare.childless)
  by_cases own : v.tagNamesMatch name.text s.rest.token.text = true
  case neg => exact .inr ⟨stop, Bool.eq_false_iff.mpr own⟩
  refine .inl ?_
  by_cases still_open : id ∈ (built v t passed).openElements
  case neg => exact children_of_bare h bare still_open
  -- The `</` changes no element, and the name closes this one.
  have opened := h.concat (Tokenizer.ahead_ne_nil stop.opening (by decide))
  have closed := opened.concat (Tokenizer.ahead_ne_nil stop.name (by decide))
  have next : passed ++ [s.token] ++ [s.rest.token] <+: tokensOf v t := ⟨_, closed.tokens_eq.symm⟩
  obtain ⟨start, opening, -⟩ := exists_atEndTag next stop.name
  have end_tag : EndTagIn (tokensOf v t) (passed ++ [s.token]) start s.rest.token :=
    ⟨next, stop.name, opening⟩
  have stack : (built v t (passed ++ [s.token])).openElements = (built v t passed).openElements := by
    rw [built_concat, Builder.take, stop.opening]
    rfl
  have answers : (built v t (passed ++ [s.token])).Answers v s.rest.token id :=
    ⟨name.text, by rw [Node.tag, name_built_concat h named]; rfl, own⟩
  obtain ⟨outer, split⟩ := List.head?_eq_some_iff.mp (stack ▸ bare.innermost still_open)
  have closes : (built v t (passed ++ [s.token])).Closes v s.rest.token [] id outer :=
    ⟨split, by simp, answers⟩
  rw [children_parse_of_past closed (end_tag.past_of_closes closes (.inr rfl)),
    children_built_concat _ (by simp [stop.name]), children_built_concat _ (by simp [stop.opening])]
  exact bare.childless

/-- Behind its name the element is the one whose start tag is being read. -/
theorem startTag_built_of_startTag {inside : List Token} (kind : s.token.kind = .startTag)
    (reading : (built v t passed).startTag = some id)
    (all : ∀ token ∈ inside, token.kind.isInStartTag = true) :
    (built v t (passed ++ s.token :: inside)).startTag = some id := by
  rw [built, List.foldl_append, List.foldl_cons, Builder.startTag_foldl v _ all]
  show ((built v t passed).take v t.byteLength s.token).startTag = some id
  rw [Builder.take, kind]
  exact (Builder.startTag_nameElement v s.token).trans reading

/-- **Where its start tag ends an element is bare.** If that is its end as well, the element is left. -/
theorem bare_of_startTagEnd (h : (scanner v t).Passes passed s)
    (reading : (built v t passed).startTag = some id)
    (stops : s.token.kind = .startTagSelfClose ∨ s.token.kind = .startTagClose) :
    (built v t (passed ++ [s.token])).Bare id ∧
      (s.token.kind = .startTagSelfClose ∨ s.token.span.isEmpty = true →
        id ∉ (built v t (passed ++ [s.token])).openElements) := by
  obtain ⟨frontier, -, nested⟩ := (stands_built h).exists_nested
  rw [built_concat, Builder.take]
  rcases stops with whole | bracket
  · rw [whole]
    exact (Builder.bare_selfCloseElement nested reading s.token.span.stop).imp_right fun left _ => left
  · rw [bracket]
    refine (Builder.bare_closeStartTag nested reading s.token).imp_right fun left last => ?_
    exact left (last.resolve_left (by decide))

/-- An embedded element has no children, or its bracket leads to its body. -/
theorem children_or_body (h : (scanner v t).Passes passed s) (kind : s.token.kind = .startTag)
    (reading : (built v t passed).startTag = some id)
    (embedded : v.isEmbeddedContent s.token.text = true) (plain : isScript s.token.text = false) :
    (parse v t).children id = [] ∨ ∃ inside s', s.rest.Passes inside s' ∧
      (∀ token ∈ inside, token.kind.isInStartTag = true) ∧ s'.token.kind = .startTagClose ∧
      s'.rest.mode = .embeddedContent ∧ s'.rest.memory.embeddedTag = some s.token.text ∧
      (built v t (passed ++ s.token :: inside ++ [s'.token])).Bare id := by
  have mode := Tokenizer.mode_rest_of_startTag kind
  obtain ⟨inside, s', within, all_inside, tag, named, stops⟩ :=
    s.rest.exists_passes_startTag (by rw [mode]; rfl) (by rw [mode]; nofun)
  have here : (scanner v t).Passes (passed ++ s.token :: inside) s' :=
    h.trans (.step (Tokenizer.ahead_ne_nil kind (by decide)) within)
  have reading' := startTag_built_of_startTag kind reading all_inside
  rcases stops with ended | stops
  · obtain ⟨frontier, -, nested⟩ := (stands_built here).exists_nested
    exact .inl ((children_parse_of_ended here ended id).trans (nested.children_of_reading reading'))
  obtain ⟨bare, left⟩ := bare_of_startTagEnd here reading' stops
  have some_ahead : s'.ahead ≠ [] := by
    rcases stops with kind | kind <;> exact Tokenizer.ahead_ne_nil kind (by decide)
  by_cases last : s'.token.kind = .startTagSelfClose ∨ s'.token.span.isEmpty = true
  · exact .inl (children_of_bare (here.concat some_ahead) bare (left last))
  -- The element goes on, so what comes next is its body.
  obtain ⟨not_whole, some_text⟩ := not_or.mp last
  have bracket := stops.resolve_left not_whole
  have text := Tokenizer.text_of_startTagClose bracket (Bool.eq_false_iff.mpr some_text)
  have name : s'.memory.tag = s.token.text := tag.trans (Tokenizer.tag_rest_of_startTag kind)
  have vocabulary : s'.vocabulary = v := here.vocabulary.trans (by rw [scanner_eq])
  obtain ⟨body, embedded_tag⟩ := Tokenizer.body_of_startTagClose bracket (by simp [text]) named
    (name ▸ (Tokenizer.name_of_startTag kind).1) (by rwa [vocabulary, name]) (by rwa [name])
  exact .inr ⟨inside, s', within, all_inside, bracket, body, embedded_tag.trans (by rw [name]), bare⟩

/-- A body changes nothing. -/
theorem built_append_body (passed : List Token) {body : List Token}
    (all : ∀ token ∈ body, token.kind = .embeddedContent) :
    built v t (passed ++ body) = built v t passed := by
  induction body generalizing passed with
  | nil => rw [List.append_nil]
  | cons token body ih =>
    obtain ⟨first, others⟩ := List.forall_mem_cons.mp all
    rw [List.append_cons, ih (passed ++ [token]) others, built_concat, Builder.take, first]

/-- **An embedded element** has no children, or an end tag of another name ends its body. -/
theorem children_or_endsElsewhere (named : ((parse v t).node id).name = some name)
    (embedded : v.isEmbeddedContent name.text = true) (plain : isScript name.text = false) :
    (parse v t).children id = [] ∨ EndsElsewhere v (tokensOf v t) name := by
  obtain ⟨before, token, ⟨after, all⟩, kind, rfl, reading⟩ := exists_startTag_of_parse named
  rw [List.append_assoc] at all
  obtain ⟨s, passes, rfl, -⟩ := Tokenizer.passes_of_tokens_eq (s := scanner v t) all.symm
  rcases children_or_body passes kind reading embedded plain with
    childless | ⟨inside, s', within, all_inside, bracket, mode, embedded_tag, bare⟩
  · exact .inl childless
  -- From the name through the start tag and the body to what comes behind it.
  obtain ⟨body, s'', through, bodies, behind⟩ := Tokenizer.exists_passes_body
    (Tokenizer.name_of_startTag kind).1 mode embedded_tag
  have from_name := (within.concat (Tokenizer.ahead_ne_nil bracket (by decide))).trans through
  have named := passes.concat (Tokenizer.ahead_ne_nil kind (by decide))
  have here : (scanner v t).Passes (before ++ s.token :: inside ++ [s'.token] ++ body) s'' := by
    simpa using named.trans from_name
  have named' : ((built v t (before ++ s.token :: inside ++ [s'.token] ++ body)).node id).name =
      some ⟨s.token.text, s.token.span⟩ := by
    simpa using name_built named from_name (name_built_of_startTag passes kind reading)
  have bare' : (built v t (before ++ s.token :: inside ++ [s'.token] ++ body)).Bare id := by
    rwa [built_append_body _ bodies]
  rcases children_of_behind_body here bare' named' behind with childless | ⟨stop, other⟩
  · exact .inl childless
  have closed := (here.concat (Tokenizer.ahead_ne_nil stop.opening (by decide))).concat
    (Tokenizer.ahead_ne_nil stop.name (by decide))
  -- The end tag behind the body has another name.
  refine .inr ⟨before, inside ++ s'.token :: body ++ [s''.token], s''.rest.rest.tokens, s.token,
    s''.rest.token, ?_, kind, rfl, ?_, stop.name, stop.starts, other⟩
  · show (scanner v t).tokens = _
    rw [closed.tokens_eq]
    simp
  · intro token mem
    simp only [List.mem_append, List.mem_cons, List.not_mem_nil, or_false] at mem
    rcases mem with (mem | rfl | mem) | rfl
    · exact TokenKind.not_mem_of_isInStartTag (all_inside token mem)
    · simp [bracket]
    · simp [bodies token mem]
    · simp [stop.opening]

/-- Nothing is remembered before the first token. -/
theorem remembers_start (v : Vocabulary) (pseudoClose : Bool) (t : Text) :
    ((Tokenizer.start v t 0).withPseudoClose pseudoClose).Remembers [] := by
  cases t <;> exact ⟨.inl rfl, nofun⟩

/-- **Every body** is that of an embedded tag, and it stops at an end tag that starts with its name. -/
theorem bodies_scanOf {pseudoClose : Bool} {before after : List Token} {token : Token}
    (all : scanOf v pseudoClose t = before ++ token :: after) (body : token.kind = .embeddedContent) :
    ∃ tag, latestTag before = some tag ∧ v.isEmbeddedContent tag = true ∧
      FollowsBody (startsWithIgnoringCase tag) after := by
  obtain ⟨s, passes, rfl, tokens⟩ := Tokenizer.passes_of_tokens_eq all
  have remembers : s.Remembers before :=
    passes.along (P := fun passed s => s.Remembers passed) (remembers_start v pseudoClose t)
      fun _ _ _ some_ahead so_far => so_far.rest some_ahead
  have vocabulary : s.vocabulary = v := passes.vocabulary.trans (by cases t <;> rfl)
  rw [Tokenizer.tokens_of_ahead_ne_nil (Tokenizer.ahead_ne_nil body (by decide))] at tokens
  obtain ⟨tag, latest, embedded, follows⟩ := remembers.followsBody body
  exact ⟨tag, latest, vocabulary ▸ embedded, (List.cons.inj tokens).2 ▸ follows⟩

/-- **The bodies of the embedded elements of every text.** -/
theorem parse_embeddedBodies (v : Vocabulary) (t : Text) : EmbeddedBodies v t :=
  ⟨fun _ _ => children_or_endsElsewhere, fun _ _ _ _ => bodies_scanOf⟩

/-- A longer name does not close the element: what follows goes inside. -/
theorem not_opaque_stylex :
    ¬ Opaque (Dictionary.empty.markEmbedded ["style".toList]).toVocabulary
      "<style>a</stylex><b>".toList := by
  let v := (Dictionary.empty.markEmbedded ["style".toList]).toVocabulary
  let t := "<style>a</stylex><b>".toList
  have inside : ((parse v t).node 1).name = some ⟨"style".toList, ⟨1, 6⟩⟩ ∧
      (parse v t).children 1 = [2] := by
    decide +kernel
  intro h
  exact absurd (inside.2.symm.trans (h.childless 1 _ inside.1 (by decide +kernel) (by decide))) nofun

end Document

end MarkupAnalysis
