import MarkupAnalysis.Proofs.Document.Endings
import MarkupAnalysis.Proofs.Document.Names
import MarkupAnalysis.Proofs.Document.Reindenting

/-! # The element of an opaque body

A body that is read as it stands belongs to the innermost open element, whose tag the tokenizer remembers.

* **`BodyOwner`** — what is known of the tag that is remembered.
* **`Document.bodyOwner_built`** — it is known at every step. -/

namespace MarkupAnalysis

/-- **Whose tag is remembered** when some tokens have been passed. -/
structure BodyOwner (v : Vocabulary) (passed : List Token) (s : Tokenizer) (b : Builder) : Prop where
  /-- In a start tag behind its name that is the tag of the element. -/
  reading : s.mode.inStartTag → ∃ id, b.startTag = some id ∧
    (s.mode ≠ .startTagOpened → s.memory.tag ≠ [] → (b.node id).tag = some s.memory.tag)
  /-- Before a body, and right behind it, that is the tag of the innermost open element, or of a void one. -/
  body : s.mode = .embeddedContent ∨
      (∃ token, passed.getLast? = some token ∧ token.kind = .embeddedContent) →
    ∃ id, (b.node id).tag = some s.memory.tag ∧ v.isEmbeddedContent s.memory.tag = true ∧
      (b.openElements.head? = some id ∨ (b.node id).isVoid v = true)

/-- A start tag opens or goes on. -/
theorem Mode.Reads.to_startTag {m m' : Mode} {kind : TokenKind} (reads : m.Reads kind m')
    (goes_on : m'.inStartTag) : kind = .startTagOpen ∧ m' = .startTagOpened ∨
      m.inStartTag = true ∧ (kind = .startTag ∨ kind.isInStartTag = true) := by
  cases reads with
  | startTagOpens => exact .inl ⟨rfl, rfl⟩
  | startTagName => exact .inr ⟨rfl, .inl rfl⟩
  | startTagBlank inside | startTagJunk inside => exact .inr ⟨inside, .inr rfl⟩
  | attributeOpens place => exact .inr ⟨by rcases place with rfl | rfl <;> rfl, .inr rfl⟩
  | assignment | value => exact .inr ⟨rfl, .inr rfl⟩
  | endTagBlank outside => exact absurd outside (by revert goes_on; cases m <;> decide)
  | _ => cases goes_on

/-- A body comes behind the end of a start tag. -/
theorem Mode.Reads.to_body {m : Mode} {kind : TokenKind} (reads : m.Reads kind .embeddedContent) :
    kind = .startTagClose ∧ m.inStartTag := by
  cases reads with
  | startTagEndsBeforeBody inside => exact ⟨rfl, inside⟩
  | startTagBlank inside | endTagBlank inside => cases inside

namespace Document

variable {v : Vocabulary} {t : Text} {s : Tokenizer} {passed : List Token}

/-- In a start tag. -/
theorem bodyOwner_startTag (h : (scanner v t).Passes passed s) (some_ahead : s.ahead ≠ [])
    (so_far : BodyOwner v passed s (built v t passed)) (inside : s.rest.mode.inStartTag) :
    ∃ id, (built v t (passed ++ [s.token])).startTag = some id ∧
      (s.rest.mode ≠ .startTagOpened → s.rest.memory.tag ≠ [] →
        ((built v t (passed ++ [s.token])).node id).tag = some s.rest.memory.tag) := by
  rcases (Tokenizer.reads some_ahead).to_startTag inside with ⟨kind, opened⟩ | ⟨inside, kind⟩
  · refine ⟨(built v t passed).nodes.size, ?_, fun other => absurd opened other⟩
    rw [built_concat, Builder.take, kind]
    exact Builder.startTag_openElement _ _
  · obtain ⟨id, reading, tag⟩ := so_far.reading inside
    rcases kind with kind | kind
    · refine ⟨id, startTag_built_of_startTag kind reading (List.forall_mem_nil _), fun _ _ => ?_⟩
      rw [Node.tag, name_built_of_startTag h kind reading, Tokenizer.tag_rest_of_startTag kind]
      rfl
    · refine ⟨id, ?_, fun other some_name => ?_⟩
      · rw [built_concat, Builder.startTag_take_of_isInStartTag v _ kind]
        exact reading
      · have not_name : s.token.kind ≠ .startTag := by
          intro name
          rw [name] at kind
          cases kind
        have named : s.mode ≠ .startTagOpened := fun opened =>
          some_name (Tokenizer.tag_rest_of_nameless some_ahead opened not_name)
        rw [Tokenizer.tag_rest some_ahead named] at some_name ⊢
        obtain ⟨frontier, -, nested⟩ := (stands_built h).exists_nested
        rw [← tag named some_name, built_concat, Node.tag, Node.tag]
        refine congrArg _ ((Builder.name_take nested v s.token id).resolve_right fun name => ?_)
        exact not_name name.1

/-- At the end of a start tag. -/
theorem bodyOwner_body (h : (scanner v t).Passes passed s) (some_ahead : s.ahead ≠ [])
    (so_far : BodyOwner v passed s (built v t passed)) (remembers : s.rest.Remembers (passed ++ [s.token]))
    (body : s.rest.mode = .embeddedContent) :
    ∃ id, ((built v t (passed ++ [s.token])).node id).tag = some s.rest.memory.tag ∧
      v.isEmbeddedContent s.rest.memory.tag = true ∧
      ((built v t (passed ++ [s.token])).openElements.head? = some id ∨
        ((built v t (passed ++ [s.token])).node id).isVoid v = true) := by
  have reads := Tokenizer.reads some_ahead
  rw [body] at reads
  obtain ⟨kind, inside⟩ := reads.to_body
  obtain ⟨id, reading, tag⟩ := so_far.reading inside
  obtain ⟨some_name, embedded, -⟩ := Tokenizer.opensEmbeddedBody_iff.mp (remembers.body body).2
  have vocabulary : s.rest.vocabulary = v := by
    rw [(h.concat some_ahead).vocabulary, scanner_eq]
  rw [vocabulary] at embedded
  -- A start tag without a name leads to no body.
  have named : s.mode ≠ .startTagOpened := fun opened => by
    refine some_name (Tokenizer.tag_rest_of_nameless some_ahead opened ?_)
    rw [kind]
    nofun
  rw [Tokenizer.tag_rest some_ahead named] at some_name embedded ⊢
  have tag := tag named some_name
  obtain ⟨frontier, -, nested⟩ := (stands_built h).exists_nested
  -- Nor does one that is interrupted: it leads back to the content.
  have some_text : s.token.span.isEmpty = false := by
    rw [Bool.eq_false_iff, Ne, s.token_isEmpty_iff]
    rintro (eof | interrupts)
    · rw [kind] at eof
      cases eof
    · have no_text := (Tokenizer.token_text_eq_nil_iff some_ahead).mpr interrupts
      obtain ⟨content, -⟩ := (Tokenizer.progress some_ahead).resolve_left fun some_text => some_text no_text
      rw [body] at content
      cases content
  obtain ⟨node, stack⟩ := Builder.closeStartTag_of_some_text reading (nested.reading id reading).1 some_text
  have has_name : ((built v t passed).node id).name ≠ none := fun nameless => by
    rw [Node.tag, nameless] at tag
    cases tag
  rw [built_concat, Builder.take, kind]
  dsimp only
  refine ⟨id, ?_, embedded, ?_⟩
  · rw [node]
    exact tag
  · rw [stack has_name, node]
    exact readsInnermost_built h id reading

/-- Texts start with content. -/
theorem mode_scanner (v : Vocabulary) (t : Text) : (scanner v t).mode = .content := by
  rw [scanner_eq]

/-- **Whose tag is remembered** is known at every step. -/
theorem bodyOwner_built (h : (scanner v t).Passes passed s) :
    BodyOwner v passed s (built v t passed) ∧ s.Remembers passed := by
  refine h.along (P := fun passed s => BodyOwner v passed s (built v t passed) ∧ s.Remembers passed)
    ⟨⟨?_, ?_⟩, remembers_start v true t⟩ ?_
  · exact fun inside => absurd (mode_scanner v t ▸ inside) nofun
  · rintro (body | ⟨token, last, -⟩)
    · exact absurd ((mode_scanner v t).symm.trans body) nofun
    · cases last
  · intro passed s passes some_ahead ⟨so_far, remembers⟩
    have remembers := remembers.rest some_ahead
    refine ⟨⟨bodyOwner_startTag passes some_ahead so_far, ?_⟩, remembers⟩
    rintro (body | ⟨token, last, kind⟩)
    · exact bodyOwner_body passes some_ahead so_far remembers body
    · obtain rfl : s.token = token := by simpa using last
      rw [built_append_body passed (by simpa using kind), (Tokenizer.rest_of_embeddedContent kind).2]
      exact so_far.body (.inl (Tokenizer.mode_of_embeddedContent kind))

end Document

end MarkupAnalysis
