import MarkupAnalysis.Proofs.Document.Comments
import MarkupAnalysis.Proofs.Document.Editing
import MarkupAnalysis.Proofs.Document.Names

/-! # Renaming an element

The edits that rename an element change its name and nothing else: the tree of the edited text has the same
elements in the same places, and every end tag closes the element that it closed before. To this end the
new name must be new to the text, so that the element neither takes over an end tag nor loses its own.

* **`Document.renamed`** — the tree with another name for one element and all offsets moved.
* **`Document.Renames`** — an element, a new name and the edits that rename it.
* **`Document.Renames.spells_startTag`**, **`Document.Renames.spells_endTag`** — what the new name means for
  the name of each tag.
* **`Document.Renames.parse_eq`** — the tree of the edited text.
* **`Document.Renameable`** — when the element at an offset can be renamed.
* **`Document.rename_keeps_structure`** — what the edits of `Document.rename` do. -/

namespace MarkupAnalysis

open Document

attribute [ext] Document

/-- The name after the renaming of one element. -/
def Document.respelling (owner : NodeId) (newName : Text) (id : NodeId) (tag : Text) : Text :=
  if id = owner then newName else tag

/-- Other elements keep their names. -/
theorem Document.map_respelling_of_ne {owner id : NodeId} {newName : Text} (other : id ≠ owner)
    (tag : Option Text) : tag.map (respelling owner newName id) = tag := by
  cases tag with
  | none => rfl
  | some tag => rw [Option.map_some, respelling, if_neg other]

/-- **The tree after the renaming of one element**: its name is another one, and all offsets are those
after the edits. -/
def Document.renamed (d : Document) (owner : NodeId) (newName : Text) (edits : List TextEdit) :
    Document where
  nodes := d.nodes.mapIdx fun id n =>
    n.moved (TextEdit.shiftAll edits) (respelling owner newName id)
  comments := d.comments.map (·.moved (TextEdit.shiftAll edits))
  textLength := TextEdit.shiftAll edits d.textLength

namespace Document

/-- **An element, a new name and the edits that rename it.** -/
structure Renames (v : Vocabulary) (t : Text) (owner : NodeId) (newName : Text)
    (edits : List TextEdit) : Prop where
  /-- Names match up to the case of ASCII letters. -/
  matching : v.tagNamesMatch = Text.equalsIgnoringCase
  /-- The edits replace the names in the element's tags. -/
  edits_eq : edits = ((parse v t).node owner).nameSpans.map (⟨·, newName⟩)
  /-- The element has a name. -/
  named : ((parse v t).node owner).name ≠ none
  /-- No start tag of the text has an opaque body. -/
  markup : NamesMarkup v t
  /-- The new name can be read as a name. -/
  isTagName : IsTagName newName
  /-- Its body is not opaque. -/
  newName_markup : v.isEmbeddedContent newName = false
  /-- Neither the old name nor the new one is void. -/
  not_void : ((parse v t).node owner).isVoid v = false ∧ v.isVoid newName = false
  /-- The new name is new to the text. -/
  fresh : ∀ token ∈ tokensOf v t, token.kind = .startTag ∨ token.kind = .endTag →
    newName.equalsIgnoringCase token.text = false

/-- The start tag that has given an element its name. -/
structure StartTagOf (v : Vocabulary) (t : Text) (owner : NodeId) (before : List Token)
    (token : Token) : Prop where
  next : before ++ [token] <+: tokensOf v t
  kind : token.kind = .startTag
  name : ((parse v t).node owner).name = some ⟨token.text, token.span⟩
  reading : (built v t before).startTag = some owner

/-- The end tag that has closed an element. -/
structure EndTagOf (v : Vocabulary) (t : Text) (owner : NodeId) (before : List Token) (token : Token) :
    Prop where
  next : before ++ [token] <+: tokensOf v t
  kind : token.kind = .endTag
  endNameSpan : ((parse v t).node owner).endNameSpan = some token.span
  answers : (built v t before).Answers v token owner

variable {v : Vocabulary} {t : Text} {owner : NodeId} {newName : Text} {edits : List TextEdit}
  {before before' : List Token} {token token' : Token}

/-- The start tag comes before the end tag. -/
theorem StartTagOf.before_endTag (h : StartTagOf v t owner before token)
    (h' : EndTagOf v t owner before' token') : token.span.stop ≤ token'.span.start := by
  obtain ⟨after, all⟩ := h'.next
  rw [List.append_assoc] at all
  obtain ⟨s, passes, -, -⟩ := Tokenizer.passes_of_tokens_eq all.symm
  obtain ⟨tag, has_tag, -⟩ := h'.answers
  obtain ⟨name, named, -⟩ := Option.map_eq_some_iff.mp has_tag
  -- At the end tag the element has its name, so the start tag is among the tokens before.
  obtain ⟨earlier, first, next, kind, rfl, -⟩ := exists_startTag passes named
  have whole : earlier ++ [first] <+: tokensOf v t :=
    next.trans ((List.prefix_append _ _).trans h'.next)
  have same : token.span = first.span := by
    have := (name_parse passes named).symm.trans h.name
    exact (congrArg TagName.span (Option.some.inj this)).symm
  have order := (tokensOf_pairwise v t).sublist h'.next.sublist
  rw [same]
  exact (List.pairwise_append.mp order).2.2 first (next.subset (by simp)) token' (by simp)

namespace Renames

/-- The start tag of the element. -/
theorem exists_startTag (h : Renames v t owner newName edits) :
    ∃ before token, StartTagOf v t owner before token := by
  obtain ⟨name, named⟩ := Option.ne_none_iff_exists'.mp h.named
  obtain ⟨before, token, next, kind, rfl, reading⟩ := exists_startTag_of_parse named
  exact ⟨before, token, next, kind, named, reading⟩

/-- What the edits replace: the name of the start tag, and that of the end tag if there is one. -/
theorem exists_names (h : Renames v t owner newName edits) :
    ∃ before token, StartTagOf v t owner before token ∧
      ((edits = [⟨token.span, newName⟩] ∧ ((parse v t).node owner).endTag = none) ∨
        ∃ before' token', EndTagOf v t owner before' token' ∧
          edits = [⟨token.span, newName⟩, ⟨token'.span, newName⟩]) := by
  obtain ⟨before, token, start⟩ := h.exists_startTag
  refine ⟨before, token, start, ?_⟩
  have edits_eq := h.edits_eq
  rw [Node.nameSpans, Node.nameSpan, start.name] at edits_eq
  cases closed : ((parse v t).node owner).endTag with
  | none =>
    rw [Node.endNameSpan, closed] at edits_eq
    exact .inl ⟨edits_eq, rfl⟩
  | some e =>
    obtain ⟨before', start', token', inner, outer, met, rfl, closes⟩ := exists_endTagIn closed
    have endNameSpan : ((parse v t).node owner).endNameSpan = some token'.span := by
      rw [Node.endNameSpan, closed]
      rfl
    rw [endNameSpan] at edits_eq
    exact .inr ⟨before', token', ⟨met.next, met.name, endNameSpan, closes.answers⟩, edits_eq⟩

/-- Every edit writes the new name. -/
theorem newText_eq (h : Renames v t owner newName edits) : ∀ e ∈ edits, e.newText = newName := by
  intro e mem
  rw [h.edits_eq] at mem
  obtain ⟨span, -, rfl⟩ := List.mem_map.mp mem
  rfl

/-- Every edit replaces the name in one of the element's tags. -/
theorem exists_token (h : Renames v t owner newName edits) : ∀ e ∈ edits, ∃ before token,
    (StartTagOf v t owner before token ∨ EndTagOf v t owner before token) ∧ token.span = e.span := by
  intro e mem
  obtain ⟨before, token, start, ⟨rfl, -⟩ | ⟨before', token', stop, rfl⟩⟩ := h.exists_names
  · rw [List.mem_singleton.mp mem]
    exact ⟨before, token, .inl start, rfl⟩
  · rcases List.mem_pair.mp mem with rfl | rfl
    · exact ⟨before, token, .inl start, rfl⟩
    · exact ⟨before', token', .inr stop, rfl⟩

/-- The edits come one after the other. -/
theorem apart (h : Renames v t owner newName edits) : TextEdit.Apart edits := by
  have nonempty : ∀ e ∈ edits, e.span.start < e.span.stop := by
    intro e mem
    obtain ⟨before, token, start | stop, same⟩ := h.exists_token e mem
    · rw [← same]
      exact (span_of_mem_tokensOf (start.next.subset (by simp))).2 (.inl start.kind)
    · rw [← same]
      exact (span_of_mem_tokensOf (stop.next.subset (by simp))).2 (.inr stop.kind)
  refine ⟨?_, nonempty⟩
  obtain ⟨before, token, start, ⟨rfl, -⟩ | ⟨before', token', stop, rfl⟩⟩ := h.exists_names
  · exact List.pairwise_singleton _ _
  · exact List.pairwise_pair.mpr (start.before_endTag stop)

/-- Every edit replaces a name by the new one. -/
theorem respells (h : Renames v t owner newName edits) : ∀ e ∈ edits, e.Respells v t := by
  intro e mem
  have newText := h.newText_eq e mem
  refine ⟨?_, newText ▸ h.isTagName, newText ▸ h.newName_markup⟩
  obtain ⟨before, token, start | stop, same⟩ := h.exists_token e mem
  · exact ⟨token, start.next.subset (by simp), .inl start.kind, same⟩
  · exact ⟨token, stop.next.subset (by simp), .inr stop.kind, same⟩

/-- Every token is replaced by an edit or lies on one side of it. -/
theorem meets (h : Renames v t owner newName edits) (mem : token ∈ tokensOf v t) :
    TextEdit.Meets edits token := by
  intro e here
  obtain ⟨token', mem', -, same⟩ := (h.respells e here).token
  rw [← same]
  exact span_eq_or_apart mem mem'

/-- **The tokens that the edits replace** are the names in the element's tags. -/
theorem edited_iff (h : Renames v t owner newName edits) (next : before ++ [token] <+: tokensOf v t) :
    (∃ e ∈ edits, token.span = e.span) ↔
      StartTagOf v t owner before token ∨ EndTagOf v t owner before token := by
  constructor
  · rintro ⟨e, mem, here⟩
    obtain ⟨before', token', met, same⟩ := h.exists_token e mem
    have same : token'.span = token.span := same.trans here.symm
    rcases met with start | stop
    · obtain ⟨rfl, rfl⟩ := eq_of_span_eq start.next next same
        ((span_of_mem_tokensOf (start.next.subset (by simp))).2 (.inl start.kind))
      exact .inl start
    · obtain ⟨rfl, rfl⟩ := eq_of_span_eq stop.next next same
        ((span_of_mem_tokensOf (stop.next.subset (by simp))).2 (.inr stop.kind))
      exact .inr stop
  · intro met
    refine ⟨⟨token.span, newName⟩, ?_, rfl⟩
    rw [h.edits_eq]
    refine List.mem_map_of_mem ?_
    rw [Node.nameSpans]
    rcases met with start | stop
    · rw [Node.nameSpan, start.name]
      exact List.mem_append_left _ List.mem_cons_self
    · rw [stop.endNameSpan]
      exact List.mem_append_right _ List.mem_cons_self

/-- The names in the element's tags become the new name. -/
theorem text_of_edited (h : Renames v t owner newName edits) (next : before ++ [token] <+: tokensOf v t)
    (met : StartTagOf v t owner before token ∨ EndTagOf v t owner before token) :
    (TextEdit.respellAll edits token).text = newName := by
  have known : token ∈ tokensOf v t := next.subset (by simp)
  obtain ⟨e, mem, here⟩ := (h.edited_iff next).mpr met
  rw [TextEdit.text_respellAll_of_mem h.apart (h.meets known) (span_of_mem_tokensOf known).1 mem here]
  exact h.newText_eq e mem

/-- All other tokens keep their text. -/
theorem text_of_not_edited (h : Renames v t owner newName edits)
    (next : before ++ [token] <+: tokensOf v t) (not_start : ¬ StartTagOf v t owner before token)
    (not_end : ¬ EndTagOf v t owner before token) :
    (TextEdit.respellAll edits token).text = token.text := by
  have known : token ∈ tokensOf v t := next.subset (by simp)
  refine TextEdit.text_respellAll_of_forall_ne h.apart (h.meets known) (span_of_mem_tokensOf known).1 ?_
  intro e mem here
  rcases (h.edited_iff next).mp ⟨e, mem, here⟩ with start | stop
  · exact not_start start
  · exact not_end stop

/-! ## What the new name means for each token -/

section token

variable {s : Tokenizer} {passed : List Token} {b' : Builder}

/-- A token that is passed over next. -/
theorem next_of_passes (passes : (scanner v t).Passes passed s) (some_ahead : s.ahead ≠ []) :
    passed ++ [s.token] <+: tokensOf v t := by
  refine ⟨s.rest.tokens, ?_⟩
  rw [List.append_assoc, List.singleton_append, ← Tokenizer.tokens_of_ahead_ne_nil some_ahead]
  exact passes.tokens_eq.symm

/-- **The name of a start tag** is the new one for the element itself, and the old one for all others. -/
theorem spells_startTag (h : Renames v t owner newName edits) (passes : (scanner v t).Passes passed s)
    (kind : s.token.kind = .startTag) :
    (∀ id, (built v t passed).startTag = some id →
        (TextEdit.respellAll edits s.token).text = respelling owner newName id s.token.text) ∧
      v.isVoid (TextEdit.respellAll edits s.token).text = v.isVoid s.token.text := by
  have next := next_of_passes passes (Tokenizer.ahead_ne_nil kind (by decide))
  have not_end : ¬ EndTagOf v t owner passed s.token := by
    intro stop
    have := kind.symm.trans stop.kind
    simp at this
  refine ⟨fun id reading => ?_, ?_⟩
  · by_cases own : id = owner
    · subst own
      rw [respelling, if_pos rfl]
      exact h.text_of_edited next (.inl ⟨next, kind, name_of_startTag passes kind reading, reading⟩)
    · rw [respelling, if_neg own]
      refine h.text_of_not_edited next (fun start => own ?_) not_end
      exact Option.some.inj (reading.symm.trans start.reading)
  · by_cases start : StartTagOf v t owner passed s.token
    · -- Neither name is void.
      have old_name := h.not_void.1
      rw [Node.isVoid, Node.tag, start.name] at old_name
      rw [h.text_of_edited next (.inl start), h.not_void.2]
      exact old_name.symm
    · rw [h.text_of_not_edited next start not_end]

/-! ### End tags -/

/-- Another element does not answer to the new name: all names of start tags are different from it. -/
theorem not_answers_newName (h : Renames v t owner newName edits)
    (passes : (scanner v t).Passes passed s) {σ : Nat → Nat}
    (moves : (built v t passed).Moves σ (respelling owner newName) b') {i : NodeId}
    (known : i < (built v t passed).nodes.size) (other : i ≠ owner) (text : token'.text = newName) :
    ¬ b'.Answers v token' i := by
  rintro ⟨tag, has_tag, answers⟩
  rw [moves.tag_eq known, Option.map_eq_some_iff] at has_tag
  obtain ⟨old, has_old, rfl⟩ := has_tag
  obtain ⟨name, named, rfl⟩ := Option.map_eq_some_iff.mp has_old
  obtain ⟨before, token, next, kind, rfl, -⟩ := Document.exists_startTag passes named
  have mem : token ∈ tokensOf v t := by
    have whole : tokensOf v t = passed ++ s.tokens := passes.tokens_eq
    rw [whole]
    exact List.mem_append_left _ (next.subset (by simp))
  rw [respelling, if_neg other, h.matching, text, Text.equalsIgnoringCase_comm,
    h.fresh token mem (.inl kind)] at answers
  cases answers

/-- The renamed element answers to the new name. -/
theorem answers_newName (h : Renames v t owner newName edits) {b : Builder} {σ : Nat → Nat}
    (moves : b.Moves σ (respelling owner newName) b') (answered : b.Answers v token owner)
    (text : token'.text = newName) : b'.Answers v token' owner := by
  obtain ⟨tag, has_tag, -⟩ := id answered
  refine ⟨newName, ?_, ?_⟩
  · rw [moves.tag_eq answered.known, has_tag, Option.map_some, respelling, if_pos rfl]
  · rw [h.matching, text]
    exact Text.equalsIgnoringCase_self newName

/-- The renamed element answers to no old name. -/
theorem not_answers_old (h : Renames v t owner newName edits) {b : Builder} {σ : Nat → Nat}
    (moves : b.Moves σ (respelling owner newName) b') (known : owner < b.nodes.size)
    (mem : token ∈ tokensOf v t) (kind : token.kind = .endTag) (text : token'.text = token.text) :
    ¬ b'.Answers v token' owner := by
  rintro ⟨tag, has_tag, answers⟩
  rw [moves.tag_eq known, Option.map_eq_some_iff] at has_tag
  obtain ⟨old, -, rfl⟩ := has_tag
  rw [respelling, if_pos rfl, h.matching, text, h.fresh token mem (.inr kind)] at answers
  cases answers

/-- Other elements answer to old names as before. -/
theorem answers_old_iff {b : Builder} {σ : Nat → Nat} (moves : b.Moves σ (respelling owner newName) b')
    {i : NodeId} (known : i < b.nodes.size) (other : i ≠ owner) (text : token'.text = token.text) :
    b'.Answers v token' i ↔ b.Answers v token i := by
  have same : (b'.node i).tag = (b.node i).tag := by
    rw [moves.tag_eq known, map_respelling_of_ne other]
  rw [Builder.Answers, Builder.Answers, same, text]

/-- An end tag with the old name closes the same element as before: the renamed one does not get in
between. -/
theorem closes_old (h : Renames v t owner newName edits) {b : Builder} {σ : Nat → Nat}
    (moves : b.Moves σ (respelling owner newName) b') {inner outer : List NodeId} {id : NodeId}
    (closes : b.Closes v token inner id outer) (known : ∀ i ∈ inner, i < b.nodes.size)
    (other : id ≠ owner) (mem : token ∈ tokensOf v t) (kind : token.kind = .endTag)
    (text : token'.text = token.text) : b'.Closes v token' inner id outer := by
  refine ⟨moves.openElements.trans closes.split, fun i inside => ?_, ?_⟩
  · by_cases own : i = owner
    · subst own
      exact h.not_answers_old moves (known i inside) mem kind text
    · rw [answers_old_iff moves (known i inside) own text]
      exact closes.passed i inside
  · rw [answers_old_iff moves closes.answers.known other text]
    exact closes.answers

/-- The end tag of the renamed element has its new name and still closes it. -/
theorem closes_newName (h : Renames v t owner newName edits) (passes : (scanner v t).Passes passed s)
    {σ : Nat → Nat} (moves : (built v t passed).Moves σ (respelling owner newName) b')
    {inner outer : List NodeId} (closes : (built v t passed).Closes v token inner owner outer)
    (known : ∀ i ∈ inner, i < (built v t passed).nodes.size) (apart : owner ∉ inner)
    (text : token'.text = newName) : b'.Closes v token' inner owner outer := by
  refine ⟨moves.openElements.trans closes.split, fun i inside => ?_,
    h.answers_newName moves closes.answers text⟩
  have other : i ≠ owner := by
    rintro rfl
    exact apart inside
  exact h.not_answers_newName passes moves (known i inside) other text

/-- **The name of an end tag** belongs to the same element as before. -/
theorem spells_endTag (h : Renames v t owner newName edits) (passes : (scanner v t).Passes passed s)
    (kind : s.token.kind = .endTag) {σ : Nat → Nat}
    (moves : (built v t passed).Moves σ (respelling owner newName) b')
    (text : token'.text = (TextEdit.respellAll edits s.token).text) :
    (∀ inner id outer, (built v t passed).Closes v s.token inner id outer →
        b'.Closes v token' inner id outer) ∧
      ((∀ i ∈ (built v t passed).openElements, ¬ (built v t passed).Answers v s.token i) →
        ∀ i ∈ (built v t passed).openElements, ¬ b'.Answers v token' i) := by
  have next := next_of_passes passes (Tokenizer.ahead_ne_nil kind (by decide))
  have mem : s.token ∈ tokensOf v t := next.subset (by simp)
  obtain ⟨start, opened, at_end_tag⟩ := exists_atEndTag next kind
  have met : EndTagIn (tokensOf v t) passed start s.token := ⟨next, kind, opened⟩
  have known : ∀ i ∈ (built v t passed).openElements, i < (built v t passed).nodes.size :=
    fun i => at_end_tag.nested.lt_size
  have kept (not_end : ¬ EndTagOf v t owner passed s.token) : token'.text = s.token.text := by
    refine text.trans (h.text_of_not_edited next (fun start => ?_) not_end)
    have := kind.symm.trans start.kind
    simp at this
  constructor
  · intro inner id outer closes
    have inner_known : ∀ i ∈ inner, i < (built v t passed).nodes.size :=
      fun i inside => known i (by simp [closes.split, inside])
    have closed := met.endTagCloses closes
    by_cases own : id = owner
    · -- The element's own end tag: both names are the new one.
      subst own
      have edited := h.text_of_edited next (.inr ⟨next, kind, closed.paired.2.1, closes.answers⟩)
      exact h.closes_newName passes moves closes inner_known
        (at_end_tag.nested.split_apart closes.split).1 (text.trans edited)
    · -- The end tag of another element: neither name has changed.
      have not_end : ¬ EndTagOf v t owner passed s.token := fun stop =>
        own (closed.only owner (.inr stop.endNameSpan)).symm
      exact h.closes_old moves closes inner_known own mem kind (kept not_end)
  · intro stray i here
    have text := kept fun stop => ((met.endTagStrays stray).only owner).2 stop.endNameSpan
    by_cases own : i = owner
    · subst own
      exact h.not_answers_old moves (known i here) mem kind text
    · rw [answers_old_iff moves (known i here) own text]
      exact stray i here

/-- Attributes keep their names and values. -/
theorem spells_attribute (h : Renames v t owner newName edits)
    (passes : (scanner v t).Passes passed s)
    (kind : s.token.kind = .attributeName ∨ s.token.kind = .attributeValue) :
    (TextEdit.respellAll edits s.token).text = s.token.text := by
  have some_ahead : s.ahead ≠ [] := by
    rcases kind with kind | kind <;> exact Tokenizer.ahead_ne_nil kind (by decide)
  refine h.text_of_not_edited (next_of_passes passes some_ahead) (fun start => ?_) fun stop => ?_
  · rw [start.kind] at kind
    simp at kind
  · rw [stop.kind] at kind
    simp at kind

end token

/-! ## The edited text -/

section edited

variable {t' : Text}

/-- A token moves to its new place. It is empty there if it was so before, since both scans are complete. -/
theorem token_moves (tokens : tokensOf v t' = (tokensOf v t).map (TextEdit.respellAll edits))
    (mem : token ∈ tokensOf v t) :
    token.Moves (TextEdit.shiftAll edits) (TextEdit.respellAll edits token) := by
  refine ⟨by simp, by simp, ?_⟩
  have mem' : TextEdit.respellAll edits token ∈ tokensOf v t' := by
    rw [tokens]
    exact List.mem_map_of_mem mem
  have before := (Tokenizer.completeScan (scanner_at v t)).empty token mem
  have after := (Tokenizer.completeScan (scanner_at v t')).empty _ mem'
  rw [Bool.eq_iff_iff, before, after]
  simp [Token.Interrupts]

/-- **The trees of the two texts** agree as long as tokens are passed over. -/
theorem moves_built (h : Renames v t owner newName edits)
    (tokens : tokensOf v t' = (tokensOf v t).map (TextEdit.respellAll edits)) {s : Tokenizer}
    {passed : List Token} (passes : (scanner v t).Passes passed s) :
    (built v t passed).Moves (TextEdit.shiftAll edits) (respelling owner newName)
      (built v t' (passed.map (TextEdit.respellAll edits))) := by
  refine passes.along (P := fun passed _ =>
    (built v t passed).Moves (TextEdit.shiftAll edits) (respelling owner newName)
      (built v t' (passed.map (TextEdit.respellAll edits)))) ?_ ?_
  · exact Builder.moves_start _ _ (TextEdit.shiftAll_of_le h.apart.nonempty fun _ _ => Nat.zero_le _)
  · intro passed s passes some_ahead so_far
    have mem : s.token ∈ tokensOf v t := (next_of_passes passes some_ahead).subset (by simp)
    rw [List.map_append, List.map_singleton, built_concat, built_concat]
    refine so_far.take (stands_built passes) (Tokenizer.reads some_ahead) (token_moves tokens mem) ?_ _
    exact ⟨h.spells_startTag passes, fun kind => h.spells_endTag passes kind so_far rfl,
      h.spells_attribute passes⟩

/-- **The tree of the edited text.** -/
theorem parse_eq (h : Renames v t owner newName edits)
    (tokens : tokensOf v t' = (tokensOf v t).map (TextEdit.respellAll edits))
    (length : t'.byteLength = TextEdit.shiftAll edits t.byteLength) :
    parse v t' = (parse v t).renamed owner newName edits := by
  obtain ⟨passed, s, passes, ended, all⟩ := (scanner v t).exists_passes
  have all : tokensOf v t = passed ++ [s.token] := all
  have last : s.token.kind = .eof := Tokenizer.token_kind_eq_eof_iff.mpr ended
  have moves : (built v t (tokensOf v t)).Moves (TextEdit.shiftAll edits) (respelling owner newName)
      (built v t' (tokensOf v t')) := by
    rw [tokens, all, List.map_append, List.map_singleton, built_concat, built_concat, Builder.take,
      Builder.take, TextEdit.kind_respellAll, last, TextEdit.span_respellAll]
    exact (h.moves_built tokens passes).endComment _ _
  -- What is still open at the end of one text is so at the end of the other.
  obtain ⟨frontier, -, nested⟩ := exists_nested_built v t
  obtain ⟨frontier', -, nested'⟩ := exists_nested_built v t'
  rw [length] at nested'
  have node := moves.finish nested nested'
  rw [← length] at node
  have size : (parse v t').nodes.size = (parse v t).nodes.size := by
    rw [Document.parse_eq, Document.parse_eq, Builder.finish, Builder.finish, Builder.size_cutOff,
      Builder.size_cutOff]
    exact moves.size
  refine Document.ext ?nodes ?comments ?length
  case nodes =>
    refine Array.ext (by simp [renamed, size]) fun id here _ => ?_
    have before : id < (parse v t).nodes.size := size ▸ here
    have own {d : Document} (inside : id < d.nodes.size) : d.nodes[id] = d.node id := by
      simp [Document.node, inside]
    simp only [renamed, Array.getElem_mapIdx, own here, own before]
    refine node id ?_
    rwa [Document.parse_eq, Builder.finish, Builder.size_cutOff] at before
  case comments =>
    rw [comments_parse_eq, renamed, comments_parse_eq]
    exact moves.comments
  case length => exact length

end edited

end Renames

/-! ## The edits of a renaming -/

/-- An element with an end tag has a name, by which it was found. -/
theorem name_ne_none_of_endTag (closed : ((parse v t).node owner).endTag ≠ none) :
    ((parse v t).node owner).name ≠ none := by
  obtain ⟨e, closed⟩ := Option.ne_none_iff_exists'.mp closed
  -- At its end tag the element has a name that the end tag answers to, and it keeps that name.
  obtain ⟨before, start, token, inner, outer, met, -, closes⟩ := exists_endTagIn closed
  obtain ⟨after, all⟩ := met.next
  rw [List.append_assoc] at all
  obtain ⟨s, passes, -, -⟩ := Tokenizer.passes_of_tokens_eq all.symm
  obtain ⟨tag, has_tag, -⟩ := closes.answers
  obtain ⟨name, named, -⟩ := Option.map_eq_some_iff.mp has_tag
  rw [name_parse passes named]
  simp

/-- What `rename` does: it edits the names of the element that it finds. -/
theorem exists_nameOwner_of_rename {d : Document} {offset : Nat} (edits : d.rename offset newName ≠ []) :
    ∃ owner, d.nameOwner offset = some owner ∧ (d.node owner).nameSpans ≠ [] ∧
      d.rename offset newName = (d.node owner).nameSpans.map (⟨·, newName⟩) := by
  rw [rename] at edits ⊢
  split at edits
  case isFalse => exact absurd rfl edits
  case isTrue accepted =>
    rw [if_pos accepted]
    rw [highlights] at edits ⊢
    cases found : d.nameOwner offset with
    | none => simp [found] at edits
    | some owner =>
      rw [found] at edits
      exact ⟨owner, rfl, fun none_there => edits (List.map_eq_nil_iff.mpr none_there), rfl⟩

/-- **When the element at an offset can be renamed** without a change of the tree. -/
structure Renameable (v : Vocabulary) (t : Text) (offset : Nat) (newName : Text) : Prop where
  /-- Names match up to the case of ASCII letters. -/
  matching : v.tagNamesMatch = Text.equalsIgnoringCase
  /-- There is a name at the offset. -/
  edits : (parse v t).rename offset newName ≠ []
  /-- No start tag of the text has an opaque body. -/
  markup : NamesMarkup v t
  /-- The old name is not void. -/
  not_void : ∀ owner ∈ (parse v t).nameOwner offset, ((parse v t).node owner).isVoid v = false
  /-- The new name can be read as a name. -/
  isTagName : IsTagName newName
  /-- The new name is neither void nor has it an opaque body. -/
  newName_plain : v.isVoid newName = false ∧ v.isEmbeddedContent newName = false
  /-- The new name is new to the text. -/
  fresh : ∀ token ∈ tokensOf v t, token.kind = .startTag ∨ token.kind = .endTag →
    newName.equalsIgnoringCase token.text = false

/-- The edits of an element that can be renamed. -/
theorem Renameable.exists_renames {offset : Nat} (h : Renameable v t offset newName) :
    ∃ owner, (parse v t).nameOwner offset = some owner ∧
      Renames v t owner newName ((parse v t).rename offset newName) := by
  obtain ⟨owner, found, some_name, edits_eq⟩ := exists_nameOwner_of_rename h.edits
  refine ⟨owner, found, h.matching, edits_eq, fun nameless => ?_, h.markup, h.isTagName,
    h.newName_plain.2, ⟨h.not_void owner found, h.newName_plain.1⟩, h.fresh⟩
  -- Then the only name is that of an end tag.
  refine name_ne_none_of_endTag (fun no_endTag => some_name ?_) nameless
  rw [Node.nameSpans, Node.nameSpan, Node.endNameSpan, nameless, no_endTag]
  rfl

/-- **The tree before and after the renaming of one element.** -/
structure RenamedTo (d d' : Document) (owner : NodeId) (newName : Text) (edits : List TextEdit) :
    Prop where
  /-- There are as many nodes. -/
  size : d'.nodes.size = d.nodes.size
  /-- Each node has the same parent and children. -/
  nesting : ∀ id, (d'.node id).parent = (d.node id).parent ∧
    (d'.node id).children = (d.node id).children
  /-- Each node is complete in the same way. -/
  closed : ∀ id, (d'.node id).closed = (d.node id).closed ∧
    (d'.node id).selfClosing = (d.node id).selfClosing
  /-- Each node has attributes of the same names and values. -/
  attributes : ∀ id, (d'.node id).attributes.map (fun a => (a.name, a.value.map (·.text))) =
    (d.node id).attributes.map fun a => (a.name, a.value.map (·.text))
  /-- The element has the new tag, all others have their old one. -/
  tag : ∀ id, (d'.node id).tag = if id = owner then some newName else (d.node id).tag
  /-- All offsets are those after the edits. -/
  offsets : d' = d.renamed owner newName edits

/-- Each node has moved somehow; one that is not there has moved nowhere. -/
theorem exists_node_renamed (d : Document) (id : NodeId) : ∃ σ,
    (d.renamed owner newName edits).node id = (d.node id).moved σ (respelling owner newName id) := by
  rcases Nat.lt_or_ge id d.nodes.size with known | unknown
  · exact ⟨TextEdit.shiftAll edits, by simp [renamed, Document.node, known]⟩
  · refine ⟨fun offset => offset, ?_⟩
    rw [Document.node, Document.node, Array.getElem?_eq_none unknown,
      Array.getElem?_eq_none (by simpa [renamed] using unknown)]
    exact (Node.moved_id default).symm

/-- The renamed tree has the same structure. -/
theorem renamedTo_renamed {d : Document} (named : (d.node owner).name ≠ none) :
    d.RenamedTo (d.renamed owner newName edits) owner newName edits where
  size := Array.size_mapIdx
  nesting id := by
    obtain ⟨σ, node⟩ := exists_node_renamed d id
    rw [node]
    exact ⟨rfl, rfl⟩
  closed id := by
    obtain ⟨σ, node⟩ := exists_node_renamed d id
    rw [node]
    exact ⟨rfl, rfl⟩
  attributes id := by
    obtain ⟨σ, node⟩ := exists_node_renamed d id
    rw [node]
    simp [Node.moved, Attribute.moved, AttributeValue.moved, Function.comp_def]
  tag id := by
    obtain ⟨σ, node⟩ := exists_node_renamed d id
    obtain ⟨name, named⟩ := Option.ne_none_iff_exists'.mp named
    rw [node, Node.tag_moved]
    by_cases own : id = owner
    · subst own
      rw [if_pos rfl, Node.tag, named, Option.map_some, Option.map_some, respelling, if_pos rfl]
    · rw [if_neg own]
      exact map_respelling_of_ne own _
  offsets := rfl

/-- **What the edits of a renaming do** to a text and its tree. -/
structure Renaming (v : Vocabulary) (t t' : Text) (owner : NodeId) (newName : Text)
    (edits : List TextEdit) : Prop where
  /-- The edits come one after the other. -/
  disjoint : edits.Pairwise fun e e' => e.span.stop ≤ e'.span.start
  /-- They can all be applied. -/
  applied : TextEdit.applyAll? edits t = some t'
  /-- The tree of the edited text is the old one with another name. -/
  tree : (parse v t).RenamedTo (parse v t') owner newName edits
  /-- An offset moves by what the edits before it put in and take out. -/
  shift : ∀ offset, TextEdit.shiftAll edits offset +
      TextEdit.sizeBefore (·.span.length) offset edits =
    offset + TextEdit.sizeBefore (·.newText.byteLength) offset edits

/-- **Renaming an element keeps the structure**, if the new name is new to the text. -/
theorem rename_keeps_structure {offset : Nat} (h : Renameable v t offset newName) :
    ∃ owner t', (parse v t).nameOwner offset = some owner ∧
      Renaming v t t' owner newName ((parse v t).rename offset newName) := by
  obtain ⟨owner, found, renames⟩ := h.exists_renames
  obtain ⟨t', applied, tokens⟩ := tokensOf_applyAll h.markup renames.apart renames.respells
  refine ⟨owner, t', found, renames.apart.ordered, applied, ?_, TextEdit.shiftAll_add renames.apart⟩
  have length := TextEdit.byteLength_of_applyAll? renames.apart.nonempty applied
  rw [renames.parse_eq tokens length]
  exact renamedTo_renamed renames.named

/-- An element with an unclosed one inside it. -/
def unclosedInside : Text := "<p><b></P>".toList

/-- The outer element can be renamed. -/
theorem rename_keeps_structure_unclosedInside :
    Renameable Vocabulary.empty unclosedInside 1 "q".toList ∧
      ∃ owner t', (parse Vocabulary.empty unclosedInside).nameOwner 1 = some owner ∧
        Renaming Vocabulary.empty unclosedInside t' owner "q".toList
          ((parse Vocabulary.empty unclosedInside).rename 1 "q".toList) := by
  have edits : (parse Vocabulary.empty unclosedInside).rename 1 "q".toList ≠ [] := by
    decide +kernel
  have not_void (n : Node) : n.isVoid Vocabulary.empty = false := by
    cases tag : n.tag <;> simp [Node.isVoid, tag, Vocabulary.empty]
  have renameable : Renameable Vocabulary.empty unclosedInside 1 "q".toList := by
    refine ⟨rfl, edits, fun _ _ _ => rfl, fun owner _ => not_void _,
      ⟨'q', [], rfl, rfl, by simp⟩, ⟨rfl, rfl⟩, ?_⟩
    decide +kernel
  exact ⟨renameable, rename_keeps_structure renameable⟩

end Document

end MarkupAnalysis
