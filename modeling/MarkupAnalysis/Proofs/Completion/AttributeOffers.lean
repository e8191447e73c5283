import Mathlib.Data.List.Nodup
import MarkupAnalysis.Proofs.Completion.Replacement
import MarkupAnalysis.Proofs.Completion.StartTagPlaces
import MarkupAnalysis.Proofs.Text.Case

/-! # Proposals of attribute names

In a start tag the names are proposed that the vocabulary has for the tag and the names of free attributes
that the document uses, apart from those that the element has already.

* **`CompletionRequest.countP_freshAttributes`** — a known name that is not taken is fresh once.
* **`OffersAttributes`** — what is proposed, as the names only.
* **`CompletionRequest.offersAttributes_attributeCandidates`** — the candidates for an attribute.
* **`Cursor.of_place?_attributeName`** — the tokens that make a place for attributes.
* **`Node.attributeNameAt`** — the name at the cursor, in the tree.
* **`Document.cursor_of_attributeName`** — the cursor has the tag and the name that the tree has.
* **`Document.complete_attributes`** — completion in a start tag.
* **`Document.complete_attributes_interrupted`** — behind an interrupted tag. -/

namespace MarkupAnalysis

open Text CompletionRequest

/-- Without duplicates no entry comes twice. -/
theorem nodup_eraseDups {α : Type*} [BEq α] [LawfulBEq α] (l : List α) : l.eraseDups.Nodup := by
  -- Each entry is erased from what follows, which makes that list shorter.
  induction length : l.length using Nat.strongRecOn generalizing l with
  | ind n ih =>
    cases l with
    | nil => exact List.nodup_nil
    | cons first rest =>
      rw [List.eraseDups_cons, List.nodup_cons, List.mem_eraseDups, List.mem_filter]
      refine ⟨fun again => by simp at again, ih _ ?_ _ rfl⟩
      rw [← length]
      exact Nat.lt_succ_of_le (List.length_filter_le _ _)

/-! ## Names that are proposed -/

/-- **What is proposed for an attribute of a node**: each known name that no other attribute of the node has,
and names of free attributes that the document uses. The start of such a name is always proposed. -/
structure OffersAttributes (infos : List AttributeInfo) (d : Document) (n : Node) (current : Text)
    (labels : List Text) : Prop where
  /-- Known names that no other attribute has are proposed once up to case, beside the start of a free one. -/
  known : ∀ info ∈ infos,
    (∀ a ∈ n.attributes, a.name ≠ current → a.name.equalsIgnoringCase info.name = false) →
      labels.countP (·.equalsIgnoringCase info.name) =
        if info.name.equalsIgnoringCase dataLead then 2 else 1
  /-- Names of other attributes are not proposed. -/
  free : ∀ label ∈ labels, label ≠ dataLead →
    ∀ a ∈ n.attributes, a.name ≠ current → a.name.equalsIgnoringCase label = false
  /-- What is not known is used in the document, and proposed once. -/
  used : ∀ label ∈ labels, label ≠ dataLead → label ∉ infos.map (·.name) →
    startsWith dataLead label = true ∧
      (∃ id ∈ d.elements, ∃ a ∈ (d.node id).attributes, a.name = label) ∧ labels.count label = 1

/-- The order of the proposals does not matter. -/
theorem OffersAttributes.perm {infos : List AttributeInfo} {d : Document} {n : Node} {current : Text}
    {labels labels' : List Text} (h : OffersAttributes infos d n current labels) (same : labels'.Perm labels) :
    OffersAttributes infos d n current labels' where
  known info mem free := (same.countP_eq _).trans (h.known info mem free)
  free label mem := h.free label (same.mem_iff.mp mem)
  used label mem lead unknown := by
    obtain ⟨starts, somewhere, once⟩ := h.used label (same.mem_iff.mp mem) lead unknown
    exact ⟨starts, somewhere, (same.count_eq label).trans once⟩

namespace CompletionRequest

variable {taken : List Text} {infos : List AttributeInfo} {info : AttributeInfo} {d : Document}
  {name current label : Text}

/-- Fresh attributes are known and not taken. -/
theorem of_mem_freshAttributes (mem : info ∈ freshAttributes taken infos) :
    info ∈ infos ∧ lower info.name ∉ taken := by
  induction infos generalizing taken with
  | nil => cases mem
  | cons first infos ih =>
    unfold freshAttributes at mem
    split_ifs at mem with known
    · obtain ⟨mem, free⟩ := ih mem
      exact ⟨List.mem_cons_of_mem first mem, free⟩
    · rcases List.mem_cons.mp mem with rfl | mem
      · exact ⟨List.mem_cons_self, by simpa using known⟩
      · obtain ⟨mem, free⟩ := ih mem
        exact ⟨List.mem_cons_of_mem first mem, fun taken => free (List.mem_cons_of_mem _ taken)⟩

/-- **A known name that is not taken is fresh once**, up to case. -/
theorem countP_freshAttributes (free : lower name ∉ taken)
    (known : ∃ info ∈ infos, info.name.equalsIgnoringCase name = true) :
    (freshAttributes taken infos).countP (·.name.equalsIgnoringCase name) = 1 := by
  induction infos generalizing taken with
  | nil =>
    obtain ⟨info, mem, -⟩ := known
    cases mem
  | cons first infos ih =>
    obtain ⟨info, mem, same⟩ := known
    unfold freshAttributes
    by_cases own : first.name.equalsIgnoringCase name = true
    · have names := equalsIgnoringCase_iff.mp own
      rw [if_neg (by simpa [names] using free), List.countP_cons, if_pos own]
      -- From now on the name is taken.
      apply Nat.add_eq_right.mpr
      apply List.countP_eq_zero.mpr
      intro other mem again
      apply (of_mem_freshAttributes mem).2
      rw [equalsIgnoringCase_iff.mp again, names]
      exact List.mem_cons_self
    · have later : ∃ info ∈ infos, info.name.equalsIgnoringCase name = true := by
        rcases List.mem_cons.mp mem with rfl | mem
        · exact absurd same own
        · exact ⟨info, mem, same⟩
      split_ifs
      · exact ih free later
      · rw [List.countP_cons, if_neg own]
        refine ih ?_ later
        intro mem
        rcases List.mem_cons.mp mem with names | mem
        · exact own (equalsIgnoringCase_iff.mpr names.symm)
        · exact free mem

/-- Names that the document uses are names of free attributes, and not taken. -/
theorem mem_usedDataNames : label ∈ usedDataNames d current taken ↔ label ∈ attributeNames d ∧
    isDataName label = true ∧ label ≠ current ∧ lower label ∉ taken := by
  simp [usedDataNames, and_assoc]

/-- The names that the document uses are names of its attributes. -/
theorem mem_attributeNames :
    label ∈ attributeNames d ↔ ∃ id ∈ d.elements, ∃ a ∈ (d.node id).attributes, a.name = label := by
  simp [attributeNames]

/-- The name of a free attribute starts like all of them. -/
theorem startsWith_of_isDataName (data : isDataName label = true) : startsWith dataLead label = true :=
  (Bool.and_eq_true_iff.mp data).1

/-! ### Their labels -/

/-- The names of a node's attributes other than the one being typed, in lower case. -/
def takenNames (n : Node) (current : Text) : List Text :=
  (n.attributes.toList.filter (·.name ≠ current)).map fun a => lower a.name

/-- The attributes that are known for a tag and not taken. -/
def freshFor (infos : List AttributeInfo) (n : Node) (current : Text) : List AttributeInfo :=
  freshAttributes (takenNames n current) infos

/-- The names of free attributes that are used in the document and neither taken nor known. -/
def usedFor (infos : List AttributeInfo) (d : Document) (n : Node) (current : Text) : List Text :=
  usedDataNames d current
    (takenNames n current ++ (freshFor infos n current).map fun info => lower info.name)

/-- All names that are proposed, in the order of the candidates. -/
def offeredNames (infos : List AttributeInfo) (d : Document) (n : Node) (current : Text) : List Text :=
  (freshFor infos n current).map (·.name) ++ dataLead :: usedFor infos d n current

/-- The labels of the candidates are the names that are proposed. -/
theorem labels_attributeCandidates (r : CompletionRequest) (tag : Option Text) (name : Span) :
    (r.attributeCandidates tag name).map (·.suggestion.label) =
      offeredNames (r.vocabulary.attributesFor (tag.getD [])) r.document (r.document.node r.node)
        ((r.text.slice? name).getD []) := by
  simp [attributeCandidates, Function.comp_def, attributeCandidate, newDataCandidate, dataCandidate,
    offeredNames, usedFor, freshFor, takenNames]

section offered

variable {n : Node}

/-- A name is taken if it is that of another attribute, up to case. -/
theorem lower_not_mem_takenNames : lower label ∉ takenNames n current ↔
    ∀ a ∈ n.attributes, a.name ≠ current → a.name.equalsIgnoringCase label = false := by
  simp [takenNames, equalsIgnoringCase]

/-- A known name that is not taken is among the fresh ones, so it is not proposed a second time for being
used. -/
theorem countP_usedFor (once : (freshFor infos n current).countP (·.name.equalsIgnoringCase name) = 1) :
    (usedFor infos d n current).countP (·.equalsIgnoringCase name) = 0 := by
  obtain ⟨info, fresh, names⟩ := List.countP_pos_iff.mp (Nat.lt_of_lt_of_eq Nat.one_pos once.symm)
  refine List.countP_eq_zero.mpr ?_
  intro label used same
  obtain ⟨-, -, -, not_taken⟩ := mem_usedDataNames.mp used
  have spelled : lower info.name = lower label :=
    (equalsIgnoringCase_iff.mp names).trans (equalsIgnoringCase_iff.mp same).symm
  exact not_taken (List.mem_append_right _ (List.mem_map.mpr ⟨info, fresh, spelled⟩))

/-- Known names that are not taken are proposed once, beside the start of the name of a free attribute. -/
theorem countP_offeredNames (known : info ∈ infos) (free : lower info.name ∉ takenNames n current) :
    (offeredNames infos d n current).countP (·.equalsIgnoringCase info.name) =
      if info.name.equalsIgnoringCase dataLead then 2 else 1 := by
  have once : (freshFor infos n current).countP (·.name.equalsIgnoringCase info.name) = 1 :=
    countP_freshAttributes free ⟨info, known, equalsIgnoringCase_self _⟩
  have labels : ((freshFor infos n current).map (·.name)).countP (·.equalsIgnoringCase info.name) = 1 := by
    rw [List.countP_map]
    exact once
  rw [offeredNames, List.countP_append, labels, List.countP_cons, countP_usedFor once,
    equalsIgnoringCase_comm dataLead]
  split_ifs <;> rfl

/-- Apart from that start nothing is proposed that is taken. -/
theorem not_taken_of_mem_offeredNames (mem : label ∈ offeredNames infos d n current)
    (lead : label ≠ dataLead) : lower label ∉ takenNames n current := by
  rcases List.mem_append.mp mem with fresh | other
  · obtain ⟨info, info_fresh, rfl⟩ := List.mem_map.mp fresh
    exact (of_mem_freshAttributes info_fresh).2
  · have used := (List.mem_cons.mp other).resolve_left lead
    intro taken
    exact (mem_usedDataNames.mp used).2.2.2 (List.mem_append_left _ taken)

/-- What is proposed and not known is used, and proposed once. -/
theorem used_of_mem_offeredNames (mem : label ∈ offeredNames infos d n current) (lead : label ≠ dataLead)
    (unknown : label ∉ infos.map (·.name)) :
    startsWith dataLead label = true ∧ label ∈ attributeNames d ∧
      (offeredNames infos d n current).count label = 1 := by
  have not_fresh : label ∉ (freshFor infos n current).map (·.name) := by
    intro fresh
    obtain ⟨info, info_fresh, rfl⟩ := List.mem_map.mp fresh
    exact unknown (List.mem_map_of_mem (of_mem_freshAttributes info_fresh).1)
  have used : label ∈ usedFor infos d n current :=
    (List.mem_cons.mp ((List.mem_append.mp mem).resolve_left not_fresh)).resolve_left lead
  obtain ⟨named, data, -, -⟩ := mem_usedDataNames.mp used
  refine ⟨startsWith_of_isDataName data, named, ?_⟩
  rw [offeredNames, List.count_append, List.count_eq_zero.mpr not_fresh,
    List.count_cons_of_ne (Ne.symm lead), Nat.zero_add]
  exact List.count_eq_one_of_mem (nodup_eraseDups _) used

end offered

/-- **The candidates for an attribute** are the names that the vocabulary has for the tag and those that the
document uses, without the names of the node's other attributes. -/
theorem offersAttributes_attributeCandidates (r : CompletionRequest) (tag : Option Text) (name : Span) :
    OffersAttributes (r.vocabulary.attributesFor (tag.getD [])) r.document (r.document.node r.node)
      ((r.text.slice? name).getD []) ((r.attributeCandidates tag name).map (·.suggestion.label)) := by
  rw [labels_attributeCandidates]
  refine ⟨?known, ?free, ?used⟩
  case known =>
    intro info known free
    exact countP_offeredNames known (lower_not_mem_takenNames.mpr free)
  case free =>
    intro label mem lead
    exact lower_not_mem_takenNames.mp (not_taken_of_mem_offeredNames mem lead)
  case used =>
    intro label mem lead unknown
    obtain ⟨starts, named, once⟩ := used_of_mem_offeredNames mem lead unknown
    exact ⟨starts, mem_attributeNames.mp named, once⟩

/-- Ranking keeps the labels. -/
theorem perm_labels_rank (t : Text) (offset : Nat) (candidates : List Candidate) :
    ((rank t offset candidates).map (·.label)).Perm (candidates.map (·.suggestion.label)) := by
  have ranked := (List.mergeSort_perm (candidates.map (Ranked.ofCandidate t offset)) Ranked.notAfter).map
    (·.suggestion.label)
  rw [List.map_map] at ranked
  rw [rank, List.map_map]
  exact ranked

/-- **Names of attributes are proposed at their place only.** -/
theorem place_of_attributeName {r : CompletionRequest} {cursor : Cursor} {candidates : List Candidate}
    {c : Candidate} (proposed : r.candidates cursor = .ok candidates) (mem : c ∈ candidates)
    (kind : c.suggestion.kind = .attributeName) :
    ∃ name, cursor.place = .attributeName name ∧ candidates = r.attributeCandidates cursor.tag name := by
  have not_endTag {candidates : List Candidate} {name : Span} {inStartTag : Bool}
      (proposed : r.closeTagCandidates name inStartTag = .ok candidates) (mem : c ∈ candidates) : False := by
    cases kind.symm.trans (kind_of_closeTagCandidates proposed mem)
  have not_startTag {name : Span} {bracket : Nat} (mem : c ∈ r.openTagCandidates name bracket) : False := by
    cases kind.symm.trans (of_mem_openTagCandidates mem).1
  unfold CompletionRequest.candidates at proposed
  cases place : cursor.place with rw [place] at proposed
  | newTag name bracket =>
    obtain ⟨endTags, end_proposed, rfl⟩ := Except.map_eq_ok_iff.mp proposed
    exact ((List.mem_append.mp mem).elim not_startTag (not_endTag end_proposed)).elim
  | tagName name bracket =>
    obtain rfl := Except.ok.inj proposed
    exact (not_startTag mem).elim
  | endTag name => exact (not_endTag proposed mem).elim
  | attributeName name => exact ⟨name, rfl, (Except.ok.inj proposed).symm⟩
  | attributeValue value =>
    obtain rfl := Except.ok.inj proposed
    cases kind.symm.trans (of_mem_valueCandidates mem).1
  | afterStartTag tag stop =>
    obtain rfl := Except.ok.inj proposed
    cases kind.symm.trans (of_mem_autoCloseCandidates mem).1
  | elsewhere =>
    obtain rfl := Except.ok.inj proposed
    cases mem

end CompletionRequest

/-! ## The attribute at the cursor -/

namespace Cursor

variable {t : Text} {s : Tokenizer} {offset : Nat} {tag attributeName : Option Text} {name : Span}

/-- **The tokens that make a place for attributes**: a name, and blanks in a start tag behind its own name. -/
theorem of_place?_attributeName (some_ahead : s.ahead ≠ []) {rest : List (Token × Tokenizer)}
    (made : place? t offset tag s.token s.rest rest = some (.attributeName name)) :
    (s.mode = .startTag ∨ s.mode = .attributeName) ∧
      (s.token.kind = .attributeName ∧ name = s.token.span ∨
        s.token.kind = .whitespace ∧ name = ⟨s.token.span.stop, offset⟩) := by
  unfold place? at made
  cases kind : s.token.kind with rw [kind] at made
  | attributeName =>
    obtain ⟨-, made⟩ := Option.ite_none_right_eq_some.mp made
    cases made
    have reads := Tokenizer.reads some_ahead
    rw [kind] at reads
    generalize s.mode = m, s.rest.mode = m' at reads
    cases reads with
    | attributeOpens place => exact ⟨place, .inl ⟨rfl, rfl⟩⟩
  | whitespace =>
    obtain ⟨-, made⟩ := Option.ite_none_right_eq_some.mp made
    rw [blankPlace?, Tokenizer.mode_rest_of_whitespace kind] at made
    cases mode : s.mode with rw [mode] at made
    | startTag =>
      cases made
      exact ⟨.inl rfl, .inr ⟨rfl, rfl⟩⟩
    | attributeName =>
      cases made
      exact ⟨.inr rfl, .inr ⟨rfl, rfl⟩⟩
    | _ => cases made
  | startTagClose =>
    obtain ⟨-, made⟩ := Option.ite_none_right_eq_some.mp made
    cases tag <;> cases made
  | endTag =>
    obtain ⟨-, made⟩ := Option.ite_none_right_eq_some.mp made
    obtain ⟨slash, -, same⟩ := Option.map_eq_some_iff.mp made
    cases same
  | _ =>
    obtain ⟨-, made⟩ := Option.ite_none_right_eq_some.mp made
    cases made

/-- At the start of a text there is no place for attributes. -/
theorem place_find_of_content (content : s.mode = .content) (here : s.position = offset) :
    (find t offset tag attributeName s.trace).place ≠ .attributeName name := by
  intro place
  by_cases ended : s.ahead = []
  · rw [Tokenizer.trace_of_ahead_eq_nil ended, Tokenizer.advance, find,
      if_pos (by simp [Tokenizer.token_kind_eq_eof_iff.mpr ended])] at place
    cases place
  · obtain ⟨tag', attributeName', same⟩ :=
      @place_find_eq t s offset tag attributeName ended (Nat.le_of_eq here)
    rw [same] at place
    cases made : place? t offset tag s.token s.rest s.rest.trace with
    | some found =>
      obtain rfl : found = .attributeName name := by rwa [made] at place
      obtain ⟨inside, -⟩ := of_place?_attributeName ended made
      rw [content] at inside
      rcases inside with inside | inside <;> cases inside
    | none =>
      rw [made, Option.getD_none] at place
      -- The token ends behind the place where it starts.
      have behind : offset < s.rest.position := by
        rw [← here]
        obtain ⟨not_start, not_end⟩ :=
          Tokenizer.not_closes_of_betweenTags (s := s) (by rw [content]; rfl)
        exact Tokenizer.position_lt_rest ended not_start not_end
      rw [place_find_of_behind behind] at place
      cases place

end Cursor

/-- A cut that runs backwards, if there is one, is empty. -/
theorem getD_slice?_of_le {t : Text} {start stop : Nat} (backwards : stop ≤ start) :
    (t.slice? ⟨start, stop⟩).getD [] = [] := by
  cases slice : t.slice? ⟨start, stop⟩ with
  | none => rfl
  | some part =>
    obtain ⟨-, -, -, -, place⟩ := slice?_eq_some_iff.mp slice
    have empty : byteLength part = 0 := by omega
    exact byteLength_eq_zero_iff.mp empty

/-- The name of the attribute that an offset is in; empty where there is none. -/
def Node.attributeNameAt (n : Node) (offset : Nat) : Text :=
  ((n.attributes.toList.find? fun a => a.nameSpan.start < offset && offset ≤ a.nameSpan.stop).map
    (·.name)).getD []

namespace Document

variable {v : Vocabulary} {t : Text} {id : NodeId} {offset : Nat} {name : Span}

/-- An attribute whose name an offset is in has been read there. -/
theorem of_attribute_at {a : Attribute} {token : Token} (mem : a ∈ ((parse v t).node id).attributes)
    (inside : a.nameSpan.start < offset ∧ offset ≤ a.nameSpan.stop) (token_mem : token ∈ tokensOf v t)
    (starts : token.span.start < offset) (ends : offset ≤ token.span.stop) :
    token.kind = .attributeName ∧ a.name = token.text := by
  obtain ⟨passed, s, reads, kind, name, span⟩ := exists_token_of_attribute mem
  rw [span] at inside
  obtain rfl := Token.eq_of_touching (tokensOf_pairwise v t) reads.token_mem token_mem inside.1 inside.2
    starts ends
  exact ⟨kind, name⟩

/-- **In the name of an attribute** the name at the offset is that name. -/
theorem attributeNameAt_of_reads {passed : List Token} {s : Tokenizer}
    (reads : ReadsStartTag v t id passed s) (kind : s.token.kind = .attributeName)
    (starts : s.token.span.start < offset) (ends : offset ≤ s.token.span.stop) :
    ((parse v t).node id).attributeNameAt offset = s.token.text := by
  obtain ⟨a, mem, -, span⟩ := reads.exists_attribute kind
  unfold Node.attributeNameAt
  cases first : ((parse v t).node id).attributes.toList.find? fun a =>
    a.nameSpan.start < offset && offset ≤ a.nameSpan.stop with
  | none =>
    have nowhere := List.find?_eq_none.mp first a (Array.mem_toList_iff.mpr mem)
    rw [span] at nowhere
    simp [starts, ends] at nowhere
  | some b =>
    have inside : b.nameSpan.start < offset ∧ offset ≤ b.nameSpan.stop := by
      simpa using List.find?_some first
    have b_mem := Array.mem_toList_iff.mp (List.mem_of_find?_eq_some first)
    exact (of_attribute_at b_mem inside reads.token_mem starts ends).2

/-- **Elsewhere** there is no name at the offset. -/
theorem attributeNameAt_of_other {token : Token} (mem : token ∈ tokensOf v t)
    (kind : token.kind ≠ .attributeName) (starts : token.span.start < offset)
    (ends : offset ≤ token.span.stop) : ((parse v t).node id).attributeNameAt offset = [] := by
  unfold Node.attributeNameAt
  rw [List.find?_eq_none.mpr]
  · rfl
  · intro a a_mem inside
    have around : a.nameSpan.start < offset ∧ offset ≤ a.nameSpan.stop := by simpa using inside
    exact kind (of_attribute_at (Array.mem_toList_iff.mp a_mem) around mem starts ends).1

/-- Names of attributes are not proposed at the start of the text. -/
theorem pos_of_attributeName (found : (parse v t).nodeBefore offset = some id)
    (place : (Cursor.locate v t ((parse v t).node id).start offset).place = .attributeName name) :
    0 < offset := by
  rcases of_nodeBefore found with rfl | ⟨-, before⟩
  · refine Nat.pos_of_ne_zero ?_
    intro first
    have position := (exists_tokens_split (of_nodeBefore found)).1
    have start : ((parse v t).node root).start = 0 := congrArg Span.start (wellFormed_parse v t).root.2.2.2
    have here := position.trans (start.trans first.symm)
    exact Cursor.place_find_of_content (Tokenizer.mode_start v t _) here place
  · exact Nat.lt_of_le_of_lt (Nat.zero_le _) before

/-- In a start tag that completion is in the document reads the start tag of the node before the cursor. -/
theorem readsStartTag_of_alike {passed : List Token} {s s' : Tokenizer}
    (passes : (scanner v t).Passes passed s') (same : s'.token = s.token) (alike : s.mode.Alike s'.mode)
    (inside : s.mode = .startTag ∨ s.mode = .attributeName) (starts : s.token.span.start < offset)
    (ends : offset ≤ s.token.span.stop) (found : (parse v t).nodeBefore offset = some id) :
    ReadsStartTag v t id passed s' ∧ s'.mode ≠ .startTagOpened := by
  have mode : s'.mode = s.mode := by
    rcases alike with same | ⟨outside, -⟩
    · exact same.symm
    · rcases inside with inside | inside <;> rw [inside] at outside <;> cases outside
  rw [← same] at starts ends
  rw [← mode] at inside
  have some_ahead := (Tokenizer.some_ahead_of_some_text (Nat.lt_of_lt_of_le starts ends)).1
  have inside_tag : s'.mode.inStartTag = true := by
    rcases inside with inside | inside <;> rw [inside] <;> rfl
  obtain ⟨id', reads⟩ := exists_readsStartTag passes some_ahead inside_tag
  obtain rfl : id' = id := Option.some.inj ((reads.nodeBefore starts ends).symm.trans found)
  refine ⟨reads, ?_⟩
  intro opened
  rw [opened] at inside
  rcases inside with inside | inside <;> cases inside

/-- **The cursor at an attribute** has read the tag of the node before it, and the name at the cursor is that
of the node's attribute there. -/
theorem cursor_of_attributeName (found : (parse v t).nodeBefore offset = some id)
    (smooth : UninterruptedWithin v t ((parse v t).node id).start offset)
    (place : (Cursor.locate v t ((parse v t).node id).start offset).place = .attributeName name) :
    ∃ tag, ((parse v t).node id).tag = some tag ∧
      (Cursor.locate v t ((parse v t).node id).start offset).tag = some tag ∧
      (t.slice? name).getD [] = ((parse v t).node id).attributeNameAt offset := by
  have inside : offset ≤ t.byteLength := ((preordered_parse v t).nodeBefore_eq_some_iff.mp found).1
  obtain ⟨token, mem, starts, ends⟩ := exists_token_at (pos_of_attributeName found place) inside
  obtain ⟨passed, first, s, s', plain, rfl, passes, same, alike, apart⟩ :=
    exists_passes_both mem starts ends found smooth
  -- The token at the cursor makes the place, in the start tag of the node.
  obtain ⟨attributeName, located⟩ := Cursor.find_of_passes_tag plain
    (fun x mem => Nat.lt_of_le_of_lt (plain.bounds mem).2 starts) none none
  rw [Option.or_none] at located
  rw [Cursor.locate, located] at place ⊢
  have somewhere : Place.attributeName name ≠ .elsewhere := fun same => by cases same
  obtain ⟨made, whole⟩ :=
    Cursor.find_of_touching (opened_of_passes_start plain) starts ends place somewhere
  have some_ahead := (Tokenizer.some_ahead_of_some_text (Nat.lt_of_lt_of_le starts ends)).1
  obtain ⟨mode, token_made⟩ := Cursor.of_place?_attributeName some_ahead made
  obtain ⟨reads, opened⟩ := readsStartTag_of_alike passes same alike mode starts ends found
  rw [← same] at starts ends token_made
  have goes_on : s'.token.kind ≠ .startTagClose := by
    intro closes
    rcases token_made with ⟨kind, -⟩ | ⟨kind, -⟩ <;> cases closes.symm.trans kind
  -- Its name is the latest one for both.
  obtain ⟨tagName, named⟩ := reads.exists_name opened goes_on
  have latest : latestTag first = some tagName.text :=
    latestTag_of_readsStartTag reads apart (by rw [Node.tag, named]; rfl)
  rw [whole]
  refine ⟨tagName.text, ?_, latest, ?_⟩
  · rw [Node.tag, name_parse passes named]
    rfl
  · rcases token_made with ⟨kind, rfl⟩ | ⟨kind, rfl⟩
    · rw [attributeNameAt_of_reads reads kind starts ends, (passes.at_of_at (scanner_at v t)).slice]
      rfl
    · have other : s'.token.kind ≠ .attributeName := fun name => by cases kind.symm.trans name
      rw [attributeNameAt_of_other reads.token_mem other starts ends, getD_slice?_of_le ends]

/-- **Completion in a start tag.** Where names of attributes are proposed and no tag is interrupted between
the start of the node before the cursor and the cursor, they are names for the node's tag. -/
theorem complete_attributes (options : CompletionOptions) (found : (parse v t).nodeBefore offset = some id)
    (smooth : UninterruptedWithin v t ((parse v t).node id).start offset) :
    ∃ suggestions, (parse v t).complete t v options offset = .ok suggestions ∧
      ((∃ s ∈ suggestions, s.kind = .attributeName) → ∃ tag, ((parse v t).node id).tag = some tag ∧
        OffersAttributes (v.attributesFor tag) (parse v t) ((parse v t).node id)
          (((parse v t).node id).attributeNameAt offset) (suggestions.map (·.label))) := by
  obtain ⟨suggestions, answer⟩ := exists_complete v v t options offset
  refine ⟨suggestions, answer, ?_⟩
  intro proposes
  obtain ⟨suggestion, mem, kind⟩ := proposes
  -- One such proposal tells the place, and with it all that are made.
  obtain ⟨-, id', candidates, found', proposed, rfl⟩ := exists_candidates answer mem
  obtain rfl : id = id' := Option.some.inj (found.symm.trans found')
  obtain ⟨c, c_mem, same⟩ := exists_candidate_of_mem_rank mem
  rw [same] at kind
  obtain ⟨name, place, rfl⟩ := place_of_attributeName proposed c_mem kind
  obtain ⟨tag, named, latest, current⟩ := cursor_of_attributeName found smooth place
  refine ⟨tag, named, OffersAttributes.perm ?_ (perm_labels_rank t offset _)⟩
  have offers := offersAttributes_attributeCandidates ⟨t, parse v t, offset, v, options, id⟩
    (Cursor.locate v t ((parse v t).node id).start offset).tag name
  have own : (Cursor.locate v t ((parse v t).node id).start offset).tag.getD [] = tag := by
    rw [latest]
    rfl
  rwa [own, current] at offers

/-- A vocabulary that knows two attributes of one tag. -/
def paragraphAttributes : Vocabulary :=
  { Vocabulary.empty with
    attributesFor := fun tag =>
      if tag = "p".toList then [⟨"title".toList, none⟩, ⟨"lang".toList, none⟩] else [] }

/-- A start tag with an attribute, and room for another one. -/
def titledParagraph : Text := "<p title ".toList

/-- Behind the attribute the other one is proposed. -/
theorem complete_attributes_titledParagraph :
    ∃ suggestions,
      (parse paragraphAttributes titledParagraph).complete titledParagraph paragraphAttributes {} 9 =
        .ok suggestions ∧ (suggestions.map (·.label)).countP (·.equalsIgnoringCase "lang".toList) = 1 ∧
        "title".toList ∉ suggestions.map (·.label) := by
  have tokens : tokensOf paragraphAttributes titledParagraph =
      [⟨.startTagOpen, ⟨0, 1⟩, ['<'], none⟩, ⟨.startTag, ⟨1, 2⟩, ['p'], none⟩,
        ⟨.whitespace, ⟨2, 3⟩, [' '], none⟩, ⟨.attributeName, ⟨3, 8⟩, "title".toList, none⟩,
        ⟨.whitespace, ⟨8, 9⟩, [' '], none⟩, ⟨.eof, ⟨9, 9⟩, [], none⟩] := by
    decide +kernel
  have node : (parse paragraphAttributes titledParagraph).node 1 =
      { start := 0, stop := 9, name := some ⟨"p".toList, ⟨1, 2⟩⟩,
        attributes := #[⟨"title".toList, ⟨3, 8⟩, none⟩], parent := some 0 } := by
    decide +kernel
  have found : (parse paragraphAttributes titledParagraph).nodeBefore 9 = some 1 := by
    decide +kernel
  obtain ⟨suggestions, answer, offers⟩ := @complete_attributes paragraphAttributes titledParagraph 1 9 {}
    found (by simp [UninterruptedWithin, tokens, Token.Interrupts])
  have kinds :
      (CompletionRequest.candidates
        ⟨titledParagraph, parse paragraphAttributes titledParagraph, 9, paragraphAttributes, {}, 1⟩
        (Cursor.locate paragraphAttributes titledParagraph
          ((parse paragraphAttributes titledParagraph).node 1).start 9)).map
        (·.map (·.suggestion.kind)) = .ok [.attributeName, .attributeName] := by
    decide +kernel
  obtain ⟨candidates, proposed, kinds⟩ := Except.map_eq_ok_iff.mp kinds
  obtain ⟨first, _, rfl, kind, -⟩ := List.map_eq_cons_iff.mp kinds
  -- The candidates are the suggestions, in the order of their ranks.
  have ranked := answer
  rw [complete, if_pos (by decide +kernel), found] at ranked
  obtain ⟨_, same, rfl⟩ := Except.map_eq_ok_iff.mp ranked
  obtain rfl := Except.ok.inj (proposed.symm.trans same)
  obtain ⟨suggestion, mem, own⟩ := exists_mem_rank List.mem_cons_self
  obtain ⟨tag, named, offers⟩ := offers ⟨suggestion, mem, by rw [own]; exact kind⟩
  rw [node] at named offers
  obtain rfl : "p".toList = tag := Option.some.inj named
  refine ⟨_, answer, offers.known ⟨"lang".toList, none⟩ (by decide) (by decide), ?_⟩
  intro mem
  have other := offers.free _ mem (by decide) ⟨"title".toList, ⟨3, 8⟩, none⟩ (by simp) (by decide)
  exact absurd other (by decide)

/-- A start tag that an end tag interrupts, in an element of another tag. -/
def interruptedChild : Text := "<p><b </p ".toList

/-- **Behind an interrupted tag** names are proposed for that tag, and not for the element before the cursor. -/
theorem complete_attributes_interrupted :
    (parse paragraphAttributes interruptedChild).nodeBefore 10 = some 1 ∧
    ((parse paragraphAttributes interruptedChild).node 1).tag = some "p".toList ∧
    ((parse paragraphAttributes interruptedChild).node 1).attributes = #[] ∧
    (paragraphAttributes.attributesFor "p".toList).map (·.name) = ["title".toList, "lang".toList] ∧
    ((parse paragraphAttributes interruptedChild).complete interruptedChild paragraphAttributes {} 10).map
      (·.map fun s => (s.kind, s.label)) = .ok [(.attributeName, "data-".toList)] := by
  refine ⟨?_, ?_, ?_, ?_, ?_⟩ <;> decide +kernel

end Document

end MarkupAnalysis
