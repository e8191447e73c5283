import MarkupAnalysis.Proofs.Document.Brackets
import MarkupAnalysis.Proofs.Document.NamePlaces
import MarkupAnalysis.Selection

/-! # Constructs at a cursor

The constructs around a cursor in an element lie inside one another, and the cursor touches the first of
them. The one place where it does not is between the name of an attribute and its value: there the first
construct is the name.

* **`InsideOut`**, **`Span.Holds`** — spans that lie inside one another, and inside a span.
* **`Attribute.Separates`**, **`Attribute.StandsIn.head?_spansAt`** — the parts of an attribute.
* **`Node.PartsInPlace`** — an element whose parts are in their places.
* **`Node.PartsInPlace.holds_innerSpans`** — the constructs inside an element.
* **`Node.PartsInPlace.head?_innerSpans`** — the first of them. -/

namespace MarkupAnalysis

open Text Document

/-! ## Spans from the inside out -/

/-- **Spans from the inside out**: each lies inside all later ones. -/
def InsideOut (spans : List Span) : Prop :=
  spans.Pairwise fun inner outer => outer.covers inner = true

/-- **A span that holds others**, which are given from the inside out. -/
structure Span.Holds (outer : Span) (spans : List Span) : Prop where
  /-- Each of them lies inside the later ones. -/
  insideOut : InsideOut spans
  /-- All of them lie inside the span. -/
  covers : ∀ s ∈ spans, outer.covers s = true

section spans

variable {s outer outer' : Span} {spans spans' : List Span}

/-- No span. -/
theorem Span.Holds.nil : outer.Holds [] := ⟨.nil, nofun⟩

/-- What holds the span holds all that it holds. -/
theorem Span.Holds.mono (h : outer.Holds spans) (inside : outer'.covers outer = true) :
    outer'.Holds spans :=
  ⟨h.insideOut, fun s mem => covers_trans inside (h.covers s mem)⟩

/-- The span itself may follow. -/
theorem Span.Holds.append_self (h : outer.Holds spans) (same : ∀ s ∈ spans', s = outer) :
    outer.Holds (spans ++ spans') := by
  refine ⟨List.pairwise_append.mpr ⟨h.insideOut, ?_, fun s mem s' mem' => ?_⟩, fun s mem => ?_⟩
  · exact List.pairwise_of_forall_mem_list fun s mem s' mem' => by
      rw [same s mem, same s' mem', covers_self]
  · exact same s' mem' ▸ h.covers s mem
  · rcases List.mem_append.mp mem with before | here
    · exact h.covers s before
    · rw [same s here, covers_self]

end spans

/-! ## Attributes -/

section attributes

variable {t : Text} {a : Attribute} {offset : Nat}

/-- The parts of an attribute come in order. -/
theorem Attribute.StandsIn.inOrder (h : a.StandsIn t) :
    a.nameSpan.start ≤ a.nameSpan.stop ∧ a.nameSpan.stop ≤ a.span.stop ∧
      ∀ value, a.value = some value → a.nameSpan.stop < value.span.start ∧
        value.span.start ≤ value.span.stop ∧ a.span.stop = value.span.stop := by
  have name := le_of_slice? h.name.1
  have of_value (value : AttributeValue) (given : a.value = some value) :
      a.nameSpan.stop < value.span.start ∧ value.span.start ≤ value.span.stop ∧
        a.span.stop = value.span.stop := by
    obtain ⟨slice, blanks, blanks', assignment, -, -⟩ := h.value value given
    have between := stop_of_slice? assignment
    rw [byteLength_append, byteLength_cons] at between
    have := Char.utf8Size_pos '='
    dsimp only at between
    exact ⟨by omega, le_of_slice? slice, by rw [Attribute.span, given]; rfl⟩
  refine ⟨name, ?_, of_value⟩
  cases given : a.value with
  | none => rw [Attribute.span, given]; exact Nat.le_refl _
  | some value =>
    obtain ⟨before, forwards, stop⟩ := of_value value given
    omega

/-- An attribute holds its parts around an offset. -/
theorem Attribute.StandsIn.holds_spansAt (h : a.StandsIn t) (offset : Nat) :
    a.span.Holds (a.spansAt offset) := by
  obtain ⟨name, stop, of_value⟩ := h.inOrder
  have start : a.span.start = a.nameSpan.start := rfl
  unfold Attribute.spansAt
  cases at_value : a.value.filter (·.span.touches offset) with
  | none =>
    have covered : a.span.covers a.nameSpan = true := Span.covers_iff.mpr ⟨Nat.le_refl _, stop⟩
    exact ⟨by simp [InsideOut, covered], by simp [covered]⟩
  | some value =>
    have given : a.value = some value := (Option.filter_eq_some_iff.mp at_value).1
    obtain ⟨before, forwards, stop'⟩ := of_value value given
    have inner := h.inside value given
    have outer : a.span.covers value.span = true :=
      Span.covers_iff.mpr ⟨by omega, Nat.le_of_eq stop'.symm⟩
    have content := Span.covers_trans outer inner
    dsimp only
    split
    · exact ⟨by simp [InsideOut, inner, outer, content], by simp [outer, content]⟩
    · exact ⟨by simp [InsideOut, outer], by simp [outer]⟩

/-- **The offset is between the name and the value** of the attribute, and touches neither. -/
def Attribute.Separates (a : Attribute) (offset : Nat) : Prop :=
  ∃ value, a.value = some value ∧ a.nameSpan.stop < offset ∧ offset < value.span.start

/-- An attribute is around the offsets between its name and its value. -/
theorem Attribute.StandsIn.touches_of_separates (h : a.StandsIn t) (separates : a.Separates offset) :
    a.span.touches offset = true := by
  obtain ⟨value, given, behind, before⟩ := separates
  obtain ⟨name, -, of_value⟩ := h.inOrder
  obtain ⟨-, forwards, stop⟩ := of_value value given
  have start : a.span.start = a.nameSpan.start := rfl
  rw [Span.touches_iff]
  omega

/-- The first of the parts is at the offset, unless that is between the name and the value. -/
theorem Attribute.StandsIn.head?_spansAt (h : a.StandsIn t) (touches : a.span.touches offset = true) :
    ∃ first, (a.spansAt offset).head? = some first ∧
      (first.touches offset = true ↔ ¬ a.Separates offset) := by
  obtain ⟨name, -, of_value⟩ := h.inOrder
  have start : a.span.start = a.nameSpan.start := rfl
  unfold Attribute.spansAt
  cases at_value : a.value.filter (·.span.touches offset) with
  | some value =>
    obtain ⟨given, touched⟩ := Option.filter_eq_some_iff.mp at_value
    have together : ¬ a.Separates offset := by
      rintro ⟨value', given', -, before⟩
      obtain rfl := Option.some.inj (given.symm.trans given')
      exact absurd before (Nat.not_lt.mpr (Span.touches_iff.mp touched).1)
    dsimp only
    split
    next content => exact ⟨_, rfl, iff_of_true content together⟩
    next => exact ⟨_, rfl, iff_of_true touched together⟩
  | none =>
    -- Without the value the name comes first, whether the offset is at it or not.
    refine ⟨a.nameSpan, rfl, ?_⟩
    rw [Span.touches_iff] at touches ⊢
    unfold Attribute.Separates
    cases given : a.value with
    | none =>
      have whole : a.span.stop = a.nameSpan.stop := by rw [Attribute.span, given]; rfl
      exact iff_of_true (by omega) nofun
    | some value =>
      obtain ⟨-, -, stop⟩ := of_value value given
      have away : ¬ (value.span.start ≤ offset ∧ offset ≤ value.span.stop) := by
        rw [← Span.touches_iff]
        exact Option.filter_eq_none_iff.mp at_value value given
      simp only [Option.some.injEq, exists_eq_left']
      omega

end attributes

/-! ## Tags and content -/

namespace Node

/-- What stands between the brackets of the start tag. -/
def interior (n : Node) : Span := ⟨n.start + 1, n.interiorStop⟩

/-- The start tag; the whole element if the tag is not finished. -/
def startTag (n : Node) : Span := ⟨n.start, n.contentStart⟩

/-- **An element whose parts are in their places.** -/
structure PartsInPlace (t : Text) (n : Node) : Prop where
  /-- The tags and the content are in order. -/
  inOrder : n.InOrder
  /-- The attributes are in the start tag. -/
  attributes : n.AttributesStandIn t
  /-- They are between its brackets. -/
  brackets : n.BetweenBrackets
  /-- The names are in the tags. -/
  names : n.NamesInPlace

variable {t : Text} {n : Node} {a a' : Attribute} {offset : Nat} {s : Span}

/-- What stands between the brackets is one span at most. -/
theorem mem_interiorSpans_iff : s ∈ n.interiorSpans offset ↔
    s = n.interior ∧ n.start < n.interiorStop ∧ n.interior.touches offset = true := by
  unfold interiorSpans
  dsimp only
  split
  next here =>
    rw [Bool.and_eq_true, decide_eq_true_eq] at here
    exact List.mem_singleton.trans (and_iff_left here).symm
  next away =>
    rw [Bool.and_eq_true, decide_eq_true_eq] at away
    exact iff_of_false nofun fun found => away found.2

/-- The constructs of the attribute around an offset. -/
def attributeSpans (n : Node) (offset : Nat) : List Span :=
  match n.attributes.find? (·.span.touches offset) with
  | some a => a.spansAt offset
  | none => []

/-- The start tag, if it is finished. -/
def tagSpans (n : Node) : List Span := (n.startTagEnd.map fun stop => (⟨n.start, stop⟩ : Span)).toList

theorem startTagSpans_eq (n : Node) (offset : Nat) :
    n.startTagSpans offset = n.attributeSpans offset ++ n.interiorSpans offset ++ n.tagSpans := rfl

/-- A finished start tag is the start tag. -/
theorem mem_tagSpans_iff : s ∈ n.tagSpans ↔ s = n.startTag ∧ n.startTagEnd.isSome := by
  unfold tagSpans startTag contentStart
  cases n.startTagEnd <;> simp

/-- The content is the content where the start tag is finished. -/
theorem mem_contentSpans_iff : s ∈ n.contentSpans ↔ s = n.contentSpan ∧ n.startTagEnd.isSome := by
  unfold contentSpans
  split <;> simp [*]

namespace PartsInPlace

/-- The start tag holds what stands between its brackets. -/
theorem startTag_covers (h : n.PartsInPlace t) :
    n.startTag.covers n.interior = true ∧ n.span.covers n.startTag = true := by
  obtain ⟨-, start, content, stop⟩ := h.inOrder
  refine ⟨Span.covers_iff.mpr ⟨Nat.le_succ _, ?_⟩, Span.covers_iff.mpr ⟨Nat.le_refl _, ?_⟩⟩
  · show n.interiorStop ≤ n.contentStart
    unfold interiorStop contentStart
    cases n.startTagEnd with
    | none => exact Nat.le_refl _
    | some e => dsimp only [Option.getD]; split <;> omega
  · exact Nat.le_trans content stop

/-- What stands between the brackets holds the attributes. -/
theorem interior_covers (h : n.PartsInPlace t) (mem : a ∈ n.attributes) :
    n.interior.covers a.span = true := by
  have opening := h.brackets.opening a mem
  obtain ⟨finished, unfinished⟩ := h.attributes.inTag a mem
  refine Span.covers_iff.mpr ⟨opening, ?_⟩
  show a.span.stop ≤ n.interiorStop
  unfold interiorStop
  cases ends : n.startTagEnd with
  | none => exact unfinished ends
  | some e =>
    dsimp only
    split
    next selfClosing =>
      obtain ⟨e', ends', slash⟩ := h.brackets.closing selfClosing
      obtain rfl := Option.some.inj (ends.symm.trans ends')
      have := slash a mem
      omega
    next =>
      have := finished e ends
      omega

/-- The constructs of an attribute are between the brackets. -/
theorem holds_attributeSpans (h : n.PartsInPlace t) (offset : Nat) :
    n.interior.Holds (n.attributeSpans offset) := by
  unfold attributeSpans
  cases here : n.attributes.find? (·.span.touches offset) with
  | none => exact .nil
  | some a =>
    have mem := Array.mem_of_find?_eq_some here
    exact ((h.attributes.each a mem).holds_spansAt offset).mono (h.interior_covers mem)

/-- The constructs in the start tag. -/
theorem holds_startTagSpans (h : n.PartsInPlace t) (offset : Nat) :
    n.startTag.Holds (n.startTagSpans offset) := by
  have interior := (h.holds_attributeSpans offset).append_self
    fun s (mem : s ∈ n.interiorSpans offset) => (mem_interiorSpans_iff.mp mem).1
  exact (interior.mono h.startTag_covers.1).append_self fun s mem => (mem_tagSpans_iff.mp mem).1

/-- The element holds its content. -/
theorem span_covers_contentSpan (h : n.PartsInPlace t) : n.span.covers n.contentSpan = true := by
  obtain ⟨-, start, -, stop⟩ := h.inOrder
  exact Span.covers_iff.mpr ⟨start, stop⟩

/-- The constructs in the end tag. -/
theorem holds_endTagSpans (h : n.PartsInPlace t) {e : EndTag} (met : n.endTag = some e) (offset : Nat) :
    n.span.Holds (n.endTagSpans e offset) := by
  obtain ⟨-, start, content, -⟩ := h.inOrder
  rw [contentStop_eq met] at content
  have tag : n.span.covers ⟨e.start, n.stop⟩ = true :=
    Span.covers_iff.mpr ⟨Nat.le_trans start content, Nat.le_refl _⟩
  obtain ⟨behind, -, inside⟩ := h.names.endNameSpan e.nameSpan (by rw [endNameSpan, met]; rfl)
  rw [contentStop_eq met] at behind
  have name : (⟨e.start, n.stop⟩ : Span).covers e.nameSpan = true :=
    Span.covers_iff.mpr ⟨Nat.le_of_lt behind, inside⟩
  have touched : (⟨e.start, n.stop⟩ : Span).Holds
      (if e.nameSpan.touches offset then [e.nameSpan] else []) := by
    split
    · exact ⟨List.pairwise_singleton _ _, by simp [name]⟩
    · exact .nil
  exact (touched.append_self fun s mem => List.mem_singleton.mp mem).mono tag

/-- **The constructs inside an element** lie inside one another, and inside the element. -/
theorem holds_innerSpans (h : n.PartsInPlace t) (offset : Nat) :
    n.span.Holds (n.innerSpans offset) := by
  unfold innerSpans
  split
  · exact (h.holds_startTagSpans offset).mono h.startTag_covers.2
  · cases met : n.endTag.filter (·.start < offset) with
    | some e => exact h.holds_endTagSpans (Option.filter_eq_some_iff.mp met).1 offset
    | none =>
      have content : n.contentSpan.Holds n.contentSpans :=
        Span.Holds.nil.append_self fun s mem => (mem_contentSpans_iff.mp mem).1
      exact content.mono h.span_covers_contentSpan

end PartsInPlace

/-! ## The first construct -/

/-- The offset is between the name of an attribute and its value. -/
def BetweenNameAndValue (n : Node) (offset : Nat) : Prop := ∃ a ∈ n.attributes, a.Separates offset

namespace PartsInPlace

/-- Only one attribute is around an offset. -/
theorem attribute_unique (h : n.PartsInPlace t) (mem : a ∈ n.attributes) (mem' : a' ∈ n.attributes)
    (touches : a.span.touches offset = true) (touches' : a'.span.touches offset = true) : a = a' := by
  by_contra differ
  have : Std.Symm fun a a' : Attribute => a.span.stop < a'.span.start ∨ a'.span.stop < a.span.start :=
    ⟨fun _ _ => Or.symm⟩
  have apart : n.attributes.toList.Pairwise fun a a' =>
      a.span.stop < a'.span.start ∨ a'.span.stop < a.span.start := h.attributes.apart.imp .inl
  have := apart.forall (Array.mem_toList_iff.mpr mem) (Array.mem_toList_iff.mpr mem') differ
  rw [Span.touches_iff] at touches touches'
  omega

/-- Between a name and a value the offset is in front of the content. -/
theorem lt_contentStart_of_gap (h : n.PartsInPlace t) (gap : n.BetweenNameAndValue offset) :
    offset < n.contentStart := by
  obtain ⟨a, mem, separates⟩ := gap
  obtain ⟨value, given, behind, before⟩ := separates
  obtain ⟨-, forwards, stop⟩ := (h.attributes.each a mem).inOrder.2.2 value given
  obtain ⟨-, inside⟩ := Span.covers_iff.mp (h.interior_covers mem)
  obtain ⟨-, in_tag⟩ := Span.covers_iff.mp h.startTag_covers.1
  have : n.interior.stop ≤ n.contentStart := in_tag
  omega

/-- All constructs that are no parts of an attribute are at the offset. -/
theorem touches_of_mem_innerSpans (around : n.start < offset ∧ offset ≤ n.stop)
    (no_attribute : offset < n.contentStart → n.attributes.find? (·.span.touches offset) = none) :
    ∀ s ∈ n.innerSpans offset, s.touches offset = true := by
  intro s mem
  unfold innerSpans at mem
  split at mem
  next in_tag =>
    rw [startTagSpans_eq, attributeSpans, no_attribute in_tag] at mem
    rcases List.mem_append.mp mem with interior | tag
    · obtain ⟨rfl, -, touched⟩ := mem_interiorSpans_iff.mp interior
      exact touched
    · rw [(mem_tagSpans_iff.mp tag).1, Span.touches_iff]
      exact ⟨Nat.le_of_lt around.1, Nat.le_of_lt in_tag⟩
  next behind =>
    cases met : n.endTag.filter (·.start < offset) with
    | some e =>
      rw [met] at mem
      obtain ⟨-, before⟩ := Option.filter_eq_some_iff.mp met
      rcases List.mem_append.mp mem with name | tag
      · split at name
        next touched => exact List.mem_singleton.mp name ▸ touched
        next => cases name
      · rw [List.mem_singleton.mp tag, Span.touches_iff]
        exact ⟨Nat.le_of_lt (of_decide_eq_true before), around.2⟩
    | none =>
      rw [met] at mem
      rw [(mem_contentSpans_iff.mp mem).1, Span.touches_iff]
      -- Without an end tag before the offset the content reaches it.
      refine ⟨Nat.le_of_not_lt behind, ?_⟩
      show offset ≤ n.contentStop
      unfold contentStop endTagStart
      cases given : n.endTag with
      | none => exact around.2
      | some e =>
        have := Option.filter_eq_none_iff.mp met e given
        rw [decide_eq_true_eq] at this
        exact Nat.le_of_not_lt this

/-- **The first construct is at the offset**, unless that is between a name and a value. -/
theorem head?_innerSpans (h : n.PartsInPlace t) (around : n.start < offset ∧ offset ≤ n.stop)
    (spans : List Span) : ∃ first, (n.innerSpans offset ++ n.span :: spans).head? = some first ∧
      (first.touches offset = true ↔ ¬ n.BetweenNameAndValue offset) := by
  -- An attribute at the offset comes before all else in the start tag.
  by_cases found : ∃ a, offset < n.contentStart ∧ n.attributes.find? (·.span.touches offset) = some a
  · obtain ⟨a, in_tag, here⟩ := found
    have mem := Array.mem_of_find?_eq_some here
    have touched : a.span.touches offset = true :=
      Array.find?_some (p := fun a : Attribute => a.span.touches offset) here
    obtain ⟨first, head, touches⟩ := (h.attributes.each a mem).head?_spansAt touched
    have gap : n.BetweenNameAndValue offset ↔ a.Separates offset := by
      refine ⟨fun ⟨a', mem', separates⟩ => ?_, fun separates => ⟨a, mem, separates⟩⟩
      have touched' := (h.attributes.each a' mem').touches_of_separates separates
      exact h.attribute_unique mem' mem touched' touched ▸ separates
    refine ⟨first, ?_, touches.trans (not_congr gap.symm)⟩
    rw [innerSpans, if_pos in_tag, startTagSpans_eq, attributeSpans, here]
    simp [head]
  · have no_attribute (in_tag : offset < n.contentStart) :
        n.attributes.find? (·.span.touches offset) = none :=
      Option.eq_none_iff_forall_ne_some.mpr fun a here => found ⟨a, in_tag, here⟩
    have inner := touches_of_mem_innerSpans around no_attribute
    have no_gap : ¬ n.BetweenNameAndValue offset := by
      rintro ⟨a, mem, separates⟩
      have none_here := no_attribute (h.lt_contentStart_of_gap ⟨a, mem, separates⟩)
      have touched := (h.attributes.each a mem).touches_of_separates separates
      exact Array.find?_eq_none.mp none_here a mem touched
    cases constructs : n.innerSpans offset with
    | nil =>
      have whole : n.span.touches offset = true :=
        Span.touches_iff.mpr ⟨Nat.le_of_lt around.1, around.2⟩
      exact ⟨n.span, rfl, iff_of_true whole no_gap⟩
    | cons first others =>
      exact ⟨first, rfl, iff_of_true (inner first (constructs ▸ List.mem_cons_self)) no_gap⟩

end PartsInPlace

end Node

end MarkupAnalysis
