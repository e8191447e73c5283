import MarkupAnalysis.Hover
import MarkupAnalysis.Pairing
import MarkupAnalysis.Proofs.Document.NameTable

/-! # The name under the cursor

There are two ways to the name at an offset. The pairs of names are looked up in the table of all names; the
highlights and the hover take the node at the offset and look at its names. They agree, since the node at an
offset in a name is the element of the name.

* **`Document.nameOwner_eq_some_iff`** — the way through the tree finds the element of the name.
* **`Document.linkedRanges_eq_some_iff`**, **`Document.highlights_eq_pair_iff`** — what an editor changes
  and shows together.
* **`Document.exists_hover`** — the hover of a known tag is about the name.
* **`parse_findsNames`** — both ways find the same names. -/

namespace MarkupAnalysis

open Text Document

/-- An element with two names has both, in that order. -/
theorem Node.nameSpans_eq_pair_iff {n : Node} {a b : Span} :
    n.nameSpans = [a, b] ↔ n.nameSpan = some a ∧ n.endNameSpan = some b := by
  unfold nameSpans
  cases n.nameSpan <;> cases n.endNameSpan <;> simp

/-- The names of an element are those of its entries. -/
theorem Node.mem_nameSpans_iff {n : Node} {id : NodeId} {span : Span} :
    span ∈ n.nameSpans ↔ ∃ isEnd, ⟨span, id, isEnd⟩ ∈ namesOf id n := by
  simp [nameSpans, mem_namesOf_iff]

namespace Document

variable {v : Vocabulary} {t : Text} {entry : NameEntry} {offset : Nat} {id : NodeId}

/-! ## The element of the name -/

/-- What the node at an offset is known to be. -/
theorem lt_size_of_nodeAt (found : (parse v t).nodeAt offset = some id) :
    id < (parse v t).nodes.size := by
  have h := preordered_parse v t
  cases (h.nodeAt_eq_some_iff.mp found).2 with
  | root => exact h.wellFormed.root.1
  | element latest => exact latest.element.2

/-- **The way through the tree** finds the element whose name is at the offset. -/
theorem nameOwner_eq_some_iff : (parse v t).nameOwner offset = some id ↔
    ∃ entry, (parse v t).HasName entry ∧ entry.node = id ∧ entry.span.touches offset = true := by
  rw [nameOwner, Option.filter_eq_some_iff, List.any_eq_true]
  constructor
  · rintro ⟨found, span, mem, touches⟩
    obtain ⟨isEnd, mem⟩ := Node.mem_nameSpans_iff.mp mem
    exact ⟨_, .of_mem (lt_size_of_nodeAt found) mem, rfl, touches⟩
  · rintro ⟨entry, named, rfl, touches⟩
    exact ⟨named.nodeAt_eq touches, entry.span, Node.mem_nameSpans_iff.mpr ⟨entry.isEnd, named.2⟩, touches⟩

/-- The highlights at a name are the names of its element. -/
theorem HasName.highlights_eq (named : (parse v t).HasName entry)
    (touches : entry.span.touches offset = true) :
    (parse v t).highlights offset = ((parse v t).node entry.node).nameSpans := by
  rw [highlights, nameOwner_eq_some_iff.mpr ⟨entry, named, rfl, touches⟩]

/-- Where there are highlights, there is a name. -/
theorem exists_name_of_highlights (some_name : (parse v t).highlights offset ≠ []) :
    ∃ entry, (parse v t).HasName entry ∧ entry.span.touches offset = true := by
  unfold highlights at some_name
  cases found : (parse v t).nameOwner offset with
  | none => simp [found] at some_name
  | some id =>
    obtain ⟨entry, named, -, touches⟩ := nameOwner_eq_some_iff.mp found
    exact ⟨entry, named, touches⟩

/-! ## Two names -/

/-- The linked ranges are the names of a pair, the one in the start tag first. -/
theorem linkedRanges_eq_some_iff {d : Document} {a b : Span} : d.linkedRanges offset = some (a, b) ↔
    ∃ m, d.matchingTag offset = some m ∧ (d.node m.node).nameSpan = some a ∧
      (d.node m.node).endNameSpan = some b := by
  simp only [linkedRanges, bind, Option.bind_eq_some_iff, pure, Option.some_inj, Prod.mk.injEq]
  grind

/-- Two highlights are the names of an element, the one in the start tag first. -/
theorem highlights_eq_pair_iff {a b : Span} : (parse v t).highlights offset = [a, b] ↔
    ∃ entry, (parse v t).HasName entry ∧ entry.span.touches offset = true ∧
      ((parse v t).node entry.node).nameSpan = some a ∧
      ((parse v t).node entry.node).endNameSpan = some b := by
  constructor
  · intro both
    obtain ⟨entry, named, touches⟩ := exists_name_of_highlights (by rw [both]; nofun)
    rw [named.highlights_eq touches] at both
    exact ⟨entry, named, touches, Node.nameSpans_eq_pair_iff.mp both⟩
  · rintro ⟨entry, named, touches, both⟩
    rw [named.highlights_eq touches]
    exact Node.nameSpans_eq_pair_iff.mpr both

/-- **Linked are the names that are highlighted**, where there are two. -/
theorem linkedRanges_iff_highlights {a b : Span} :
    (parse v t).linkedRanges offset = some (a, b) ↔ (parse v t).highlights offset = [a, b] := by
  rw [linkedRanges_eq_some_iff, highlights_eq_pair_iff]
  constructor
  · rintro ⟨m, found, named, met⟩
    rw [matchingTag_eq, Option.bind_eq_some_iff] at found
    obtain ⟨entry, at_name, paired⟩ := found
    obtain ⟨counterpart, -, rfl⟩ := Option.map_eq_some_iff.mp paired
    obtain ⟨has_name, touches⟩ := nameAt_eq_some_iff.mp at_name
    exact ⟨entry, has_name, touches, named, met⟩
  · rintro ⟨entry, has_name, touches, named, met⟩
    obtain ⟨counterpart, other⟩ : ∃ span, (parse v t).counterpartOf entry = some span := by
      unfold counterpartOf
      split
      · exact ⟨a, named⟩
      · exact ⟨b, met⟩
    refine ⟨⟨entry.node, entry.span, counterpart⟩, ?_, named, met⟩
    rw [matchingTag_eq, nameAt_eq_some_iff.mpr ⟨has_name, touches⟩, Option.bind_some, other]
    rfl

/-! ## The hover -/

/-- **The hover at a name of a known tag** is about this name. -/
theorem HasName.exists_hover {tag : Text} (named : (parse v t).HasName entry)
    (touches : entry.span.touches offset = true)
    (tagged : ((parse v t).node entry.node).tag = some tag) (known : v.isKnownTag tag = true) :
    ∃ hover, (parse v t).hover v offset = some hover ∧ hover.span = entry.span := by
  have here : (parse v t).hover v offset =
      Hover.ofNode v ((parse v t).node entry.node) tag offset := by
    simp [hover, named.nodeAt_eq touches, tagged, known]
  have filtered : (some entry.span).filter (·.touches offset) = some entry.span :=
    Option.filter_eq_some_iff.mpr ⟨rfl, touches⟩
  rw [here]
  rcases (mem_namesOf_iff.mp named.2).2 with ⟨at_start, has⟩ | ⟨at_end, has⟩
  · rw [Hover.ofNode, has, filtered]
    exact ⟨_, rfl, rfl⟩
  · -- The name in the start tag is another one, and elsewhere.
    have no_start : ((parse v t).node entry.node).nameSpan.filter (·.touches offset) = none := by
      rw [Option.filter_eq_none_iff]
      intro span start_name start_touches
      have mem : ⟨span, entry.node, false⟩ ∈ namesOf entry.node ((parse v t).node entry.node) :=
        mem_namesOf_iff.mpr ⟨rfl, .inl ⟨rfl, start_name⟩⟩
      have same := named.eq_of_touches (.of_mem named.1.2 mem) touches start_touches
      rw [same] at at_end
      cases at_end
    rw [Hover.ofNode, no_start, has, filtered]
    exact ⟨_, rfl, rfl⟩

end Document

/-- **Both ways find the same names.** The linked ranges are the highlights where there are two of these.
There are highlights exactly where an offset touches a name of an element, and they are the names of that
element. If the vocabulary knows the tag, the hover is about the name at the offset, which is also the one
that is paired with another one, if there is one. -/
theorem parse_findsNames (v : Vocabulary) (t : Text) (offset : Nat) :
    (∀ a b, (parse v t).linkedRanges offset = some (a, b) ↔ (parse v t).highlights offset = [a, b]) ∧
    ((parse v t).highlights offset ≠ [] ↔
      ∃ id < (parse v t).nodes.size, ∃ span ∈ ((parse v t).node id).nameSpans,
        span.touches offset = true) ∧
    (∀ id < (parse v t).nodes.size, ∀ span ∈ ((parse v t).node id).nameSpans,
      span.touches offset = true →
      (parse v t).highlights offset = ((parse v t).node id).nameSpans ∧
      ∀ tag, ((parse v t).node id).tag = some tag → v.isKnownTag tag = true →
        ∃ hover, (parse v t).hover v offset = some hover ∧ hover.span = span ∧
          ∀ m, (parse v t).matchingTag offset = some m → hover.span = m.current) := by
  have exists_entry {id : NodeId} {span : Span} (known : id < (parse v t).nodes.size)
      (mem : span ∈ ((parse v t).node id).nameSpans) :
      ∃ isEnd, (parse v t).HasName ⟨span, id, isEnd⟩ :=
    (Node.mem_nameSpans_iff.mp mem).imp fun _ mem => .of_mem known mem
  refine ⟨fun a b => linkedRanges_iff_highlights, ⟨?found, ?shown⟩, ?same⟩
  case found =>
    intro some_name
    obtain ⟨entry, named, touches⟩ := exists_name_of_highlights some_name
    exact ⟨entry.node, named.1.2, entry.span, Node.mem_nameSpans_iff.mpr ⟨entry.isEnd, named.2⟩, touches⟩
  case shown =>
    rintro ⟨id, known, span, mem, touches⟩
    obtain ⟨isEnd, named⟩ := exists_entry known mem
    rw [named.highlights_eq touches]
    exact List.ne_nil_of_mem mem
  case same =>
    intro id known span mem touches
    obtain ⟨isEnd, named⟩ := exists_entry known mem
    refine ⟨named.highlights_eq touches, fun tag tagged known_tag => ?_⟩
    obtain ⟨hover, found, about⟩ := named.exists_hover touches tagged known_tag
    refine ⟨hover, found, about, fun m paired => ?_⟩
    rw [matchingTag_eq, nameAt_eq_some_iff.mpr ⟨named, touches⟩] at paired
    obtain ⟨counterpart, -, rfl⟩ := Option.map_eq_some_iff.mp paired
    exact about

end MarkupAnalysis
