import MarkupAnalysis.Proofs.Document.Attributes
import MarkupAnalysis.Proofs.Document.Locating
import MarkupAnalysis.Proofs.Document.Tags

/-! # Where names stand

The name in a start tag stands before the content of its element and the name in an end tag behind it.
Elements lie inside one another or apart, so there is text between any two names, and an offset touches one
name at most.

* **`Document.Preordered.inside_or_apart`**, **`Document.Preordered.content_of_mem_descendants`** — how two
  elements lie.
* **`Builder.nameEnds_of_nodeStep`** — every token keeps the names before the content.
* **`Node.NamesInPlace`**, **`namesInPlace_parse`** — where the names of an element stand.
* **`Document.HasName.apart`** — there is text between any two names.
* **`Document.HasName.nodeAt_eq`** — the node at an offset is the element whose name is there. -/

namespace MarkupAnalysis

open Text Document

/-! ## Two elements -/

namespace Document.Preordered

variable {d : Document} {length a e : Nat}

/-- Two children lie apart. -/
theorem children_apart {id x y : NodeId} (h : d.Preordered length) (known : id < d.nodes.size)
    (x_mem : x ∈ d.children id) (y_mem : y ∈ d.children id) (differ : x ≠ y) :
    (d.node x).stop ≤ (d.node y).start ∨ (d.node y).stop ≤ (d.node x).start :=
  (eq_or_rel_of_pairwise (h.children_pairwise known) x_mem y_mem).resolve_left differ

/-- **Of two elements** the later one is inside the earlier one or behind it. -/
theorem inside_or_apart (h : d.Preordered length) (element : a ≠ root) (later : a < e)
    (known : e < d.nodes.size) :
    e ∈ d.descendants a ∨ (d.node a).stop ≤ (d.node e).start := by
  -- From the parent of the later one, which comes earlier.
  induction e using Nat.strong_induction_on with
  | _ e ih =>
    have a_known : a < d.nodes.size := Nat.lt_trans later known
    have e_element : d.IsElement e := ⟨Nat.ne_of_gt (Nat.zero_lt_of_lt later), known⟩
    obtain ⟨parent, before, named, child⟩ := h.exists_parent known e_element.1
    have parent_known : parent < d.nodes.size := Nat.lt_trans before known
    rcases Nat.lt_trichotomy a parent with inner | rfl | outer
    · rcases ih parent before inner parent_known with inside | apart
      · exact .inl ((h.mem_descendants_iff_parent a_known known named).mpr (.inr inside))
      · have starts := (h.covers_of_mem_descendants parent_known
          (h.mem_descendants_of_mem_children parent_known child)).1
        exact .inr (Nat.le_trans apart starts)
    · exact .inl (h.mem_descendants_of_mem_children a_known child)
    · -- The earlier one is inside another child of that parent.
      have a_inside : a ∈ d.descendants parent := by
        obtain ⟨next, -, -, -, all⟩ := h.exists_descendants parent_known
        have e_inside := h.mem_descendants_of_mem_children parent_known child
        rw [all, List.mem_range'_1] at e_inside ⊢
        omega
      obtain ⟨c, c_child, below⟩ := (h.mem_descendants_iff_child parent_known).mp a_inside
      have c_known := (h.of_mem_children parent_known c_child).2.1
      have bounds : c ≤ a ∧ (d.node c).start ≤ (d.node a).start ∧ (d.node a).stop ≤ (d.node c).stop := by
        rcases below with rfl | below
        · exact ⟨Nat.le_refl _, Nat.le_refl _, Nat.le_refl _⟩
        · exact ⟨Nat.le_of_lt (h.of_mem_descendants c_known below).1,
            h.covers_of_mem_descendants c_known below⟩
      have differ : c ≠ e := Nat.ne_of_lt (Nat.lt_of_le_of_lt bounds.1 later)
      rcases h.children_apart parent_known c_child child differ with apart | wrong
      · exact .inr (Nat.le_trans bounds.2.2 apart)
      · have starts := h.starts a e (Nat.pos_of_ne_zero element) later known
        have some_text := h.start_lt_stop e_element
        omega

/-- **What is inside an element** lies between its tags. -/
theorem content_of_mem_descendants (h : d.Preordered length) (element : d.IsElement a)
    (mem : e ∈ d.descendants a) :
    (d.node a).contentStart ≤ (d.node e).start ∧ (d.node e).stop ≤ (d.node a).contentStop := by
  obtain ⟨c, child, below⟩ := (h.mem_descendants_iff_child element.2).mp mem
  obtain ⟨stop, ends, starts, stops⟩ := h.wellFormed.content a element.2 element.1 c child
  have content : (d.node a).contentStart = stop := Node.contentStart_eq ends
  rw [content]
  rcases below with rfl | below
  · exact ⟨starts, stops⟩
  · have covered := h.covers_of_mem_descendants (h.of_mem_children element.2 child).2.1 below
    exact ⟨Nat.le_trans starts covered.1, Nat.le_trans covered.2 stops⟩

end Document.Preordered

/-! ## Names end before the content -/

/-- The name in the start tag ends before the content starts. -/
def Node.NameEnds (n : Node) : Prop :=
  ∀ name, n.name = some name → name.span.stop ≤ n.contentStart

namespace Builder

variable {v : Vocabulary} {t : Text} {b : Builder} {s : Tokenizer} {id : NodeId} {n : Node}

/-- **Every way of changing a node** keeps its name before its content. -/
theorem nameEnds_of_nodeStep (so_far : ∀ id < b.nodes.size, (b.node id).NameEnds)
    (attributes : b.AttributesStandIn t s) (here : s.At t)
    (stands : b.Stands t.byteLength s.mode s.position)
    (step : b.NodeStep v t.byteLength s.token id n) : n.NameEnds := by
  obtain ⟨frontier, -, nested⟩ := stands.exists_nested
  have of_reading (reading : b.startTag = some id) :
      (b.node id).NameEnds ∧ (b.node id).startTagEnd = none ∧ (b.node id).stop = t.byteLength := by
    obtain ⟨inside, -, -, unfinished, -, stop, -⟩ := nested.reading id reading
    exact ⟨so_far id inside, unfinished, stop⟩
  -- The name has been read before the token that ends the start tag.
  have ends_by (reading : b.startTag = some id) (name : TagName) (named : (b.node id).name = some name) :
      name.span.stop ≤ s.rest.position :=
    Nat.le_trans (Nat.le_of_lt_succ ((attributes.reached id reading).name name named))
      Tokenizer.position_le_rest
  -- Behind a complete start tag the end of the element has no part in this.
  have of_startTagEnd {stop : Nat} {e : Nat} {closed : Bool} {endTag : Option EndTag}
      (known : (b.node id).NameEnds) (ends : (b.node id).startTagEnd = some e) :
      { b.node id with stop, closed, endTag }.NameEnds := by
    intro name named
    have := known name named
    rw [Node.contentStart, ends] at this ⊢
    exact this
  cases step with
  | keeps known | adopts _ known => exact so_far id known
  | opens => rintro name ⟨⟩
  | names kind reading =>
    obtain ⟨-, unfinished, stop⟩ := of_reading reading
    rintro name named
    obtain rfl := Option.some.inj named
    show s.rest.position ≤ (b.node id).startTagEnd.getD (b.node id).stop
    rw [unfinished, stop]
    exact here.rest.position_le
  | interrupts _ reading =>
    obtain ⟨-, unfinished, -⟩ := of_reading reading
    intro name named
    show name.span.stop ≤ (b.node id).startTagEnd.getD s.rest.position
    rw [unfinished]
    exact ends_by reading name named
  | endsStartTag _ reading | selfCloses _ reading => exact ends_by reading
  | addsAttribute _ reading | addsValue _ reading => exact (of_reading reading).1
  | cutsOff kind start mem =>
    obtain ⟨e, ends⟩ := stands.exists_startTagEnd kind mem
    exact of_startTagEnd (so_far id (nested.lt_size mem)) ends
  | closes kind opening mem =>
    obtain ⟨e, ends⟩ := stands.exists_startTagEnd kind mem
    exact of_startTagEnd (so_far id (nested.lt_size mem)) ends
  | endsEndTag kind ended =>
    obtain ⟨-, just_ended⟩ := stands.justEnded_of_endTagClose kind ended
    obtain ⟨e, ends⟩ := just_ended.startTagEnd
    exact of_startTagEnd (so_far id just_ended.inside) ends

end Builder

namespace Document

variable {v : Vocabulary} {t : Text} {s : Tokenizer} {passed : List Token}

/-- The names after some of the tokens of a text end before the content. -/
theorem nameEnds_built (h : (scanner v t).Passes passed s) :
    ∀ id < (built v t passed).nodes.size, ((built v t passed).node id).NameEnds := by
  refine h.along (P := fun passed _ =>
    ∀ id < (built v t passed).nodes.size, ((built v t passed).node id).NameEnds) ?_ ?_
  · intro id inside
    obtain rfl := Nat.lt_one_iff.mp inside
    exact nofun
  · intro passed s passes _ so_far id inside
    obtain ⟨frontier, -, nested⟩ := (stands_built passes).exists_nested
    rw [built_concat] at inside ⊢
    exact Builder.nameEnds_of_nodeStep so_far (attributesStand_built passes)
      (passes.at_of_at (scanner_at v t)) (stands_built passes)
      (Builder.nodeStep_take nested v s.token inside)

/-- The names of every text end before the content of their elements. -/
theorem nameEnds_parse {id : NodeId} (inside : id < (parse v t).nodes.size) :
    ((parse v t).node id).NameEnds := by
  obtain ⟨passed, s, passes, ended, -⟩ := (scanner v t).exists_passes
  obtain ⟨frontier, -, nested⟩ := (stands_built passes).exists_nested
  have here := passes.at_of_at (scanner_at v t)
  rw [size_parse_of_ended passes ended] at inside
  have known := nameEnds_built passes id inside
  rw [node_parse_of_ended passes ended]
  split
  · rename_i mem
    intro name named
    by_cases reading : (built v t passed).startTag = some id
    · -- An unfinished start tag reaches to the end of the text.
      obtain ⟨-, -, -, unfinished, -⟩ := nested.reading id reading
      have ends := ((attributesStand_built passes).reached id reading).name name named
      show name.span.stop ≤ ((built v t passed).node id).startTagEnd.getD t.byteLength
      rw [unfinished]
      exact Nat.le_trans (Nat.le_of_lt_succ ends) here.position_le
    · obtain ⟨e, ends, -⟩ := nested.openTag id mem reading
      have := known name named
      rw [Node.contentStart, ends] at this
      show name.span.stop ≤ ((built v t passed).node id).startTagEnd.getD t.byteLength
      rw [ends]
      exact this
  · exact known

end Document

/-! ## The names of an element -/

/-- **The names of an element are in their places**: one before the content, the other one behind it. -/
structure Node.NamesInPlace (n : Node) : Prop where
  /-- The name in the start tag. -/
  nameSpan : ∀ span, n.nameSpan = some span →
    n.start < span.start ∧ span.start ≤ span.stop ∧ span.stop ≤ n.contentStart
  /-- The name in the end tag. -/
  endNameSpan : ∀ span, n.endNameSpan = some span →
    n.contentStop < span.start ∧ span.start ≤ span.stop ∧ span.stop ≤ n.stop

/-- A slice is as long as its text. -/
theorem Text.stop_of_slice? {t part : Text} {span : Span} (slice : t.slice? span = some part) :
    span.stop = span.start + part.byteLength := by
  obtain ⟨before, behind, -, -, stop⟩ := slice?_eq_some_iff.mp slice
  exact stop.symm

/-- A slice runs forwards. -/
theorem Text.le_of_slice? {t part : Text} {span : Span} (slice : t.slice? span = some part) :
    span.start ≤ span.stop :=
  Nat.le.intro (stop_of_slice? slice).symm

/-- A stretch of blanks runs forwards. -/
theorem Text.BlankBetween.le {t : Text} {start stop : Nat} (blank : t.BlankBetween start stop) :
    start ≤ stop := by
  obtain ⟨blanks, slice, -⟩ := blank
  exact le_of_slice? slice

/-- **The names of every element are in their places.** -/
theorem namesInPlace_parse {v : Vocabulary} {t : Text} {id : NodeId}
    (element : (parse v t).IsElement id) : ((parse v t).node id).NamesInPlace := by
  have tags := tagsStandIn_parse element.2 element.1
  constructor
  · rintro span has_name
    obtain ⟨name, named, rfl⟩ := Option.map_eq_some_iff.mp has_name
    obtain ⟨slice, -, blank⟩ := tags.name name named
    exact ⟨blank.le, le_of_slice? slice, nameEnds_parse element.2 name named⟩
  · rintro span has_end
    obtain ⟨e, met, rfl⟩ := Option.map_eq_some_iff.mp has_end
    obtain ⟨-, blank, ⟨-, name, -, slice, -⟩, ⟨blanks, bracket, closes, -⟩⟩ := tags.endTag e met
    have start : ((parse v t).node id).contentStop = e.start := Node.contentStop_eq met
    have := blank.le
    exact ⟨by omega, le_of_slice? slice, le_of_slice? closes⟩

/-! ## Names of a tree -/

namespace Document

/-- The entry is a name of one of the elements. -/
def HasName (d : Document) (entry : NameEntry) : Prop :=
  d.IsElement entry.node ∧ entry ∈ namesOf entry.node (d.node entry.node)

variable {v : Vocabulary} {t : Text} {entry other : NameEntry}

/-- A name of an element is the one in its start tag or the one in its end tag. -/
theorem mem_namesOf_iff {id : NodeId} {n : Node} : entry ∈ namesOf id n ↔ entry.node = id ∧
    (entry.isEnd = false ∧ n.nameSpan = some entry.span ∨
      entry.isEnd = true ∧ n.endNameSpan = some entry.span) := by
  obtain ⟨span, node, isEnd⟩ := entry
  simp only [namesOf, List.mem_append, Option.mem_toList, Option.map_eq_some_iff]
  grind

/-- An element has one name in each of its tags. -/
theorem eq_of_mem_namesOf {id : NodeId} {n : Node} (mem : entry ∈ namesOf id n)
    (other_mem : other ∈ namesOf id n) (same : entry.isEnd = other.isEnd) : entry = other := by
  rw [mem_namesOf_iff] at mem other_mem
  obtain ⟨span, node, isEnd⟩ := entry
  obtain ⟨span', node', isEnd'⟩ := other
  grind

/-- The root has no names. -/
theorem namesOf_root (v : Vocabulary) (t : Text) : namesOf root ((parse v t).node root) = [] := by
  have no_name : ((parse v t).node root).name = none :=
    Option.map_eq_none_iff.mp (wellFormed_parse v t).root.2.1
  have no_endTag : ((parse v t).node root).endTag = none := by
    by_contra has_endTag
    obtain ⟨e, met⟩ := Option.ne_none_iff_exists'.mp has_endTag
    obtain ⟨before, start, token, inner, outer, found, -, closes⟩ := exists_endTagIn met
    -- End tags close open elements, and the root is none.
    have still_open : root ∈ (built v t before).openElements := by simp [closes.split]
    exact found.atEndTag.nested.ne_root still_open rfl
  simp [namesOf, Node.nameSpan, Node.endNameSpan, no_name, no_endTag]

namespace HasName

/-- Every name of a node is that of an element. -/
theorem of_mem {id : NodeId} (known : id < (parse v t).nodes.size)
    (mem : entry ∈ namesOf id ((parse v t).node id)) : (parse v t).HasName entry := by
  obtain rfl : entry.node = id := (mem_namesOf_iff.mp mem).1
  refine ⟨⟨fun top => ?_, known⟩, mem⟩
  rw [top, namesOf_root] at mem
  cases mem

/-- A name lies inside its element, before the content or behind it. -/
theorem inside (named : (parse v t).HasName entry) :
    ((parse v t).node entry.node).start < entry.span.start ∧ entry.span.start ≤ entry.span.stop ∧
    entry.span.stop ≤ ((parse v t).node entry.node).stop ∧
    (entry.isEnd = false ∧ entry.span.stop ≤ ((parse v t).node entry.node).contentStart ∨
      entry.isEnd = true ∧ ((parse v t).node entry.node).contentStop < entry.span.start) := by
  obtain ⟨element, mem⟩ := named
  have places := namesInPlace_parse element
  obtain ⟨-, starts, content, stops⟩ := ((wellFormed_parse v t).element _ element.2 element.1).1
  rcases (mem_namesOf_iff.mp mem).2 with ⟨at_start, named⟩ | ⟨at_end, named⟩
  · obtain ⟨after, forwards, before⟩ := places.nameSpan _ named
    exact ⟨after, forwards, by omega, .inl ⟨at_start, before⟩⟩
  · obtain ⟨after, forwards, before⟩ := places.endNameSpan _ named
    exact ⟨by omega, forwards, before, .inr ⟨at_end, after⟩⟩

/-- There is text between a name and those of later elements. -/
theorem apart_of_lt (named : (parse v t).HasName entry) (other_named : (parse v t).HasName other)
    (later : entry.node < other.node) :
    entry.span.stop < other.span.start ∨ other.span.stop < entry.span.start := by
  have h := preordered_parse v t
  obtain ⟨-, forwards, stops, place⟩ := named.inside
  obtain ⟨other_starts, other_forwards, other_stops, -⟩ := other_named.inside
  rcases h.inside_or_apart named.1.1 later other_named.1.2 with mem | behind
  · obtain ⟨content_start, content_stop⟩ := h.content_of_mem_descendants named.1 mem
    omega
  · omega

/-- **There is text between any two names.** -/
theorem apart (named : (parse v t).HasName entry) (other_named : (parse v t).HasName other)
    (differ : entry ≠ other) :
    entry.span.stop < other.span.start ∨ other.span.stop < entry.span.start := by
  rcases Nat.lt_trichotomy entry.node other.node with later | same | earlier
  · exact named.apart_of_lt other_named later
  · -- Of one element: the content stands between its names.
    have in_order := ((wellFormed_parse v t).element _ named.1.2 named.1.1).1.content_le
    have place := named.inside.2.2.2
    have other_place := other_named.inside.2.2.2
    have other_mem := other_named.2
    rw [← same] at other_place other_mem
    rcases place with ⟨at_start, before⟩ | ⟨at_end, behind⟩ <;>
      rcases other_place with ⟨other_start, other_before⟩ | ⟨other_end, other_behind⟩
    · exact absurd (eq_of_mem_namesOf named.2 other_mem (at_start.trans other_start.symm)) differ
    · exact .inl (by omega)
    · exact .inr (by omega)
    · exact absurd (eq_of_mem_namesOf named.2 other_mem (at_end.trans other_end.symm)) differ
  · exact (other_named.apart_of_lt named earlier).symm

/-- **An offset touches one name at most.** -/
theorem eq_of_touches {offset : Nat} (named : (parse v t).HasName entry)
    (other_named : (parse v t).HasName other) (touches : entry.span.touches offset = true)
    (other_touches : other.span.touches offset = true) : entry = other := by
  by_contra differ
  have := named.apart other_named differ
  simp only [Span.touches, Bool.and_eq_true, decide_eq_true_eq] at touches other_touches
  omega

/-- **The node at an offset** is the element whose name is there. -/
theorem nodeAt_eq {offset : Nat} (named : (parse v t).HasName entry)
    (touches : entry.span.touches offset = true) : (parse v t).nodeAt offset = some entry.node := by
  have h := preordered_parse v t
  obtain ⟨starts, forwards, stops, place⟩ := named.inside
  obtain ⟨element, mem⟩ := named
  have in_text := (h.wellFormed.element _ element.2 element.1).2
  simp only [Span.touches, Bool.and_eq_true, decide_eq_true_eq] at touches
  refine h.nodeAt_eq_some_iff.mpr ⟨?_, .element ⟨element, ⟨by omega, by omega⟩, ?_⟩⟩
  · show offset ≤ t.byteLength
    omega
  · rintro e e_element ⟨e_before, e_behind⟩ apart
    rcases Nat.lt_or_gt_of_ne apart with earlier | later
    · exact h.starts e _ (Nat.pos_of_ne_zero e_element.1) earlier element.2
    · -- What starts later lies in the content or behind the element, and the name does neither.
      rcases h.inside_or_apart element.1 later e_element.2 with inside | behind
      · obtain ⟨content_start, content_stop⟩ := h.content_of_mem_descendants element inside
        omega
      · omega

end HasName

end Document

end MarkupAnalysis
