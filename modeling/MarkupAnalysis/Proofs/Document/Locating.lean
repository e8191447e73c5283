import Mathlib.Data.Nat.Find
import MarkupAnalysis.Document.Position
import MarkupAnalysis.Proofs.Document.Ancestry

/-! # The nodes at an offset

A query for an offset goes down the tree and bisects the children of each node on the way. What it finds
can be said without the tree: of all elements that lie around the offset, or end before it, it is the one
that starts last.

* **`Document.StartsLast`** — of the elements with a property, the one that starts last.
* **`Document.IsNodeAt`**, **`Document.IsNodeBefore`** — what is to be found at an offset and before it.
* **`Document.Preordered.lastChildBefore_cases`** — what one step down the tree decides.
* **`Document.Preordered.nodeAtWithin_spec`**, **`Document.Preordered.nodeBeforeWithin_spec`** — where the
  way down leads.
* **`parse_locates`** — the queries find in every text what is to be found. -/

namespace MarkupAnalysis

open Document

namespace Document

/-! ## What is to be found -/

/-- An element of the array: any node but the root. -/
def IsElement (d : Document) (id : Nat) : Prop := id ≠ root ∧ id < d.nodes.size

/-- The node starts before the offset. -/
def StartsBefore (d : Document) (offset : Nat) (id : NodeId) : Prop := (d.node id).start < offset

/-- The node starts before the offset and does not end before it. -/
def LiesAround (d : Document) (offset : Nat) (id : NodeId) : Prop :=
  (d.node id).start < offset ∧ offset ≤ (d.node id).stop

/-- The node starts before the offset and does not end after it. -/
def EndsBy (d : Document) (offset : Nat) (id : NodeId) : Prop :=
  (d.node id).start < offset ∧ (d.node id).stop ≤ offset

/-- **Of the elements with a property, the one that starts last.** -/
structure StartsLast (d : Document) (among : NodeId → Prop) (id : NodeId) : Prop where
  /-- It is an element. -/
  element : d.IsElement id
  /-- It has the property. -/
  mem : among id
  /-- All others start before it. -/
  last : ∀ other, d.IsElement other → among other → other ≠ id →
    (d.node other).start < (d.node id).start

/-- Only one element starts last. -/
theorem StartsLast.unique {d : Document} {among : NodeId → Prop} {id id' : NodeId}
    (h : d.StartsLast among id) (h' : d.StartsLast among id') : id = id' := by
  by_contra other
  exact Nat.lt_asymm (h.last id' h'.element h'.mem (Ne.symm other)) (h'.last id h.element h.mem other)

/-- **The node at an offset**: the element around it that starts last, or else the root. -/
inductive IsNodeAt (d : Document) (offset : Nat) : NodeId → Prop
  /-- Elements lie around the offset. -/
  | element {id : NodeId} (last : d.StartsLast (d.LiesAround offset) id) : IsNodeAt d offset id
  /-- No element lies around the offset. -/
  | root (none_around : ∀ id, d.IsElement id → ¬ d.LiesAround offset id) : IsNodeAt d offset root

/-- **The node before an offset.** -/
inductive IsNodeBefore (d : Document) (offset : Nat) : NodeId → Prop
  /-- No element starts before the offset. -/
  | root (none_before : ∀ id, d.IsElement id → ¬ d.StartsBefore offset id) : IsNodeBefore d offset root
  /-- The last element that starts before the offset ends after it. -/
  | inside {id : NodeId} (last : d.StartsLast (d.StartsBefore offset) id)
      (around : offset < (d.node id).stop) : IsNodeBefore d offset id
  /-- The last element that starts before the offset ends there or before. Then those count that end by
  the offset, and of them those that end last. -/
  | ended {latest id : NodeId} (last : d.StartsLast (d.StartsBefore offset) latest)
      (before : (d.node latest).stop ≤ offset)
      (ends_last : ∀ other, d.IsElement other → d.EndsBy offset other →
        (d.node other).stop ≤ (d.node id).stop)
      (found : d.StartsLast
        (fun other => d.EndsBy offset other ∧ (d.node other).stop = (d.node id).stop) id) :
      IsNodeBefore d offset id

variable {d : Document} {length offset c e id steps : Nat}

/-- There is only one node at an offset. -/
theorem IsNodeAt.unique {id' : NodeId} (h : d.IsNodeAt offset id) (h' : d.IsNodeAt offset id') :
    id = id' := by
  cases h with
  | element last =>
    cases h' with
    | element last' => exact last.unique last'
    | root none_around => exact absurd last.mem (none_around _ last.element)
  | root none_around =>
    cases h' with
    | element last' => exact absurd last'.mem (none_around _ last'.element)
    | root => rfl

/-- There is only one node before an offset. -/
theorem IsNodeBefore.unique {id' : NodeId} (h : d.IsNodeBefore offset id)
    (h' : d.IsNodeBefore offset id') : id = id' := by
  cases h with
  | root none_before =>
    cases h' with
    | root => rfl
    | inside last | ended last => exact absurd last.mem (none_before _ last.element)
  | inside last around =>
    cases h' with
    | root none_before => exact absurd last.mem (none_before _ last.element)
    | inside last' => exact last.unique last'
    | ended last' before =>
      rw [last.unique last'] at around
      exact absurd before (Nat.not_le.mpr around)
  | ended last before ends_last found =>
    cases h' with
    | root none_before => exact absurd last.mem (none_before _ last.element)
    | inside last' around =>
      rw [last'.unique last] at around
      exact absurd before (Nat.not_le.mpr around)
    | ended _ _ ends_last' found' =>
      -- Both end last, so they end together.
      have same : (d.node id).stop = (d.node id').stop :=
        Nat.le_antisymm (ends_last' id found.element found.mem.1) (ends_last id' found'.element found'.mem.1)
      rw [same] at found
      exact found.unique found'

namespace Preordered

/-! ## One step down -/

/-- Elements have characters. -/
theorem start_lt_stop (h : d.Preordered length) (element : d.IsElement id) :
    (d.node id).start < (d.node id).stop :=
  (h.wellFormed.element id element.2 element.1).1.start_lt_stop

/-- Descendants are elements. -/
theorem isElement_of_mem_descendants (h : d.Preordered length) (known : id < d.nodes.size)
    (mem : e ∈ d.descendants id) : d.IsElement e := by
  obtain ⟨after, inside⟩ := h.of_mem_descendants known mem
  exact ⟨Nat.ne_of_gt (Nat.zero_lt_of_lt after), inside⟩

/-- A child is an element. -/
theorem isElement_of_mem_children (h : d.Preordered length) (known : id < d.nodes.size)
    (mem : c ∈ d.children id) : d.IsElement c :=
  h.isElement_of_mem_descendants known (h.mem_descendants_of_mem_children known mem)

/-- What is inside an element starts after it. -/
theorem start_lt_of_mem_descendants (h : d.Preordered length) (element : d.IsElement id)
    (mem : e ∈ d.descendants id) : (d.node id).start < (d.node e).start := by
  obtain ⟨after, inside⟩ := h.of_mem_descendants element.2 mem
  exact h.starts id e (Nat.pos_of_ne_zero element.1) after inside

/-- All elements are inside the root. -/
theorem mem_descendants_root_iff (h : d.Preordered length) : e ∈ d.descendants root ↔ d.IsElement e := by
  have all : d.descendants root = List.range' 1 (d.nodes.size - 1) :=
    preorderWithin_eq_range' h.spans (Nat.sub_le _ _)
  have some_node : 0 < d.nodes.size := h.wellFormed.root.1
  rw [all, List.mem_range'_1]
  constructor
  · rintro ⟨element, inside⟩
    exact ⟨Nat.ne_of_gt element, by omega⟩
  · rintro ⟨off_root, inside⟩
    exact ⟨Nat.pos_of_ne_zero off_root, by omega⟩

/-- Children come one after the other. -/
theorem children_pairwise (h : d.Preordered length) (known : id < d.nodes.size) :
    (d.children id).Pairwise fun c later => (d.node c).stop ≤ (d.node later).start := by
  -- With its end behind its start, each child passes the order on.
  let ends (c later : NodeId) : Prop :=
    (d.node c).stop ≤ (d.node later).start ∧ (d.node later).start < (d.node later).stop
  have trans : ∀ {a b c : NodeId}, ends a b → ends b c → ends a c := fun first second =>
    ⟨by have := first.1; have := first.2; have := second.1; omega, second.2⟩
  have : Trans ends ends ends := ⟨trans⟩
  have chain : (d.children id).IsChain ends := by
    refine (h.wellFormed.ordered id known).imp_of_mem_imp fun c later _ mem apart => ⟨apart, ?_⟩
    exact h.start_lt_stop (h.isElement_of_mem_children known mem)
  exact chain.pairwise.imp And.left

/-- Children that start before the offset come before the others, and bisection answers the last of them. -/
theorem exists_children_split (h : d.Preordered length) (known : id < d.nodes.size) (offset : Nat) :
    ∃ first later, d.children id = first ++ later ∧ d.lastChildBefore id offset = first.getLast? ∧
      (∀ c ∈ first, d.StartsBefore offset c) ∧ ∀ c ∈ later, ¬ d.StartsBefore offset c := by
  have ordered : (d.children id).Pairwise fun c later =>
      decide ((d.node later).start < offset) = true → decide ((d.node c).start < offset) = true := by
    refine (h.children_pairwise known).imp_of_mem ?_
    intro c later mem _ apart later_before
    have some_text := h.start_lt_stop (h.isElement_of_mem_children known mem)
    rw [decide_eq_true_eq] at later_before ⊢
    omega
  obtain ⟨first, later, split, count, before, behind⟩ := exists_split_bisect ordered
  refine ⟨first, later, split, ?_, fun c mem => by simpa [StartsBefore] using before c mem,
    fun c mem => by simpa [StartsBefore] using behind c mem⟩
  simp only [lastChildBefore, count]
  rcases List.eq_nil_or_concat' first with rfl | ⟨init, last, rfl⟩
  · rfl
  · rw [List.length_append, List.length_singleton, List.getLast?_concat]
    simp [← Array.getElem?_toList, split]

/-- **One step down**: no child starts before the offset, or there is a last one. Then everything else that
starts before the offset ends before that child. -/
theorem lastChildBefore_cases (h : d.Preordered length) (known : id < d.nodes.size) (offset : Nat) :
    (d.lastChildBefore id offset = none ∧ ∀ e ∈ d.descendants id, ¬ d.StartsBefore offset e) ∨
    ∃ c ∈ d.children id, d.lastChildBefore id offset = some c ∧ d.StartsBefore offset c ∧
      ∀ e ∈ d.descendants id, d.StartsBefore offset e →
        e = c ∨ e ∈ d.descendants c ∨ (d.node e).stop ≤ (d.node c).start := by
  obtain ⟨first, later, split, last, before, behind⟩ := h.exists_children_split known offset
  -- What starts before the offset is a child that does, or inside one.
  have child_before {e : NodeId} (mem : e ∈ d.descendants id) (e_before : d.StartsBefore offset e) :
      ∃ c ∈ first, e = c ∨ e ∈ d.descendants c := by
    obtain ⟨c, child, below⟩ := (h.mem_descendants_iff_child known).mp mem
    have c_before : d.StartsBefore offset c := by
      rcases below with rfl | below
      · exact e_before
      · have c_known := (h.of_mem_children known child).2.1
        exact Nat.lt_of_le_of_lt (h.covers_of_mem_descendants c_known below).1 e_before
    rw [split, List.mem_append] at child
    exact ⟨c, child.resolve_right fun c_behind => behind c c_behind c_before, below⟩
  rcases List.eq_nil_or_concat' first with rfl | ⟨init, c, rfl⟩
  · refine .inl ⟨last, fun e mem e_before => ?_⟩
    obtain ⟨c, mem, -⟩ := child_before mem e_before
    cases mem
  · have c_first : c ∈ init ++ [c] := List.mem_append_right _ List.mem_cons_self
    refine .inr ⟨c, by rw [split]; exact List.mem_append_left _ c_first, by rw [last, List.getLast?_concat],
      before c c_first, fun e mem e_before => ?_⟩
    obtain ⟨c', c'_first, below⟩ := child_before mem e_before
    rcases List.mem_append.mp c'_first with earlier | here
    · -- The child is an earlier one, and ends before the last one.
      have order := h.children_pairwise known
      rw [split] at order
      have apart := (List.pairwise_append.mp (List.pairwise_append.mp order).1).2.2 c' earlier c
        List.mem_cons_self
      refine .inr (.inr ?_)
      rcases below with rfl | below
      · exact apart
      · have c'_known : c' < d.nodes.size := by
          refine (h.of_mem_children known ?_).2.1
          rw [split]
          exact List.mem_append_left _ c'_first
        exact Nat.le_trans (h.covers_of_mem_descendants c'_known below).2 apart
    · rw [List.mem_singleton] at here
      rw [here] at below
      exact below.imp_right .inl

/-! ## All the way down -/

/-- **The way to the node at an offset** ends at the node itself or at an element inside it around the
offset, and all elements inside the node and around the offset are on this way. -/
theorem nodeAtWithin_spec (h : d.Preordered length) (offset : Nat) (known : id < d.nodes.size)
    (enough : d.nodes.size - id ≤ steps) :
    (d.nodeAtWithin offset steps id = id ∨
      d.nodeAtWithin offset steps id ∈ d.descendants id ∧
        d.LiesAround offset (d.nodeAtWithin offset steps id)) ∧
    ∀ e ∈ d.descendants id, d.LiesAround offset e →
      e = d.nodeAtWithin offset steps id ∨ d.nodeAtWithin offset steps id ∈ d.descendants e := by
  induction steps generalizing id with
  | zero => omega
  | succ steps ih =>
    rcases h.lastChildBefore_cases known offset with
      ⟨last, nothing⟩ | ⟨c, child, last, c_before, others⟩
    · have here : d.nodeAtWithin offset (steps + 1) id = id := by simp [nodeAtWithin, last]
      exact ⟨.inl here, fun e mem around => absurd around.1 (nothing e mem)⟩
    · obtain ⟨after, c_known, -⟩ := h.of_mem_children known child
      have c_below := h.mem_descendants_of_mem_children known child
      by_cases around : d.LiesAround offset c
      · have next : d.nodeAtWithin offset (steps + 1) id = d.nodeAtWithin offset steps c := by
          simp [nodeAtWithin, last, around.1, around.2]
        rw [next]
        obtain ⟨found, on_way⟩ := ih c_known (by omega)
        refine ⟨.inr ?_, fun e mem e_around => ?_⟩
        · rcases found with here | ⟨below, around'⟩
          · rw [here]
            exact ⟨c_below, around⟩
          · exact ⟨h.mem_descendants_trans known c_below below, around'⟩
        · rcases others e mem e_around.1 with rfl | below | apart
          · exact found.imp Eq.symm And.left
          · exact on_way e below e_around
          · exact absurd c_before (Nat.not_lt.mpr (Nat.le_trans e_around.2 apart))
      · -- The child has ended before the offset, and with it everything inside.
        have ended : (d.node c).stop < offset := Nat.lt_of_not_le fun upper => around ⟨c_before, upper⟩
        have here : d.nodeAtWithin offset (steps + 1) id = id := by
          simp [nodeAtWithin, last, Nat.not_le.mpr ended]
        rw [here]
        refine ⟨.inl rfl, fun e mem e_around => ?_⟩
        have upper := e_around.2
        rcases others e mem e_around.1 with rfl | below | apart
        · omega
        · have := (h.covers_of_mem_descendants c_known below).2
          omega
        · unfold StartsBefore at c_before
          omega

/-- **A node ends with its last child** if it ends with any child. -/
theorem endsWithLastChild_iff (h : d.Preordered length) (known : id < d.nodes.size) :
    d.endsWithLastChild id = true ↔ ∃ c ∈ d.children id, (d.node c).stop = (d.node id).stop := by
  have order := h.children_pairwise known
  unfold endsWithLastChild
  rw [← Array.getLast?_toList, ← children]
  rcases List.eq_nil_or_concat' (d.children id) with none | ⟨init, last, split⟩
  · simp [none]
  · have child : last ∈ d.children id := by
      rw [split]
      exact List.mem_append_right _ List.mem_cons_self
    rw [split, List.getLast?_concat, Option.any_some, beq_iff_eq]
    refine ⟨fun same => ⟨last, List.mem_append_right _ List.mem_cons_self, same⟩, ?_⟩
    rintro ⟨c, mem, same⟩
    rcases List.mem_append.mp mem with earlier | here
    · -- An earlier child ends before the last one.
      rw [split] at order
      have apart := (List.pairwise_append.mp order).2.2 c earlier last List.mem_cons_self
      have some_text := h.start_lt_stop (h.isElement_of_mem_children known child)
      have upper := (h.covers_of_mem_descendants known
        (h.mem_descendants_of_mem_children known child)).2
      omega
    · rw [← List.mem_singleton.mp here]
      exact same

/-- Where no child ends with the node, nothing inside does. -/
theorem stop_lt_of_not_endsWithLastChild (h : d.Preordered length) (known : id < d.nodes.size)
    (before : ¬ d.endsWithLastChild id = true) (mem : e ∈ d.descendants id) :
    (d.node e).stop < (d.node id).stop := by
  obtain ⟨c, child, below⟩ := (h.mem_descendants_iff_child known).mp mem
  have c_below := h.mem_descendants_of_mem_children known child
  have upper := (h.covers_of_mem_descendants known c_below).2
  have apart : (d.node c).stop ≠ (d.node id).stop := fun same =>
    before ((h.endsWithLastChild_iff known).mpr ⟨c, child, same⟩)
  rcases below with rfl | below
  · omega
  · have := (h.covers_of_mem_descendants (h.of_mem_children known child).2.1 below).2
    omega

/-- **The way down an element that has ended** leads to the last of the elements that end with it. -/
theorem nodeBeforeWithin_of_stop_le (h : d.Preordered length) (element : d.IsElement c)
    (before : (d.node c).stop ≤ offset) (enough : d.nodes.size - c ≤ steps) :
    ∃ j, (if d.endsWithLastChild c then d.nodeBeforeWithin offset steps c else c) = j ∧
      (j = c ∨ j ∈ d.descendants c) ∧ (d.node j).stop = (d.node c).stop ∧
      ∀ e ∈ d.descendants c, (d.node e).stop = (d.node c).stop →
        e = j ∨ (d.node e).start < (d.node j).start := by
  induction steps generalizing c with
  | zero => have := element.2; omega
  | succ steps ih =>
    by_cases shared : d.endsWithLastChild c
    · rw [if_pos shared]
      obtain ⟨last, last_child, same⟩ := (h.endsWithLastChild_iff element.2).mp shared
      have last_below := h.mem_descendants_of_mem_children element.2 last_child
      have last_element := h.isElement_of_mem_children element.2 last_child
      have last_some := h.start_lt_stop last_element
      have last_before : d.StartsBefore offset last := by
        unfold StartsBefore
        omega
      rcases h.lastChildBefore_cases element.2 offset with
        ⟨-, nothing⟩ | ⟨c', child, found, c'_before, others⟩
      · exact absurd last_before (nothing last last_below)
      · have c'_element := h.isElement_of_mem_children element.2 child
        have c'_below := h.mem_descendants_of_mem_children element.2 child
        have c'_upper := (h.covers_of_mem_descendants element.2 c'_below).2
        have c'_some := h.start_lt_stop c'_element
        -- The child that the search goes on with ends with the element, too.
        have same' : (d.node c').stop = (d.node c).stop := by
          rcases others last last_below last_before with rfl | below | apart
          · exact same
          · have := (h.covers_of_mem_descendants c'_element.2 below).2
            omega
          · omega
        have next : d.nodeBeforeWithin offset (steps + 1) c =
            if d.endsWithLastChild c' then d.nodeBeforeWithin offset steps c' else c' := by
          unfold StartsBefore at c'_before
          simp [nodeBeforeWithin, found, Nat.not_le.mpr c'_before,
            Nat.not_lt.mpr (same' ▸ before)]
        have after := (h.of_mem_children element.2 child).1
        obtain ⟨j, way, place, j_same, j_last⟩ := ih c'_element (by omega) (by omega)
        refine ⟨j, next.trans way, .inr ?_, j_same.trans same', fun e mem e_same => ?_⟩
        · rcases place with rfl | below
          · exact c'_below
          · exact h.mem_descendants_trans element.2 c'_below below
        · have e_some := h.start_lt_stop (h.isElement_of_mem_descendants element.2 mem)
          have e_before : d.StartsBefore offset e := by
            unfold StartsBefore
            omega
          rcases others e mem e_before with rfl | below | apart
          · exact place.imp Eq.symm (h.start_lt_of_mem_descendants c'_element)
          · exact j_last e below (e_same.trans same'.symm)
          · omega
    · rw [if_neg shared]
      refine ⟨c, rfl, .inl rfl, rfl, fun e mem same => ?_⟩
      exact absurd same (Nat.ne_of_lt (h.stop_lt_of_not_endsWithLastChild element.2 shared mem))

/-- What the search for the node before an offset finds on its way down from a node. -/
inductive FoundBefore (d : Document) (offset id : Nat) : NodeId → Prop
  /-- Nothing inside the node starts before the offset. -/
  | itself (nothing : ∀ e ∈ d.descendants id, ¬ d.StartsBefore offset e) : FoundBefore d offset id id
  /-- The last element that starts before the offset ends after it. -/
  | inside {j : NodeId} (mem : j ∈ d.descendants id) (before : d.StartsBefore offset j)
      (around : offset < (d.node j).stop)
      (last : ∀ e ∈ d.descendants id, d.StartsBefore offset e →
        e = j ∨ (d.node e).start < (d.node j).start) :
      FoundBefore d offset id j
  /-- An element that has ended. All others that start before the offset are around it, or end earlier, or
  end with it and start earlier. -/
  | ended {j : NodeId} (mem : j ∈ d.descendants id) (before : (d.node j).stop ≤ offset)
      (last : ∀ e ∈ d.descendants id, d.StartsBefore offset e → e = j ∨
        offset < (d.node e).stop ∧ (d.node e).start < (d.node j).start ∨
        (d.node e).stop < (d.node j).stop ∨
        (d.node e).stop = (d.node j).stop ∧ (d.node e).start < (d.node j).start) :
      FoundBefore d offset id j

section

variable (h : d.Preordered length) (known : id < d.nodes.size) (child : c ∈ d.children id)
  (before : d.StartsBefore offset c)
  (others : ∀ e ∈ d.descendants id, d.StartsBefore offset e →
    e = c ∨ e ∈ d.descendants c ∨ (d.node e).stop ≤ (d.node c).start)

include h known child before others in
/-- What is found in a child that goes on behind the offset is found in the node. -/
theorem FoundBefore.of_child_around (around : offset < (d.node c).stop) {j : NodeId}
    (found : FoundBefore d offset c j) : FoundBefore d offset id j := by
  have c_below := h.mem_descendants_of_mem_children known child
  have c_element := h.isElement_of_mem_children known child
  have lift {j : NodeId} (below : j ∈ d.descendants c) := h.mem_descendants_trans known c_below below
  have starts {e : NodeId} (mem : e ∈ d.descendants id) :=
    h.start_lt_stop (h.isElement_of_mem_descendants known mem)
  have starts_inside {j : NodeId} (below : j ∈ d.descendants c) :=
    h.start_lt_of_mem_descendants c_element below
  cases found with
  | itself nothing =>
    refine .inside c_below before around fun e mem e_before => ?_
    rcases others e mem e_before with rfl | below | apart
    · exact .inl rfl
    · exact absurd e_before (nothing e below)
    · exact .inr (Nat.lt_of_lt_of_le (starts mem) apart)
  | inside below j_before around' last =>
    refine .inside (lift below) j_before around' fun e mem e_before => ?_
    have later := starts_inside below
    rcases others e mem e_before with rfl | below' | apart
    · exact .inr later
    · exact last e below' e_before
    · have := starts mem
      exact .inr (by omega)
  | ended below ends last =>
    refine .ended (lift below) ends fun e mem e_before => ?_
    have later := starts_inside below
    rcases others e mem e_before with rfl | below' | apart
    · exact .inr (.inl ⟨around, later⟩)
    · exact last e below' e_before
    · have := starts (lift below)
      exact .inr (.inr (.inl (by omega)))

include h known child others in
/-- Of a child that has ended the last of the elements that end with it is found. -/
theorem FoundBefore.of_child_ended (ended : (d.node c).stop ≤ offset) {j : NodeId}
    (place : j = c ∨ j ∈ d.descendants c) (same : (d.node j).stop = (d.node c).stop)
    (last : ∀ e ∈ d.descendants c, (d.node e).stop = (d.node c).stop →
      e = j ∨ (d.node e).start < (d.node j).start) : FoundBefore d offset id j := by
  have c_below := h.mem_descendants_of_mem_children known child
  have c_element := h.isElement_of_mem_children known child
  have some_text := h.start_lt_stop c_element
  have j_below : j ∈ d.descendants id := by
    rcases place with rfl | below
    · exact c_below
    · exact h.mem_descendants_trans known c_below below
  refine .ended j_below (by omega) fun e mem e_before => ?_
  rcases others e mem e_before with rfl | below | apart
  · exact place.imp Eq.symm fun below => .inr (.inr ⟨same.symm, h.start_lt_of_mem_descendants c_element below⟩)
  · rcases Nat.lt_or_eq_of_le (h.covers_of_mem_descendants c_element.2 below).2 with earlier | together
    · exact .inr (.inr (.inl (by omega)))
    · exact (last e below together).imp_right fun start => .inr (.inr ⟨together.trans same.symm, start⟩)
  · exact .inr (.inr (.inl (by omega)))

end

/-- **The way to the node before an offset.** -/
theorem nodeBeforeWithin_spec (h : d.Preordered length) (offset : Nat) (known : id < d.nodes.size)
    (enough : d.nodes.size - id ≤ steps) :
    FoundBefore d offset id (d.nodeBeforeWithin offset steps id) := by
  induction steps generalizing id with
  | zero => omega
  | succ steps ih =>
    rcases h.lastChildBefore_cases known offset with
      ⟨last, nothing⟩ | ⟨c, child, last, c_before, others⟩
    · have here : d.nodeBeforeWithin offset (steps + 1) id = id := by simp [nodeBeforeWithin, last]
      rw [here]
      exact .itself nothing
    · obtain ⟨after, c_known, -⟩ := h.of_mem_children known child
      by_cases around : offset < (d.node c).stop
      · -- The search goes on in the child.
        have next : d.nodeBeforeWithin offset (steps + 1) id = d.nodeBeforeWithin offset steps c := by
          simp [nodeBeforeWithin, last, Nat.not_le.mpr c_before, around]
        rw [next]
        exact .of_child_around h known child c_before others around (ih c_known (by omega))
      · -- It goes down only as long as elements end together.
        have next : d.nodeBeforeWithin offset (steps + 1) id =
            if d.endsWithLastChild c then d.nodeBeforeWithin offset steps c else c := by
          simp [nodeBeforeWithin, last, Nat.not_le.mpr c_before, around]
        have ended := Nat.le_of_not_lt around
        obtain ⟨j, way, place, same, j_last⟩ :=
          h.nodeBeforeWithin_of_stop_le (h.isElement_of_mem_children known child) ended
            (show d.nodes.size - c ≤ steps by omega)
        rw [next, way]
        exact .of_child_ended h known child others ended place same j_last

/-! ## The whole tree -/

/-- Where an element starts before an offset, there is one that does so last. -/
theorem exists_startsLast (h : d.Preordered length) (element : d.IsElement e)
    (before : d.StartsBefore offset e) : ∃ latest, d.StartsLast (d.StartsBefore offset) latest := by
  -- Later in the array is later in the text.
  let candidate (id : Nat) : Prop := 0 < id ∧ (d.node id).start < offset
  have e_known : e ≤ d.nodes.size - 1 := by have := element.2; omega
  obtain ⟨latest_element, latest_before⟩ :=
    Nat.findGreatest_spec (P := candidate) e_known ⟨Nat.pos_of_ne_zero element.1, before⟩
  have latest_known : Nat.findGreatest candidate (d.nodes.size - 1) < d.nodes.size := by
    have := Nat.findGreatest_le (P := candidate) (d.nodes.size - 1)
    have := element.2
    omega
  refine ⟨_, ⟨Nat.ne_of_gt latest_element, latest_known⟩, latest_before,
    fun other known starts apart => ?_⟩
  have other_element := Nat.pos_of_ne_zero known.1
  refine h.starts other _ other_element ?_ latest_known
  refine Nat.lt_of_le_of_ne (Nat.le_of_not_lt fun later => ?_) apart
  exact Nat.findGreatest_is_greatest later (by have := known.2; omega) ⟨other_element, starts⟩

/-- **The search from the root finds the node at the offset.** -/
theorem isNodeAt (h : d.Preordered length) (offset : Nat) :
    d.IsNodeAt offset (d.nodeAtWithin offset d.nodes.size root) := by
  obtain ⟨place, on_way⟩ := h.nodeAtWithin_spec offset h.wellFormed.root.1 (Nat.sub_le _ _)
  rcases place with here | ⟨mem, around⟩
  · rw [here] at on_way ⊢
    refine .root fun e element e_around => ?_
    rcases on_way e (h.mem_descendants_root_iff.mpr element) e_around with same | below
    · exact element.1 same
    · exact Nat.not_lt_zero _ (h.of_mem_descendants element.2 below).1
  · refine .element ⟨h.mem_descendants_root_iff.mp mem, around, fun e element e_around apart => ?_⟩
    have below := (on_way e (h.mem_descendants_root_iff.mpr element) e_around).resolve_left apart
    exact h.start_lt_of_mem_descendants element below

/-- **The search from the root finds the node before the offset.** -/
theorem isNodeBefore (h : d.Preordered length) (offset : Nat) :
    d.IsNodeBefore offset (d.nodeBeforeWithin offset d.nodes.size root) := by
  have found := h.nodeBeforeWithin_spec offset h.wellFormed.root.1 (Nat.sub_le _ _)
  have below {e : NodeId} (element : d.IsElement e) := h.mem_descendants_root_iff.mpr element
  generalize d.nodeBeforeWithin offset d.nodes.size root = j at found ⊢
  cases found with
  | itself nothing => exact .root fun e element => nothing e (below element)
  | inside mem before around last =>
    exact .inside ⟨h.mem_descendants_root_iff.mp mem, before,
      fun e element e_before apart => (last e (below element) e_before).resolve_left apart⟩ around
  | ended mem before last =>
    have j_element := h.mem_descendants_root_iff.mp mem
    have j_before : d.StartsBefore offset j := Nat.lt_of_lt_of_le (h.start_lt_stop j_element) before
    obtain ⟨latest, latest_last⟩ := h.exists_startsLast j_element j_before
    refine .ended latest_last ?latest_ended ?ends_last
      ⟨j_element, ⟨⟨j_before, before⟩, rfl⟩, ?starts_last⟩
    case latest_ended =>
      rcases last latest (below latest_last.element) latest_last.mem with
        rfl | ⟨-, earlier⟩ | ended | ⟨ended, -⟩
      · exact before
      · -- What is around the offset does not start last.
        have := latest_last.last j j_element j_before (fun same => by rw [same] at earlier; omega)
        omega
      · omega
      · omega
    case ends_last =>
      intro e element e_ended
      rcases last e (below element) e_ended.1 with rfl | ⟨around, -⟩ | earlier | ⟨together, -⟩
      · exact Nat.le_refl _
      · exact absurd e_ended.2 (Nat.not_le.mpr around)
      · exact Nat.le_of_lt earlier
      · exact Nat.le_of_eq together
    case starts_last =>
      rintro e element ⟨e_ended, together⟩ apart
      rcases last e (below element) e_ended.1 with rfl | ⟨-, start⟩ | earlier | ⟨-, start⟩
      · exact absurd rfl apart
      · exact start
      · omega
      · exact start

/-- What the query for the node at an offset answers. -/
theorem nodeAt_eq_some_iff (h : d.Preordered length) :
    d.nodeAt offset = some id ↔ offset ≤ d.textLength ∧ d.IsNodeAt offset id := by
  unfold nodeAt
  split
  next outside => exact iff_of_false nofun fun found => absurd found.1 (Nat.not_le.mpr outside)
  next inside =>
    rw [Option.some_inj]
    constructor
    · rintro rfl
      exact ⟨Nat.le_of_not_lt inside, h.isNodeAt offset⟩
    · rintro ⟨-, found⟩
      exact (h.isNodeAt offset).unique found

/-- What the query for the node before an offset answers. -/
theorem nodeBefore_eq_some_iff (h : d.Preordered length) :
    d.nodeBefore offset = some id ↔ offset ≤ d.textLength ∧ d.IsNodeBefore offset id := by
  unfold nodeBefore
  split
  next outside => exact iff_of_false nofun fun found => absurd found.1 (Nat.not_le.mpr outside)
  next inside =>
    rw [Option.some_inj]
    constructor
    · rintro rfl
      exact ⟨Nat.le_of_not_lt inside, h.isNodeBefore offset⟩
    · rintro ⟨-, found⟩
      exact (h.isNodeBefore offset).unique found

/-- **What lies around an offset** is the node there or around it. -/
theorem mem_ancestors_nodeAt (h : d.Preordered length) (found : d.nodeAt offset = some id)
    (known : e < d.nodes.size) (around : d.LiesAround offset e) : e = id ∨ e ∈ d.ancestors id := by
  obtain ⟨place, on_way⟩ := h.nodeAtWithin_spec offset h.wellFormed.root.1 (Nat.sub_le _ _)
  have way : d.nodeAtWithin offset d.nodes.size root = id :=
    (h.isNodeAt offset).unique (h.nodeAt_eq_some_iff.mp found).2
  rw [way] at place on_way
  have id_known : id < d.nodes.size := by
    rcases place with rfl | ⟨mem, -⟩
    · exact h.wellFormed.root.1
    · exact (h.of_mem_descendants h.wellFormed.root.1 mem).2
  rw [← h.mem_descendants_iff_mem_ancestors known id_known]
  by_cases top : e = root
  · rw [top]
    exact place.imp Eq.symm And.left
  · exact on_way e (h.mem_descendants_root_iff.mpr ⟨top, known⟩) around

end Preordered

end Document

/-- **The queries of every text find what is to be found at an offset and before it**, exactly where the
offset is not past the end of the text. -/
theorem parse_locates (v : Vocabulary) (t : Text) (offset : Nat) :
    ((parse v t).nodeAt offset = none ↔ t.byteLength < offset) ∧
    ((parse v t).nodeBefore offset = none ↔ t.byteLength < offset) ∧
    (∀ id, (parse v t).nodeAt offset = some id ↔
      offset ≤ t.byteLength ∧ (parse v t).IsNodeAt offset id) ∧
    (∀ id, (parse v t).nodeAt offset = some id →
      ∀ e < (parse v t).nodes.size, (parse v t).LiesAround offset e →
        e = id ∨ e ∈ (parse v t).ancestors id) ∧
    (∀ id, (parse v t).nodeBefore offset = some id ↔
      offset ≤ t.byteLength ∧ (parse v t).IsNodeBefore offset id) := by
  have h := preordered_parse v t
  have length : (parse v t).textLength = t.byteLength := rfl
  rw [← length]
  refine ⟨?_, ?_, fun id => h.nodeAt_eq_some_iff,
    fun id found e known around => h.mem_ancestors_nodeAt found known around,
    fun id => h.nodeBefore_eq_some_iff⟩
  · simp [nodeAt]
  · simp [nodeBefore]

end MarkupAnalysis
