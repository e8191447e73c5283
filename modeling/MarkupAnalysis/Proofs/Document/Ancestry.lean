import MarkupAnalysis.Proofs.Document.Order
import MarkupAnalysis.Proofs.Document.Recovery

/-! # Ancestors and descendants

The array of a tree is in document order: what is inside an element follows it without a gap, and what is
around it comes before. So the chain of parents of a node and the walk through what is inside a node are
two readings of one relation, and both come to an end.

* **`Spans.exists_inside`**, **`Spans.mem_or_child`** — what the nodes of a span are.
* **`Document.Preordered`** — a well-formed tree whose array is in document order.
* **`Document.Preordered.ancestors_eq_cons`** — the chain of parents.
* **`Document.Preordered.exists_descendants`** — the walk through what is inside a node.
* **`Document.Preordered.mem_descendants_iff_parent`**, **`Document.Preordered.mem_descendants_iff_child`** —
  what is inside a node, from below and from above.
* **`parse_documentOrder`** — the array of every text is in document order. -/

namespace MarkupAnalysis

open Document

/-! ## Nodes of a span -/

namespace Spans

variable {children : Nat → List Nat} {first last id : Nat} {nodes : List Nat}

/-- Each node of a span has a span of its own inside. -/
theorem exists_inside (h : Spans children first nodes last) (lower : first ≤ id) (upper : id < last) :
    ∃ next ≤ last, Spans children (id + 1) (children id) next := by
  induction h with
  | nil first => omega
  | @cons first next last others inside after inside_ih after_ih =>
    rcases Nat.lt_trichotomy id first with before | rfl | behind
    · omega
    · exact ⟨next, after.le, inside⟩
    · by_cases here : id < next
      · obtain ⟨stop, bound, span⟩ := inside_ih behind here
        exact ⟨stop, Nat.le_trans bound after.le, span⟩
      · exact after_ih (Nat.le_of_not_lt here) upper

/-- The nodes of the list lie in its span. -/
theorem mem_bounds (h : Spans children first nodes last) (mem : id ∈ nodes) : first ≤ id ∧ id < last := by
  induction h with
  | nil => cases mem
  | cons inside after _ after_ih =>
    have forward := inside.le
    have bound := after.le
    rcases List.mem_cons.mp mem with rfl | later
    · omega
    · obtain ⟨lower, upper⟩ := after_ih later
      omega

/-- A child of a node of the span comes later in the span. -/
theorem child_bounds (h : Spans children first nodes last) {parent : Nat} (lower : first ≤ parent)
    (upper : parent < last) (mem : id ∈ children parent) : parent < id ∧ id < last := by
  obtain ⟨next, bound, inside⟩ := h.exists_inside lower upper
  obtain ⟨after, before⟩ := inside.mem_bounds mem
  omega

/-- **A node of a span** is one of the list, or the child of another node of the span. -/
theorem mem_or_child (h : Spans children first nodes last) (lower : first ≤ id) (upper : id < last) :
    id ∈ nodes ∨ ∃ parent, first ≤ parent ∧ parent < last ∧ id ∈ children parent := by
  induction h with
  | nil first => omega
  | @cons first next last others inside after inside_ih after_ih =>
    have forward := inside.le
    have bound := after.le
    rcases Nat.lt_trichotomy id first with before | rfl | behind
    · omega
    · exact .inl List.mem_cons_self
    · by_cases here : id < next
      · rcases inside_ih behind here with mem | ⟨parent, _, _, mem⟩
        · exact .inr ⟨first, Nat.le_refl _, by omega, mem⟩
        · exact .inr ⟨parent, by omega, by omega, mem⟩
      · rcases after_ih (Nat.le_of_not_lt here) upper with mem | ⟨parent, _, _, mem⟩
        · exact .inl (List.mem_cons_of_mem _ mem)
        · exact .inr ⟨parent, by omega, by omega, mem⟩

end Spans

/-! ## Trees in document order -/

namespace Document

/-- **A well-formed tree whose array is in document order.** -/
structure Preordered (length : Nat) (d : Document) : Prop where
  /-- Elements lie inside the element that names them, one after the other. -/
  wellFormed : d.WellFormed length
  /-- All nodes but the root follow each other inside it. -/
  spans : Spans d.children (root + 1) (d.children root) d.nodes.size
  /-- Later elements start later. -/
  starts : ∀ a b, 0 < a → a < b → b < d.nodes.size → (d.node a).start < (d.node b).start

namespace Preordered

variable {length a c e id parent : Nat} {d : Document}

/-! ### Parents -/

/-- Every node has all that is inside it behind it. -/
theorem exists_inside (h : d.Preordered length) (known : id < d.nodes.size) :
    ∃ next ≤ d.nodes.size, Spans d.children (id + 1) (d.children id) next := by
  rcases Nat.eq_zero_or_pos id with rfl | element
  · exact ⟨d.nodes.size, Nat.le_refl _, h.spans⟩
  · exact h.spans.exists_inside element known

/-- A child comes after its parent, which it names. -/
theorem of_mem_children (h : d.Preordered length) (known : id < d.nodes.size)
    (mem : c ∈ d.children id) : id < c ∧ c < d.nodes.size ∧ (d.node c).parent = some id := by
  obtain ⟨next, bound, inside⟩ := h.exists_inside known
  obtain ⟨lower, upper⟩ := inside.mem_bounds mem
  exact ⟨lower, Nat.lt_of_lt_of_le upper bound, (h.wellFormed.parent id known c mem).2⟩

/-- Every element has a parent, which names it as a child. -/
theorem exists_parent (h : d.Preordered length) (known : id < d.nodes.size) (off_root : id ≠ root) :
    ∃ parent < id, (d.node id).parent = some parent ∧ id ∈ d.children parent := by
  have element : root + 1 ≤ id := Nat.pos_of_ne_zero off_root
  rcases h.spans.mem_or_child element known with outermost | ⟨parent, _, upper, mem⟩
  · obtain ⟨after, -, same⟩ := h.of_mem_children h.wellFormed.root.1 outermost
    exact ⟨root, after, same, outermost⟩
  · obtain ⟨after, -, same⟩ := h.of_mem_children upper mem
    exact ⟨parent, after, same, mem⟩

/-- What a node names as its parent names it as a child. -/
theorem of_parent (h : d.Preordered length) (known : id < d.nodes.size)
    (named : (d.node id).parent = some parent) : parent < id ∧ id ∈ d.children parent := by
  have off_root : id ≠ root := by
    rintro rfl
    have orphan := h.wellFormed.root.2.2.1
    rw [named] at orphan
    cases orphan
  obtain ⟨parent', before, named', mem⟩ := h.exists_parent known off_root
  obtain rfl : parent' = parent := Option.some.inj (named'.symm.trans named)
  exact ⟨before, mem⟩

/-! ### Ancestors -/

/-- Parents come earlier in the array, so as many steps as there are nodes before the node reach the end
of the chain. -/
theorem ancestorsWithin_congr (h : d.Preordered length) {steps steps' : Nat}
    (known : id < d.nodes.size) (enough : id ≤ steps) (enough' : id ≤ steps') :
    d.ancestorsWithin steps id = d.ancestorsWithin steps' id := by
  induction id using Nat.strong_induction_on generalizing steps steps' with
  | _ id ih =>
    cases named : (d.node id).parent with
    | none => cases steps <;> cases steps' <;> simp [ancestorsWithin, named]
    | some parent =>
      obtain ⟨before, -⟩ := h.of_parent known named
      have some_steps : 0 < steps := by omega
      have some_steps' : 0 < steps' := by omega
      obtain ⟨steps, rfl⟩ := Nat.exists_eq_add_of_lt some_steps
      obtain ⟨steps', rfl⟩ := Nat.exists_eq_add_of_lt some_steps'
      simp only [ancestorsWithin, named]
      exact congrArg (parent :: ·) (ih parent before (by omega) (by omega) (by omega))

/-- The root has no ancestors. -/
theorem ancestors_root (h : d.Preordered length) : d.ancestors root = [] := by
  unfold ancestors
  cases d.nodes.size with
  | zero => rfl
  | succ => simp [ancestorsWithin, h.wellFormed.root.2.2.1]

/-- **The ancestors of an element** are its parent and the parent's ancestors. -/
theorem ancestors_eq_cons (h : d.Preordered length) (known : id < d.nodes.size)
    (named : (d.node id).parent = some parent) : d.ancestors id = parent :: d.ancestors parent := by
  obtain ⟨before, -⟩ := h.of_parent known named
  obtain ⟨steps, size⟩ : ∃ steps, d.nodes.size = steps + 1 := ⟨d.nodes.size - 1, by omega⟩
  unfold ancestors
  rw [size, ancestorsWithin, named]
  exact congrArg (parent :: ·) (h.ancestorsWithin_congr (by omega) (by omega) (by omega))

/-- **The chain of parents ends at the root.** -/
theorem ancestors_chain (h : d.Preordered length) (known : id < d.nodes.size) :
    (id :: d.ancestors id).IsChain (fun child parent => (d.node child).parent = some parent) ∧
      (id :: d.ancestors id).getLast? = some root := by
  induction id using Nat.strong_induction_on with
  | _ id ih =>
    by_cases top : id = root
    · rw [top, h.ancestors_root]
      exact ⟨.singleton _, rfl⟩
    · obtain ⟨parent, before, named, -⟩ := h.exists_parent known top
      obtain ⟨chain, last⟩ := ih parent before (Nat.lt_trans before known)
      rw [h.ancestors_eq_cons known named]
      exact ⟨.cons_cons named chain, by rw [List.getLast?_cons_cons]; exact last⟩

/-! ### Descendants -/

/-- **The descendants of a node** are the nodes that follow it, up to the end of its span. -/
theorem exists_descendants (h : d.Preordered length) (known : id < d.nodes.size) :
    ∃ next, id < next ∧ next ≤ d.nodes.size ∧
      Spans d.children (id + 1) (d.children id) next ∧
      d.descendants id = List.range' (id + 1) (next - (id + 1)) := by
  obtain ⟨next, bound, inside⟩ := h.exists_inside known
  exact ⟨next, inside.le, bound, inside, preorderWithin_eq_range' inside (by omega)⟩

/-- Descendants come later in the array. -/
theorem of_mem_descendants (h : d.Preordered length) (known : a < d.nodes.size)
    (mem : e ∈ d.descendants a) : a < e ∧ e < d.nodes.size := by
  obtain ⟨next, after, bound, -, all⟩ := h.exists_descendants known
  rw [all, List.mem_range'_1] at mem
  omega

/-- **From below**: an element is inside a node if its parent is that node or inside it. -/
theorem mem_descendants_iff_parent (h : d.Preordered length) (known : a < d.nodes.size)
    (inside : e < d.nodes.size) (named : (d.node e).parent = some parent) :
    e ∈ d.descendants a ↔ parent = a ∨ parent ∈ d.descendants a := by
  obtain ⟨next, after, bound, span, all⟩ := h.exists_descendants known
  obtain ⟨before, child⟩ := h.of_parent inside named
  have mem_iff (j : Nat) : j ∈ d.descendants a ↔ a + 1 ≤ j ∧ j < next := by
    rw [all, List.mem_range'_1]
    omega
  rw [mem_iff, mem_iff]
  constructor
  · rintro ⟨lower, upper⟩
    rcases span.mem_or_child lower upper with mem | ⟨other, other_lower, other_upper, mem⟩
    · have same := (h.of_mem_children known mem).2.2
      exact .inl (Option.some.inj (named.symm.trans same))
    · have same := (h.of_mem_children (Nat.lt_of_lt_of_le other_upper bound) mem).2.2
      obtain rfl : parent = other := Option.some.inj (named.symm.trans same)
      exact .inr ⟨other_lower, other_upper⟩
  · rintro (rfl | ⟨lower, upper⟩)
    · exact span.mem_bounds child
    · obtain ⟨later, within⟩ := span.child_bounds lower upper child
      exact ⟨Nat.le_trans lower (Nat.le_of_lt later), within⟩

/-- Children are descendants. -/
theorem mem_descendants_of_mem_children (h : d.Preordered length) (known : a < d.nodes.size)
    (mem : c ∈ d.children a) : c ∈ d.descendants a := by
  obtain ⟨-, inside, named⟩ := h.of_mem_children known mem
  exact (h.mem_descendants_iff_parent known inside named).mpr (.inl rfl)

/-- Descendants of descendants are descendants. -/
theorem mem_descendants_trans (h : d.Preordered length) (known : a < d.nodes.size)
    (outer : c ∈ d.descendants a) (inner : e ∈ d.descendants c) : e ∈ d.descendants a := by
  have c_known := (h.of_mem_descendants known outer).2
  -- From the parent of the inner one, which is nearer to the outer one.
  induction e using Nat.strong_induction_on with
  | _ e ih =>
    obtain ⟨after, inside⟩ := h.of_mem_descendants c_known inner
    obtain ⟨parent, before, named, -⟩ := h.exists_parent inside (by unfold root; omega)
    rw [h.mem_descendants_iff_parent known inside named]
    rcases (h.mem_descendants_iff_parent c_known inside named).mp inner with rfl | nearer
    · exact .inr outer
    · exact .inr (ih parent before nearer)

/-- **From above**: an element is inside a node if it is one of the node's children or inside one. -/
theorem mem_descendants_iff_child (h : d.Preordered length) (known : a < d.nodes.size) :
    e ∈ d.descendants a ↔ ∃ c ∈ d.children a, e = c ∨ e ∈ d.descendants c := by
  constructor
  · intro mem
    induction e using Nat.strong_induction_on with
    | _ e ih =>
      obtain ⟨after, inside⟩ := h.of_mem_descendants known mem
      obtain ⟨parent, before, named, child⟩ := h.exists_parent inside (by unfold root; omega)
      rcases (h.mem_descendants_iff_parent known inside named).mp mem with rfl | nearer
      · exact ⟨e, child, .inl rfl⟩
      · obtain ⟨c, c_child, below⟩ := ih parent before nearer
        have c_known := (h.of_mem_children known c_child).2.1
        exact ⟨c, c_child, .inr ((h.mem_descendants_iff_parent c_known inside named).mpr below)⟩
  · rintro ⟨c, child, rfl | below⟩
    · exact h.mem_descendants_of_mem_children known child
    · exact h.mem_descendants_trans known (h.mem_descendants_of_mem_children known child) below

/-- **Descendants and ancestors are the same relation.** -/
theorem mem_descendants_iff_mem_ancestors (h : d.Preordered length) (known : a < d.nodes.size)
    (inside : e < d.nodes.size) : e ∈ d.descendants a ↔ a ∈ d.ancestors e := by
  induction e using Nat.strong_induction_on with
  | _ e ih =>
    by_cases top : e = root
    · -- Nothing comes before the root.
      rw [top, h.ancestors_root]
      refine iff_of_false (fun mem => ?_) (by simp)
      exact Nat.not_lt_zero _ (h.of_mem_descendants known mem).1
    · obtain ⟨parent, before, named, -⟩ := h.exists_parent inside top
      rw [h.mem_descendants_iff_parent known inside named, h.ancestors_eq_cons inside named,
        List.mem_cons, ih parent before (Nat.lt_trans before inside), eq_comm]

/-- A descendant lies inside the node. -/
theorem covers_of_mem_descendants (h : d.Preordered length) (known : a < d.nodes.size)
    (mem : e ∈ d.descendants a) :
    (d.node a).start ≤ (d.node e).start ∧ (d.node e).stop ≤ (d.node a).stop := by
  induction e using Nat.strong_induction_on with
  | _ e ih =>
    obtain ⟨after, inside⟩ := h.of_mem_descendants known mem
    obtain ⟨parent, before, named, child⟩ := h.exists_parent inside (by unfold root; omega)
    obtain ⟨starts, stops⟩ := Span.covers_iff.mp
      (h.wellFormed.inside parent (Nat.lt_trans before inside) e child)
    rcases (h.mem_descendants_iff_parent known inside named).mp mem with rfl | nearer
    · exact ⟨starts, stops⟩
    · obtain ⟨starts', stops'⟩ := ih parent before nearer
      exact ⟨Nat.le_trans starts' starts, Nat.le_trans stops stops'⟩

end Preordered

/-! ## Whole texts -/

/-- The `<` of the start tags of a text, one after the other. -/
def openings (v : Vocabulary) (t : Text) : List Token :=
  (tokensOf v t).filter (·.kind = .startTagOpen)

/-- Later start tags open later. -/
theorem openings_pairwise (v : Vocabulary) (t : Text) :
    (openings v t).Pairwise fun a b => a.span.start < b.span.start := by
  refine ((tokensOf_pairwise v t).filter _).imp_of_mem ?_
  intro a b mem _ apart
  -- An opening bracket is not empty.
  obtain ⟨known, kind⟩ := List.mem_filter.mp mem
  rw [decide_eq_true_eq] at kind
  obtain ⟨s, -, rfl⟩ := Tokenizer.exists_at_of_mem_tokens (scanner_at v t) known
  have some_text : s.position < s.rest.position :=
    Tokenizer.position_lt_rest (Tokenizer.ahead_ne_nil kind (by decide)) (by simp [kind]) (by simp [kind])
  exact Nat.lt_of_lt_of_le some_text apart

/-- The elements of a text are as many as its start tags, and each starts where its start tag opens. -/
theorem start_parse (v : Vocabulary) (t : Text) :
    (parse v t).nodes.size = (openings v t).length + 1 ∧
      ∀ i (h : i < (openings v t).length),
        ((parse v t).node (i + 1)).start = ((openings v t)[i]).span.start := by
  refine ⟨by simpa [openings] using congrArg List.length (starts_parse v t), fun i inside => ?_⟩
  have entry : ((parse v t).nodes.toList.map (·.start))[i + 1]? =
      some ((openings v t)[i]).span.start := by
    rw [starts_parse, List.getElem?_cons_succ, ← openings, List.getElem?_map,
      List.getElem?_eq_getElem inside, Option.map_some]
  rw [List.getElem?_map, Array.getElem?_toList] at entry
  obtain ⟨n, found, same⟩ := Option.map_eq_some_iff.mp entry
  rw [node, found]
  exact same

/-- **The tree of every text is in document order.** -/
theorem preordered_parse (v : Vocabulary) (t : Text) : (parse v t).Preordered t.byteLength := by
  refine ⟨wellFormed_parse v t, spans_parse v t, fun a b element later known => ?_⟩
  obtain ⟨size, starts⟩ := start_parse v t
  obtain ⟨a, rfl⟩ := Nat.exists_eq_succ_of_ne_zero (Nat.ne_of_gt element)
  obtain ⟨b, rfl⟩ := Nat.exists_eq_succ_of_ne_zero (Nat.ne_of_gt (Nat.lt_trans element later))
  rw [Nat.succ_eq_add_one, Nat.succ_eq_add_one, starts a (by omega), starts b (by omega)]
  exact List.pairwise_iff_getElem.mp (openings_pairwise v t) a b _ _ (by omega)

/-- **The array of a tree in document order**, whose start tags open with the given tokens. -/
structure DocumentOrder (openings : List Token) (d : Document) : Prop where
  /-- There is one element for each start tag, and the root. -/
  count : d.nodes.size = openings.length + 1
  /-- Each element starts where its start tag opens. -/
  start : ∀ i (h : i < openings.length), (d.node (i + 1)).start = openings[i].span.start
  /-- A walk through the tree meets all elements, one after the other. -/
  elements : d.elements = List.range' 1 (d.nodes.size - 1)
  /-- What is inside a node follows it without a gap. -/
  descendants : ∀ id < d.nodes.size, ∃ last, id ≤ last ∧ last < d.nodes.size ∧
    d.descendants id = List.range' (id + 1) (last - id)
  /-- Every element has a parent, which comes earlier. -/
  parent : ∀ id < d.nodes.size, id ≠ root → ∃ parent < id, (d.node id).parent = some parent
  /-- From each node the chain of parents leads to the root. -/
  ancestors : ∀ id < d.nodes.size,
    (id :: d.ancestors id).IsChain (fun child parent => (d.node child).parent = some parent) ∧
      (id :: d.ancestors id).getLast? = some root
  /-- A node is inside another one if that one is around it. -/
  mem_descendants : ∀ a < d.nodes.size, ∀ e < d.nodes.size,
    (e ∈ d.descendants a ↔ a ∈ d.ancestors e)

end Document

/-- **The array of every text is in document order.** -/
theorem parse_documentOrder (v : Vocabulary) (t : Text) :
    (parse v t).DocumentOrder ((tokensOf v t).filter (·.kind = .startTagOpen)) := by
  have h := preordered_parse v t
  obtain ⟨count, start⟩ := start_parse v t
  refine ⟨count, start, elements_parse v t, ?descendants, ?parent, fun id known => h.ancestors_chain known,
    fun a known e inside => h.mem_descendants_iff_mem_ancestors known inside⟩
  case descendants =>
    intro id known
    obtain ⟨next, after, bound, -, all⟩ := h.exists_descendants known
    exact ⟨next - 1, by omega, by omega, by rw [all]; congr 1; omega⟩
  case parent =>
    intro id known off_root
    obtain ⟨parent, before, named, -⟩ := h.exists_parent known off_root
    exact ⟨parent, before, named⟩

end MarkupAnalysis
