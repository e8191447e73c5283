import MarkupAnalysis.Proofs.Document.Locating

/-! # Elements by their identifiers

The `id` of an element is the value, without quotes, of its first attribute of that name in any case. Of the
elements with one `id` the search finds the one whose start tag comes first.

* **`Node.HasId`**, **`Node.attributeValue?_eq_some_iff`** — the `id` of an element.
* **`Document.IsFirstWithId`**, **`Document.findById_eq_some_iff`** — the element that is found. -/

namespace MarkupAnalysis

open Text Document

variable {v : Vocabulary} {t value : Text} {id : NodeId}

/-- **The identifier of an element**: the value of its first `id` attribute, without quotes. -/
def Node.HasId (n : Node) (value : Text) : Prop :=
  ∃ before a after, n.attributes.toList = before ++ a :: after ∧
    a.name.equalsIgnoringCase "id".toList = true ∧
    (∀ other ∈ before, other.name.equalsIgnoringCase "id".toList = false) ∧ a.unquotedValue = some value

/-- Looking an identifier up takes the first attribute of that name. -/
theorem Node.attributeValue?_eq_some_iff {n : Node} :
    n.attributeValue? "id".toList = some value ↔ n.HasId value := by
  unfold attributeValue? attribute?
  rw [Option.bind_eq_some_iff]
  simp only [← Array.find?_toList, List.find?_eq_some_iff_append, Bool.not_eq_true']
  constructor
  · rintro ⟨a, ⟨named, before, after, split, others⟩, unquoted⟩
    exact ⟨before, a, after, split, named, others, unquoted⟩
  · rintro ⟨before, a, after, split, named, others, unquoted⟩
    exact ⟨a, ⟨named, before, after, split, others⟩, unquoted⟩

namespace Document

/-- **The first element with an identifier** in the order of start tags. -/
structure IsFirstWithId (d : Document) (value : Text) (id : NodeId) : Prop where
  /-- It is an element. -/
  element : d.IsElement id
  /-- It has the identifier. -/
  hasId : (d.node id).HasId value
  /-- Every other one that has it starts later. -/
  first : ∀ other, d.IsElement other → (d.node other).HasId value → other ≠ id →
    (d.node id).start < (d.node other).start

/-- The elements of a text are the nodes of its array but the first one. -/
theorem mem_elements_iff : id ∈ (parse v t).elements ↔ (parse v t).IsElement id := by
  rw [elements_parse, List.mem_range'_1, IsElement, root]
  omega

/-- The elements of a text are in the order of the array. -/
theorem elements_pairwise (v : Vocabulary) (t : Text) : (parse v t).elements.Pairwise (· < ·) := by
  rw [elements_parse]
  exact List.pairwise_lt_range'

/-- **Looking for an identifier** finds the first element that has it, if there is one. -/
theorem findById_eq_some_iff :
    (parse v t).findById value = some id ↔ (parse v t).IsFirstWithId value id := by
  have starts := (preordered_parse v t).starts
  have ordered := elements_pairwise v t
  rw [findById, List.find?_eq_some_iff_append]
  simp only [beq_iff_eq, Node.attributeValue?_eq_some_iff, Bool.not_eq_true', beq_eq_false_iff_ne, ne_eq]
  constructor
  · rintro ⟨hasId, before, after, split, others⟩
    have element : (parse v t).IsElement id := mem_elements_iff.mp (by simp [split])
    refine ⟨element, hasId, fun other known other_hasId differ => ?_⟩
    have mem := mem_elements_iff.mpr known
    rw [split] at mem ordered
    rcases List.mem_append.mp mem with earlier | here
    · exact absurd other_hasId (others other earlier)
    · have later := (List.mem_cons.mp here).resolve_left differ
      have behind := List.rel_of_pairwise_cons (List.pairwise_append.mp ordered).2.1 later
      exact starts id other (Nat.pos_of_ne_zero element.1) behind known.2
  · rintro ⟨element, hasId, first⟩
    obtain ⟨before, after, split⟩ := List.append_of_mem (mem_elements_iff.mpr element)
    refine ⟨hasId, before, after, split, fun other earlier other_hasId => ?_⟩
    have known : (parse v t).IsElement other := mem_elements_iff.mp (by simp [split, earlier])
    rw [split] at ordered
    have behind := (List.pairwise_append.mp ordered).2.2 other earlier id List.mem_cons_self
    have later := first other known other_hasId (Nat.ne_of_lt behind)
    have := starts other id (Nat.pos_of_ne_zero known.1) behind element.2
    omega

end Document

end MarkupAnalysis
