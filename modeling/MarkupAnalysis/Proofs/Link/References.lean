import MarkupAnalysis.Link.Basic
import MarkupAnalysis.Proofs.Document.Brackets
import MarkupAnalysis.Proofs.Document.Identifiers
import MarkupAnalysis.Proofs.Document.StartTagTokens
import MarkupAnalysis.Proofs.Token.Values

/-! # References and the links that come from them

The references of a document are values of its attributes, in the order in which they are written. Each of
them is a link or none, so links come in the same order, and each from a value of its own. What a link says
of its place is what stands there: the value without the quotes that enclose it.

* **`stripMatchingQuotes_cases`**, **`slice_referenceSpan`** — the reference that a value holds.
* **`targetOf_eq_offset`**, **`targetOf_of_relative`** — what it leads to.
* **`Document.references`**, **`Document.references_pairwise`** — the references in order.
* **`Link.IsOf`**, **`Document.exists_sources_links`**, **`Document.exists_reference_of_mem_links`** — the
  values that links come from. -/

namespace MarkupAnalysis

open Text Document

variable {t : Text} {v : Vocabulary} {context : LinkContext} {base : Option Text} {link : Link}
  {value : AttributeValue}

/-! ## The reference that a value holds -/

/-- **Matching quotes** are removed, and nothing else. -/
theorem stripMatchingQuotes_cases (t : Text) :
    (∃ quote, isQuote quote = true ∧ t = quote :: (stripMatchingQuotes t ++ [quote])) ∨
      stripMatchingQuotes t = t := by
  cases t with
  | nil => exact .inr rfl
  | cons c cs =>
    rw [stripMatchingQuotes]
    split_ifs with matching
    · rw [Bool.and_eq_true, decide_eq_true_eq] at matching
      obtain ⟨content, rfl⟩ := List.getLast?_eq_some_iff.mp matching.2
      exact .inl ⟨c, matching.1, by rw [List.dropLast_concat]⟩
    · exact .inr rfl

/-- **The reference stands where its span says**, inside the value. -/
theorem slice_referenceSpan (slice : t.slice? value.span = some value.text) :
    t.slice? (referenceSpan value) = some (stripMatchingQuotes value.text) ∧
      value.span.covers (referenceSpan value) = true := by
  obtain ⟨text, span⟩ := value
  dsimp only at slice
  unfold referenceSpan
  dsimp only
  rcases stripMatchingQuotes_cases text with ⟨quote, quotes, matching⟩ | same
  · generalize stripMatchingQuotes text = content at matching ⊢
    have shorter : content.length < text.length := by
      rw [matching, List.length_cons, List.length_append]
      omega
    have whole : t.slice? span = some ([quote] ++ (content ++ [quote])) := by rw [slice, matching]; rfl
    have behind := (slice?_split whole).2
    have stop := stop_of_slice? behind
    rw [byteLength_append] at stop
    rw [byteLength_quote quotes] at behind stop
    dsimp only at stop
    rw [if_pos shorter, show span.stop - 1 = span.start + 1 + byteLength content by omega]
    exact ⟨(slice?_split behind).1, Span.covers_iff.mpr ⟨Nat.le_succ _, by dsimp only; omega⟩⟩
  · rw [same, if_neg (Nat.lt_irrefl _)]
    exact ⟨slice, Span.covers_self span⟩

/-! ## Targets -/

/-- **A link into the document** is written as a `#` and the identifier of an element. -/
theorem targetOf_eq_offset [WordClass] {d : Document} {reference : Text} {offset : Nat}
    (leads : targetOf d context base reference = some (.offset offset)) :
    ∃ fragment id, reference = '#' :: fragment ∧ d.findById fragment = some id ∧
      offset = (d.node id).start := by
  unfold targetOf at leads
  split at leads
  · unfold schemeTarget at leads
    dsimp only at leads
    split_ifs at leads <;> cases leads
  · rename_i fragment no_scheme
    obtain ⟨id, found, same⟩ := Option.map_eq_some_iff.mp leads
    cases same
    exact ⟨fragment, id, rfl, found, rfl⟩
  · cases leads
  · obtain ⟨uri, -, same⟩ := Option.map_eq_some_iff.mp leads
    cases same

/-- **A relative reference** is resolved against the base. -/
theorem targetOf_of_relative [WordClass] {d : Document} {reference : Text}
    (no_scheme : Uri.scheme? reference = none) (no_fragment : reference.head? ≠ some '#')
    (no_host : ¬ "//".toList <+: reference) : targetOf d context base reference =
      (context.resolve reference (base.getD context.uri)).map .uri := by
  unfold targetOf
  split
  · rename_i starts
    cases starts.symm.trans no_scheme
  · exact absurd rfl no_fragment
  · exact absurd ⟨_, rfl⟩ no_host
  · rfl

/-! ## Attributes in order -/

namespace Document

/-- The attributes of an element stand between its `<` and its content. -/
theorem attribute_inside {id : NodeId} (element : (parse v t).IsElement id) {a : Attribute}
    (mem : a ∈ ((parse v t).node id).attributes) :
    ((parse v t).node id).start < a.span.start ∧ a.span.stop ≤ ((parse v t).node id).contentStart := by
  refine ⟨(betweenBrackets_parse element.2).opening a mem, ?_⟩
  obtain ⟨finished, unfinished⟩ := (attributesStandIn_parse element.2).inTag a mem
  unfold Node.contentStart
  cases ends : ((parse v t).node id).startTagEnd with
  | none => exact unfinished ends
  | some stop => exact Nat.le_of_lt (finished stop ends)

/-- Later elements start behind the attributes of earlier ones. -/
theorem attribute_stop_le {id later : NodeId} (element : (parse v t).IsElement id) (behind : id < later)
    (known : later < (parse v t).nodes.size) {a : Attribute}
    (mem : a ∈ ((parse v t).node id).attributes) :
    a.span.stop ≤ ((parse v t).node later).start := by
  have h := preordered_parse v t
  have stops := (attribute_inside element mem).2
  rcases h.inside_or_apart element.1 behind known with inside | apart
  · exact Nat.le_trans stops (h.content_of_mem_descendants element inside).1
  · have order := (h.wellFormed.element id element.2 element.1).1
    exact Nat.le_trans (Nat.le_trans stops (Nat.le_trans order.content_le order.le_stop)) apart

/-- **Two attributes of a text** are the same, or there is text between them. -/
theorem attribute_eq_or_apart {id id' : NodeId} {a a' : Attribute} (element : (parse v t).IsElement id)
    (element' : (parse v t).IsElement id') (mem : a ∈ ((parse v t).node id).attributes)
    (mem' : a' ∈ ((parse v t).node id').attributes) :
    a = a' ∨ a.span.stop < a'.span.start ∨ a'.span.stop < a.span.start := by
  rcases Nat.lt_trichotomy id id' with before | rfl | behind
  · exact .inr (.inl (Nat.lt_of_le_of_lt (attribute_stop_le element before element'.2 mem)
      (attribute_inside element' mem').1))
  · exact eq_or_rel_of_pairwise (attributesStandIn_parse element.2).apart
      (Array.mem_toList_iff.mpr mem) (Array.mem_toList_iff.mpr mem')
  · exact .inr (.inr (Nat.lt_of_le_of_lt (attribute_stop_le element' behind element.2 mem')
      (attribute_inside element mem).1))

/-- The value of an attribute stands at its span, behind the name, and ends with the attribute. -/
theorem attributeValue_stands {id : NodeId} (element : (parse v t).IsElement id) {a : Attribute}
    (mem : a ∈ ((parse v t).node id).attributes) (given : a.value = some value) :
    t.slice? value.span = some value.text ∧ a.span.start < value.span.start ∧
      a.span.stop = value.span.stop := by
  have stands := (attributesStandIn_parse element.2).each a mem
  obtain ⟨slice, blanks, blanks', assigned, -⟩ := stands.value value given
  have between := stop_of_slice? assigned
  have name := le_of_slice? stands.name.1
  rw [byteLength_append, byteLength_cons] at between
  have := Char.utf8Size_pos '='
  refine ⟨slice, ?_, ?_⟩
  · show a.nameSpan.start < value.span.start
    dsimp only at between
    omega
  · rw [Attribute.span, given]
    rfl

/-- **Two values that some text lies in** are the same. -/
theorem attributeValue_eq_of_covers {id id' : NodeId} {a a' : Attribute} {value value' : AttributeValue}
    {span : Span} (element : (parse v t).IsElement id) (element' : (parse v t).IsElement id')
    (mem : a ∈ ((parse v t).node id).attributes) (mem' : a' ∈ ((parse v t).node id').attributes)
    (given : a.value = some value) (given' : a'.value = some value') (some_text : span.start < span.stop)
    (inside : value.span.covers span = true) (inside' : value'.span.covers span = true) :
    value = value' := by
  have stands := attributeValue_stands element mem given
  have stands' := attributeValue_stands element' mem' given'
  rw [Span.covers_iff] at inside inside'
  rcases attribute_eq_or_apart element element' mem mem' with rfl | apart | apart
  · exact Option.some.inj (given.symm.trans given')
  · omega
  · omega

end Document

/-! ## The references of a document -/

namespace Document

/-- The values of all attributes that are references, in order. -/
def references (d : Document) (v : Vocabulary) : List AttributeValue :=
  d.elements.flatMap fun id => (d.node id).references v

/-- **A reference of a document** is the value of an attribute that the vocabulary takes for one. -/
structure IsReference (d : Document) (v : Vocabulary) (value : AttributeValue) (id : NodeId)
    (a : Attribute) : Prop where
  /-- The attribute is in the start tag of an element. -/
  element : d.IsElement id ∧ a ∈ (d.node id).attributes
  /-- The value is its own. -/
  given : a.value = some value
  /-- On the tag of the element it locates another resource. -/
  locates : ∃ tag, (d.node id).tag = some tag ∧ v.isReferenceAttribute tag a.name = true

/-- A reference stands at its span. -/
theorem IsReference.slice {id : NodeId} {a : Attribute} (h : (parse v t).IsReference v value id a) :
    t.slice? value.span = some value.text :=
  (attributeValue_stands h.element.1 h.element.2 h.given).1

end Document

/-- The references of a node are values of its attributes. -/
theorem Node.mem_references_iff {n : Node} : value ∈ n.references v ↔
    ∃ a ∈ n.attributes, a.value = some value ∧
      ∃ tag, n.tag = some tag ∧ v.isReferenceAttribute tag a.name = true := by
  unfold references
  cases n.tag with
  | none => simp
  | some tag => simp [and_comm]

namespace Document

/-- Every reference of a text belongs to an attribute of it. -/
theorem mem_references_iff : value ∈ (parse v t).references v ↔
    ∃ id a, (parse v t).IsReference v value id a := by
  simp only [references, List.mem_flatMap, mem_elements_iff, Node.mem_references_iff]
  constructor
  · rintro ⟨id, element, a, mem, given, locates⟩
    exact ⟨id, a, ⟨element, mem⟩, given, locates⟩
  · rintro ⟨id, a, ⟨element, mem⟩, given, locates⟩
    exact ⟨id, element, a, mem, given, locates⟩

/-- **References are in order**, with text between them. -/
theorem references_pairwise (v : Vocabulary) (t : Text) :
    ((parse v t).references v).Pairwise fun value later => value.span.stop < later.span.start := by
  rw [references, List.pairwise_flatMap]
  refine ⟨fun id mem => ?_, ?_⟩
  · -- Of one element: in the order of its attributes.
    have element := mem_elements_iff.mp mem
    unfold Node.references
    cases tag : ((parse v t).node id).tag with
    | none => exact .nil
    | some name =>
      dsimp only
      rw [List.pairwise_filterMap]
      refine (attributesStandIn_parse element.2).apart.imp_of_mem ?_
      intro a a' mem mem' apart value found value' found'
      split_ifs at found found'
      have stands := attributeValue_stands element (Array.mem_toList_iff.mp mem) found
      have stands' := attributeValue_stands element (Array.mem_toList_iff.mp mem') found'
      omega
  · -- Of two elements: the later one starts behind all attributes of the earlier one.
    refine (elements_pairwise v t).imp_of_mem ?_
    intro id id' mem mem' later value found value' found'
    have element := mem_elements_iff.mp mem
    have element' := mem_elements_iff.mp mem'
    obtain ⟨a, written, given, -⟩ := Node.mem_references_iff.mp found
    obtain ⟨a', written', given', -⟩ := Node.mem_references_iff.mp found'
    have stands := attributeValue_stands element written given
    have stands' := attributeValue_stands element' written' given'
    have stops := attribute_stop_le element later element'.2 written
    have starts := (attribute_inside element' written').1
    omega

end Document

/-! ## The sources of links -/

/-- **A link comes from a value**: it is the link of the value for some base. -/
def Link.IsOf [WordClass] (link : Link) (d : Document) (context : LinkContext) (value : AttributeValue) :
    Prop :=
  ∃ base, Link.of? d context base value = some link

/-- **The link of a value** has the span of its reference and leads to the reference's target. -/
theorem Link.of?_eq_some_iff [WordClass] {d : Document} : Link.of? d context base value = some link ↔
    isUsable (stripMatchingQuotes value.text) = true ∧ link.span = referenceSpan value ∧
      targetOf d context base (trimStart (stripMatchingQuotes value.text)) = some link.target := by
  obtain ⟨span, target⟩ := link
  unfold of?
  dsimp only
  split_ifs with usable
  · simp only [Option.map_eq_some_iff, mk.injEq, usable, true_and]
    constructor
    · rintro ⟨target', leads, rfl, rfl⟩
      exact ⟨rfl, leads⟩
    · rintro ⟨rfl, leads⟩
      exact ⟨target, leads, rfl, rfl⟩
  · simp [usable]

/-- What a partial function answers comes from some of its arguments, in their order. -/
theorem exists_sources_filterMap {α β : Type} (f : α → Option β) (l : List α) :
    ∃ sources : List (α × β), (sources.map Prod.fst).Sublist l ∧
      sources.map Prod.snd = l.filterMap f ∧ ∀ source ∈ sources, f source.1 = some source.2 := by
  induction l with
  | nil => exact ⟨[], .slnil, rfl, nofun⟩
  | cons x l ih =>
    obtain ⟨sources, sublist, answers, each⟩ := ih
    cases answer : f x with
    | none => exact ⟨sources, sublist.cons x, by rw [List.filterMap_cons_none answer, answers], each⟩
    | some y =>
      refine ⟨(x, y) :: sources, sublist.cons_cons x, ?_, List.forall_mem_cons.mpr ⟨answer, each⟩⟩
      rw [List.filterMap_cons_some answer, ← answers]
      rfl

namespace Document

variable {d : Document} {id : NodeId} {values : List AttributeValue}

/-- **A `base` element** with a first reference, and others. -/
def SetsBase (d : Document) (v : Vocabulary) (id : NodeId) (value : AttributeValue)
    (values : List AttributeValue) : Prop :=
  (d.node id).tag.any (equalsIgnoringCase · "base".toList) = true ∧
    (d.node id).references v = value :: values

/-- While no base is set, the first reference of a `base` element is no link; it may set the base. -/
theorem linksOf_cons_of_setsBase [WordClass] (h : d.SetsBase v id value values) (ids : List NodeId) :
    d.linksOf v context none (id :: ids) = values.filterMap (Link.of? d context (baseAfter context value)) ++
      d.linksOf v context (baseAfter context value) ids := by
  rw [linksOf]
  · exact h.1
  · exact h.2

/-- The references of any other element, and of any element once a base is set, may all be links. -/
theorem linksOf_cons_of_keeps [WordClass] (h : base = none → ∀ value values, ¬ d.SetsBase v id value values)
    (ids : List NodeId) : d.linksOf v context base (id :: ids) =
      ((d.node id).references v).filterMap (Link.of? d context base) ++ d.linksOf v context base ids := by
  rw [linksOf]
  exact fun value values unset tag references => h unset value values ⟨tag, references⟩

/-- **The links of some elements** come from some of their references, in their order. -/
theorem exists_sources [WordClass] (d : Document) (v : Vocabulary) (context : LinkContext)
    (base : Option Text) (ids : List NodeId) : ∃ sources : List (AttributeValue × Link),
      (sources.map Prod.fst).Sublist (ids.flatMap fun id => (d.node id).references v) ∧
      sources.map Prod.snd = d.linksOf v context base ids ∧
      ∀ source ∈ sources, source.2.IsOf d context source.1 := by
  induction ids generalizing base with
  | nil => exact ⟨[], .slnil, rfl, nofun⟩
  | cons id ids ih =>
    -- Whichever base is in force behind the element, some of its references are links.
    suffices h : ∃ (base' : Option Text) (values : List AttributeValue),
        values.Sublist ((d.node id).references v) ∧ d.linksOf v context base (id :: ids) =
          values.filterMap (Link.of? d context base') ++ d.linksOf v context base' ids by
      obtain ⟨base', values, sublist, links⟩ := h
      obtain ⟨own, own_sublist, own_links, own_each⟩ :=
        exists_sources_filterMap (Link.of? d context base') values
      obtain ⟨others, others_sublist, others_links, others_each⟩ := ih base'
      refine ⟨own ++ others, ?_, ?_, List.forall_mem_append.mpr ⟨?_, others_each⟩⟩
      · rw [List.map_append, List.flatMap_cons]
        exact (own_sublist.trans sublist).append others_sublist
      · rw [List.map_append, own_links, others_links, links]
      · exact fun source mem => ⟨base', own_each source mem⟩
    by_cases h : base = none ∧ ∃ value values, d.SetsBase v id value values
    · obtain ⟨rfl, value, values, sets⟩ := h
      refine ⟨_, values, ?_, linksOf_cons_of_setsBase sets ids⟩
      rw [sets.2]
      exact List.sublist_cons_self value values
    · refine ⟨base, _, .refl _, linksOf_cons_of_keeps (fun unset value values sets => ?_) ids⟩
      exact h ⟨unset, value, values, sets⟩

/-- **The links of a text** come from references of the text, one behind the other. -/
theorem exists_sources_links [WordClass] (v : Vocabulary) (t : Text) (context : LinkContext) :
    ∃ sources : List (AttributeValue × Link), sources.map Prod.snd = (parse v t).links t v context ∧
      sources.Pairwise (fun source later => source.1.span.stop < later.1.span.start) ∧
      ∀ source ∈ sources, (∃ id a, (parse v t).IsReference v source.1 id a) ∧
        source.2.IsOf (parse v t) context source.1 := by
  obtain ⟨sources, sublist, links, each⟩ := exists_sources (parse v t) v context none (parse v t).elements
  have whole : t.byteLength = (parse v t).textLength := rfl
  refine ⟨sources, by rw [links, Document.links, if_pos whole], ?_, fun source mem => ⟨?_, each source mem⟩⟩
  · exact List.pairwise_map.mp ((references_pairwise v t).sublist sublist)
  · exact mem_references_iff.mp (sublist.subset (List.mem_map_of_mem mem))

/-- **Every link of a text** comes from a reference of the text. -/
theorem exists_reference_of_mem_links [WordClass] (known : link ∈ (parse v t).links t v context) :
    ∃ value id a, (parse v t).IsReference v value id a ∧ link.IsOf (parse v t) context value := by
  obtain ⟨sources, links, -, each⟩ := exists_sources_links v t context
  rw [← links] at known
  obtain ⟨source, mem, rfl⟩ := List.mem_map.mp known
  obtain ⟨⟨id, a, reference⟩, isOf⟩ := each source mem
  exact ⟨source.1, id, a, reference, isOf⟩

end Document

end MarkupAnalysis
