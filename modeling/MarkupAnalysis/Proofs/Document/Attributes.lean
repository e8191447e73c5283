import MarkupAnalysis.Proofs.Document.Steps
import MarkupAnalysis.Proofs.Token.Spelling

/-! # Attributes stand where their spans say

The spans of an attribute point at its name and at its value in the text, and the attributes of a start tag
stand in it one after the other. A value is given to the latest attribute, which is the one it belongs to:
nothing but blanks and one `=` has been read since its name.

* **`Attribute.StandsIn`** — what stands at the spans of an attribute.
* **`Node.AttributesStandIn`** — the attributes of an element, in their order.
* **`Builder.AttributesStandIn`** — the invariant by modes: how far the start tag goes that is being read.
* **`Builder.AttributesStandIn.of_nodeStep`**, **`Builder.AttributesStandIn.take`** — every token keeps it.
* **`parse_attributesStand`** — the attributes of every text stand where the spans of its tree say. -/

namespace MarkupAnalysis

open Text Document

/-! ## Attributes -/

/-- A quote has one byte. -/
theorem Text.byteLength_quote {quote : Char} (quotes : isQuote quote = true) : byteLength [quote] = 1 := by
  simp only [isQuote, Bool.or_eq_true, decide_eq_true_eq] at quotes
  rcases quotes with rfl | rfl <;> rfl

/-- There are ASCII blanks and one `=` between two offsets of the text. -/
def Text.AssignmentBetween (t : Text) (start stop : Nat) : Prop :=
  ∃ blanks blanks', t.slice? ⟨start, stop⟩ = some (blanks ++ '=' :: blanks') ∧
    (∀ c ∈ blanks, isAsciiBlank c = true) ∧ ∀ c ∈ blanks', isAsciiBlank c = true

/-- A `=` after blanks. -/
theorem Text.BlankBetween.assign {t : Text} {start middle stop : Nat} (left : t.BlankBetween start middle)
    (right : t.slice? ⟨middle, stop⟩ = some ['=']) : t.AssignmentBetween start stop := by
  obtain ⟨blanks, here, blank⟩ := left
  exact ⟨blanks, [], slice?_join here right, blank, nofun⟩

/-- Blanks after the `=`. -/
theorem Text.AssignmentBetween.join {t : Text} {start middle stop : Nat}
    (left : t.AssignmentBetween start middle) (right : t.BlankBetween middle stop) :
    t.AssignmentBetween start stop := by
  obtain ⟨blanks, first, here, blank, blank'⟩ := left
  obtain ⟨second, there, blank''⟩ := right
  refine ⟨blanks, first ++ second, ?_, blank, fun c mem => ?_⟩
  · rw [slice?_join here there, List.append_assoc, List.cons_append]
  · exact (List.mem_append.mp mem).elim (blank' c) (blank'' c)

/-- **The content of a value** stands where its span says, inside the value. -/
theorem AttributeValue.slice_contentSpan {t : Text} {value : AttributeValue}
    (slice : t.slice? value.span = some value.text) :
    t.slice? value.contentSpan = some value.text.stripQuotes ∧
      value.span.covers value.contentSpan = true := by
  obtain ⟨text, span⟩ := value
  unfold contentSpan
  dsimp only at slice ⊢
  cases quoted : text.isQuoted with
  | false =>
    rw [stripQuotes_of_not_isQuoted quoted]
    exact ⟨slice, Span.covers_self span⟩
  | true =>
    cases text with
    | nil => cases quoted
    | cons quote content =>
      have quotes : isQuote quote = true := quoted
      have one_byte : byteLength [quote] = 1 := byteLength_quote quotes
      have stripped : stripQuotes (quote :: content) = withoutLast quote content := if_pos quotes
      obtain ⟨tail, split⟩ := withoutLast_prefix quote content
      have whole : quote :: content = [quote] ++ (withoutLast quote content ++ tail) := by
        rw [split]
        rfl
      rw [whole] at slice
      have behind := (slice?_split slice).2
      rw [one_byte] at behind
      obtain ⟨-, -, -, -, stop⟩ := slice?_eq_some_iff.mp behind
      rw [byteLength_append] at stop
      rw [if_pos rfl, stripped]
      refine ⟨(slice?_split behind).1, Span.covers_iff.mpr ⟨Nat.le_succ _, ?_⟩⟩
      show span.start + 1 + byteLength (withoutLast quote content) ≤ span.stop
      omega

/-- **An attribute stands in the text.** Its value, if it has one, comes with its span. -/
structure Attribute.StandsIn (t : Text) (a : Attribute) : Prop where
  /-- The name stands where its span says. -/
  name : t.slice? a.nameSpan = some a.name ∧ a.name ≠ []
  /-- The value stands where its span says, behind blanks and one `=`. -/
  value : ∀ value, a.value = some value →
    t.slice? value.span = some value.text ∧ t.AssignmentBetween a.nameSpan.stop value.span.start
  /-- The value without its quotes stands where its own span says. -/
  unquoted : a.valueContentSpan.bind t.slice? = a.unquotedValue
  /-- The value without its quotes stands inside the value. -/
  inside : ∀ value, a.value = some value → value.span.covers value.contentSpan = true

/-- The content of the value stands in the text wherever the value does. -/
theorem Attribute.standsIn_of_slice {t : Text} {a : Attribute} (name : t.slice? a.nameSpan = some a.name)
    (some_name : a.name ≠ []) (value : ∀ value, a.value = some value →
      t.slice? value.span = some value.text ∧
        t.AssignmentBetween a.nameSpan.stop value.span.start) : a.StandsIn t := by
  refine ⟨⟨name, some_name⟩, value, ?_, fun value' given =>
    (AttributeValue.slice_contentSpan (value value' given).1).2⟩
  unfold valueContentSpan unquotedValue
  cases given : a.value with
  | none => rfl
  | some value' => exact (AttributeValue.slice_contentSpan (value value' given).1).1

/-! ## The attributes of an element -/

/-- **The attributes of an element stand in the text**, in their order, in its start tag. -/
structure Node.AttributesStandIn (t : Text) (n : Node) : Prop where
  /-- Each of them stands where its spans say. -/
  each : ∀ a ∈ n.attributes, a.StandsIn t
  /-- Each of them ends before the next one starts, with something between them. -/
  apart : n.attributes.toList.Pairwise fun a later => a.span.stop < later.span.start
  /-- All of them come after the name of the tag. -/
  named : ∀ name, n.name = some name → ∀ a ∈ n.attributes, name.span.stop < a.span.start
  /-- All of them come before the end of the start tag; where that is missing, they lie in the element. -/
  inTag : ∀ a ∈ n.attributes, (∀ stop, n.startTagEnd = some stop → a.span.stop < stop) ∧
    (n.startTagEnd = none → a.span.stop ≤ n.stop)

/-- The name of an element and its attributes end before an offset. -/
structure Node.PartsEndBefore (n : Node) (offset : Nat) : Prop where
  name : ∀ name, n.name = some name → name.span.stop < offset
  attributes : ∀ a ∈ n.attributes, a.span.stop < offset

/-- The latest attribute has no value yet, and the end of its name has a property. -/
def Node.Awaits (n : Node) (between : Nat → Prop) : Prop :=
  ∃ (others : Array Attribute) (a : Attribute), n.attributes = others.push a ∧ a.value = none ∧
    between a.nameSpan.stop

namespace Node

variable {t : Text} {n : Node} {offset offset' : Nat} {others : Array Attribute} {a : Attribute}

/-- An element without a name and without attributes. -/
theorem PartsEndBefore.of_empty (nameless : n.name = none) (empty : n.attributes = #[]) :
    n.PartsEndBefore offset :=
  ⟨fun _ named => absurd (nameless.symm.trans named) nofun, by simp [empty]⟩

/-- What ends before an offset ends before later ones. -/
theorem PartsEndBefore.mono (h : n.PartsEndBefore offset) (later : offset ≤ offset') :
    n.PartsEndBefore offset' :=
  ⟨fun name named => Nat.lt_of_lt_of_le (h.name name named) later,
    fun a mem => Nat.lt_of_lt_of_le (h.attributes a mem) later⟩

/-- What is known of the end of the latest name may be replaced by what follows from it. -/
theorem Awaits.imp {between between' : Nat → Prop} (h : n.Awaits between)
    (follows : ∀ behind, between behind → between' behind) : n.Awaits between' := by
  obtain ⟨others, a, split, no_value, known⟩ := h
  exact ⟨others, a, split, no_value, follows _ known⟩

namespace AttributesStandIn

/-- An element without attributes. -/
theorem of_empty (empty : n.attributes = #[]) : n.AttributesStandIn t where
  each := by simp [empty]
  apart := by simp [empty]
  named := by simp [empty]
  inTag := by simp [empty]

/-- **One more attribute**, behind the others and the name. -/
theorem push (h : n.AttributesStandIn t) (ends : n.PartsEndBefore a.span.start) (stands : a.StandsIn t)
    (unfinished : n.startTagEnd = none) (bound : a.span.stop ≤ n.stop) :
    { n with attributes := n.attributes.push a }.AttributesStandIn t where
  each := by
    intro x mem
    rcases Array.mem_push.mp mem with before | rfl
    · exact h.each x before
    · exact stands
  apart := by
    rw [Array.toList_push, List.pairwise_append]
    refine ⟨h.apart, List.pairwise_singleton _ _, fun x mem later here => ?_⟩
    rw [List.mem_singleton.mp here]
    exact ends.attributes x (Array.mem_toList_iff.mp mem)
  named := by
    intro name named x mem
    rcases Array.mem_push.mp mem with before | rfl
    · exact h.named name named x before
    · exact ends.name name named
  inTag := by
    intro x mem
    refine ⟨fun stop finished => absurd (unfinished.symm.trans finished) nofun, fun _ => ?_⟩
    rcases Array.mem_push.mp mem with before | rfl
    · exact (h.inTag x before).2 unfinished
    · exact bound

/-- All attributes but the last one. -/
theorem dropLast (h : n.AttributesStandIn t) (split : n.attributes = others.push a) :
    { n with attributes := others }.AttributesStandIn t ∧
      { n with attributes := others }.PartsEndBefore a.span.start := by
  have fewer {x : Attribute} (mem : x ∈ others) : x ∈ n.attributes := by
    rw [split]
    exact Array.mem_push_of_mem a mem
  have last : a ∈ n.attributes := by
    rw [split]
    exact Array.mem_push_self
  have order := h.apart
  rw [split, Array.toList_push, List.pairwise_append] at order
  refine ⟨⟨fun x mem => h.each x (fewer mem), order.1,
    fun name named x mem => h.named name named x (fewer mem), fun x mem => h.inTag x (fewer mem)⟩,
    fun name named => h.named name named a last, fun x mem => ?_⟩
  exact order.2.2 x (Array.mem_toList_iff.mpr mem) a List.mem_cons_self

/-- The end of an element with a complete start tag has no part in its attributes. -/
theorem of_startTagEnd (h : n.AttributesStandIn t) {e : Nat} (ends : n.startTagEnd = some e) (stop : Nat)
    (closed : Bool) (endTag : Option EndTag) :
    { n with stop, closed, endTag }.AttributesStandIn t :=
  ⟨h.each, h.apart, h.named, fun a mem =>
    ⟨(h.inTag a mem).1, fun unfinished => absurd (ends.symm.trans unfinished) nofun⟩⟩

end AttributesStandIn

end Node

/-! ## Between two tokens -/

namespace Builder

variable {v : Vocabulary} {t : Text} {b : Builder} {s : Tokenizer} {id : NodeId} {n : Node}

/-- **The attributes between two tokens.** Those of the start tag that is being read end by the place of the
scan, and before it once blanks have been read. -/
structure AttributesStandIn (t : Text) (s : Tokenizer) (b : Builder) : Prop where
  /-- The attributes of all nodes stand in the text. -/
  nodes : ∀ id < b.nodes.size, (b.node id).AttributesStandIn t
  /-- Before its name an element has no attributes. -/
  fresh : s.mode = .startTagOpened → ∀ id, b.startTag = some id →
    (b.node id).name = none ∧ (b.node id).attributes = #[]
  /-- The start tag has been read up to the place of the scan. -/
  reached : ∀ id, b.startTag = some id → (b.node id).PartsEndBefore (s.position + 1)
  /-- After blanks there is something between the start tag so far and the place of the scan. -/
  spaced : s.memory.blankBefore = true → ∀ id, b.startTag = some id →
    (b.node id).PartsEndBefore s.position
  /-- After the name of an attribute there are blanks. -/
  named : s.mode = .attributeName → ∀ id, b.startTag = some id →
    (b.node id).Awaits fun behind => t.BlankBetween behind s.position
  /-- After its `=` there are blanks. -/
  assigned : s.mode = .attributeValue → ∀ id, b.startTag = some id →
    (b.node id).Awaits fun behind => t.AssignmentBetween behind s.position

/-- The latest attribute is put back with its value. -/
theorem modify_giveValue {others : Array Attribute} {a : Attribute} (no_value : a.value = none)
    (token : Token) :
    (others.push a).modify ((others.push a).size - 1) (giveValue token) =
      others.push { a with value := some ⟨token.text, token.span⟩ } := by
  rw [Array.size_push, Nat.add_sub_cancel, modify_push, giveValue, no_value, Option.none_or]

namespace AttributesStandIn

/-- **Every way of changing a node** keeps its attributes in the text. -/
theorem of_nodeStep (so_far : b.AttributesStandIn t s) (here : s.At t)
    (stands : b.Stands t.byteLength s.mode s.position)
    (step : b.NodeStep v t.byteLength s.token id n) : n.AttributesStandIn t := by
  obtain ⟨frontier, -, nested⟩ := stands.exists_nested
  have of_reading (reading : b.startTag = some id) :
      (b.node id).AttributesStandIn t ∧ (b.node id).startTagEnd = none ∧
        (b.node id).stop = t.byteLength := by
    obtain ⟨inside, -, -, unfinished, -, stop, -⟩ := nested.reading id reading
    exact ⟨so_far.nodes id inside, unfinished, stop⟩
  cases step with
  | keeps known => exact so_far.nodes id known
  | adopts _ known =>
    have h := so_far.nodes id known
    exact ⟨h.each, h.apart, h.named, h.inTag⟩
  | opens => exact .of_empty rfl
  | names kind reading =>
    exact .of_empty (so_far.fresh (Tokenizer.mode_of_startTag kind) id reading).2
  | interrupts _ reading =>
    obtain ⟨h, unfinished, -⟩ := of_reading reading
    refine ⟨h.each, h.apart, h.named, fun a mem =>
      ⟨fun stop finished => absurd (unfinished.symm.trans finished) nofun, fun _ => ?_⟩⟩
    -- What has been read of the start tag lies before the interruption.
    have ends := (so_far.reached id reading).attributes a mem
    exact Nat.le_trans (Nat.le_of_lt_succ ends) Tokenizer.position_le_rest
  | endsStartTag kind reading some_text =>
    obtain ⟨h, -, -⟩ := of_reading reading
    refine ⟨h.each, h.apart, h.named, fun a mem => ⟨fun stop finished => ?_, nofun⟩⟩
    obtain rfl := Option.some.inj finished
    have ends := (so_far.reached id reading).attributes a mem
    show a.span.stop < s.position + s.token.text.byteLength
    rw [Tokenizer.text_of_startTagClose kind some_text]
    exact ends
  | selfCloses kind reading =>
    obtain ⟨h, -, -⟩ := of_reading reading
    refine ⟨h.each, h.apart, h.named, fun a mem => ⟨fun stop finished => ?_, nofun⟩⟩
    obtain rfl := Option.some.inj finished
    have ends := (so_far.reached id reading).attributes a mem
    show a.span.stop < s.position + s.token.text.byteLength
    rw [Tokenizer.text_of_startTagSelfClose kind]
    exact Nat.lt_succ_of_lt ends
  | addsAttribute kind reading =>
    obtain ⟨h, unfinished, stop⟩ := of_reading reading
    -- Blanks keep the new attribute apart from those before it.
    refine h.push (so_far.spaced (Tokenizer.blankBefore_of_attributeName kind) id reading) ?_
      unfinished ?_
    · exact Attribute.standsIn_of_slice here.slice (Tokenizer.text_ne_nil kind (by decide)) nofun
    · rw [stop]
      exact here.rest.position_le
  | addsValue kind reading =>
    obtain ⟨h, unfinished, stop⟩ := of_reading reading
    -- The latest attribute is taken off and put back with its value.
    obtain ⟨others, a, split, no_value, between⟩ :=
      so_far.assigned (Tokenizer.mode_of_attributeValue kind) id reading
    obtain ⟨h', ends⟩ := h.dropLast split
    have known : a.StandsIn t := by
      refine h.each a ?_
      rw [split]
      exact Array.mem_push_self
    rw [split, modify_giveValue no_value]
    refine h'.push ends (Attribute.standsIn_of_slice known.name.1 known.name.2 ?_) unfinished ?_
    · rintro value value_given
      obtain rfl := Option.some.inj value_given
      exact ⟨here.slice, between⟩
    · show s.rest.position ≤ (b.node id).stop
      rw [stop]
      exact here.rest.position_le
  | cutsOff kind start mem =>
    -- Open elements have complete start tags, so that their ends may move.
    obtain ⟨e, ends⟩ := stands.exists_startTagEnd kind mem
    exact (so_far.nodes id (nested.lt_size mem)).of_startTagEnd ends _ _ _
  | closes kind opening mem =>
    obtain ⟨e, ends⟩ := stands.exists_startTagEnd kind mem
    exact (so_far.nodes id (nested.lt_size mem)).of_startTagEnd ends _ _ _
  | endsEndTag kind ended =>
    obtain ⟨-, just_ended⟩ := stands.justEnded_of_endTagClose kind ended
    obtain ⟨e, ends⟩ := just_ended.startTagEnd
    exact (so_far.nodes id just_ended.inside).of_startTagEnd ends _ _ _

/-- Before the first token there is no attribute. -/
theorem start (length : Nat) : (Builder.start length).AttributesStandIn t s where
  nodes := by
    intro id inside
    obtain rfl := Nat.lt_one_iff.mp inside
    exact .of_empty rfl
  fresh := nofun
  reached := nofun
  spaced := nofun
  named := nofun
  assigned := nofun

/-- **How far a start tag goes** after the next token. -/
theorem partsEndBefore_of_nodeStep {length frontier : Nat} (so_far : b.AttributesStandIn t s)
    (nested : b.Nested length frontier) (reading : b.startTag = some id)
    (step : b.NodeStep v length s.token id n) :
    n.PartsEndBefore (s.rest.position + 1) ∧
      (s.token.kind.isPart = false → n.PartsEndBefore (s.position + 1)) := by
  have before := so_far.reached id reading
  have later := before.mono (Nat.succ_le_succ Tokenizer.position_le_rest)
  have behind : s.token.span.stop < s.rest.position + 1 := Nat.lt_succ_self _
  -- Names, attributes and values end with the token, and no other step adds a part.
  cases step with
  | keeps | adopts | interrupts | endsStartTag | selfCloses | cutsOff | closes | endsEndTag =>
    exact ⟨⟨later.name, later.attributes⟩, fun _ => ⟨before.name, before.attributes⟩⟩
  | opens _ fresh =>
    have inside := (nested.reading id reading).1
    exact absurd fresh (Nat.ne_of_lt inside)
  | names kind =>
    refine ⟨⟨fun name named => ?_, later.attributes⟩, by rw [kind]; nofun⟩
    obtain rfl := Option.some.inj named
    exact behind
  | addsAttribute kind =>
    refine ⟨⟨later.name, fun a mem => ?_⟩, by rw [kind]; nofun⟩
    rcases Array.mem_push.mp mem with known | rfl
    · exact later.attributes a known
    · exact behind
  | addsValue kind =>
    refine ⟨⟨later.name, fun a mem => ?_⟩, by rw [kind]; nofun⟩
    obtain ⟨others, latest, split, no_value, -⟩ :=
      so_far.assigned (Tokenizer.mode_of_attributeValue kind) id reading
    dsimp only at mem
    rw [split, modify_giveValue no_value] at mem
    rcases Array.mem_push.mp mem with known | rfl
    · refine later.attributes a ?_
      rw [split]
      exact Array.mem_push_of_mem latest known
    · exact behind

/-- **Every token keeps the attributes in the text.** -/
theorem take (so_far : b.AttributesStandIn t s) (here : s.At t) (some_ahead : s.ahead ≠ [])
    (stands : b.Stands t.byteLength s.mode s.position) :
    (b.take v t.byteLength s.token).AttributesStandIn t s.rest := by
  obtain ⟨frontier, -, nested⟩ := stands.exists_nested
  have reads := Tokenizer.reads some_ahead
  have stands' : (b.take v t.byteLength s.token).Stands t.byteLength s.rest.mode s.rest.position :=
    stands_take v stands reads rfl Tokenizer.position_le_rest (Tokenizer.position_lt_rest some_ahead)
  obtain ⟨frontier', -, nested'⟩ := stands'.exists_nested
  have opened (kind : s.token.kind = .startTagOpen) :
      ((b.take v t.byteLength s.token).node b.nodes.size).name = none ∧
        ((b.take v t.byteLength s.token).node b.nodes.size).attributes = #[] := by
    rw [Builder.take, kind, node_openElement_size nested.current_lt_size]
    exact ⟨rfl, rfl⟩
  have step {id : NodeId} (reading : (b.take v t.byteLength s.token).startTag = some id) :=
    nodeStep_take nested v s.token (nested'.reading id reading).1
  refine ⟨?nodes, ?fresh, ?reached, ?spaced, ?named, ?assigned⟩
  case nodes =>
    intro id inside
    exact so_far.of_nodeStep here stands (nodeStep_take nested v s.token inside)
  case fresh =>
    intro mode id reading
    rw [mode] at reads
    rcases reads.to_startTagOpened with kind | ⟨kind, before⟩
    · rw [Builder.take, kind] at reading
      obtain rfl : b.nodes.size = id := Option.some.inj reading
      exact opened kind
    · rw [take_filler (.inl kind)] at reading ⊢
      exact so_far.fresh before id reading
  case reached =>
    intro id reading
    rcases startTag_take reading with ⟨kind, rfl⟩ | before
    · exact .of_empty (opened kind).1 (opened kind).2
    · exact (so_far.partsEndBefore_of_nodeStep nested before (step reading)).1
  case spaced =>
    intro blank id reading
    rcases startTag_take reading with ⟨kind, rfl⟩ | before
    · exact .of_empty (opened kind).1 (opened kind).2
    · have no_part : s.token.kind.isPart = false := by
        rw [← Bool.not_eq_true]
        exact fun part => Bool.false_ne_true ((Tokenizer.blankBefore_rest part).symm.trans blank)
      -- In a start tag every token has characters.
      obtain ⟨start, stop⟩ := reads.to_inStartTag (stands'.inStartTag reading)
      exact ((so_far.partsEndBefore_of_nodeStep nested before (step reading)).2 no_part).mono
        (Tokenizer.position_lt_rest some_ahead start stop)
  case named =>
    intro mode id reading
    rw [mode] at reads
    rcases reads.to_attributeName with kind | ⟨kind, before⟩
    · rcases startTag_take reading with ⟨opens, -⟩ | before
      · cases kind.symm.trans opens
      · rw [node_take_attributeName kind before (nested.reading id before).1]
        exact ⟨_, _, rfl, rfl, .refl here.rest.isBoundary⟩
    · rw [take_filler (.inl kind)] at reading ⊢
      exact (so_far.named before id reading).imp fun _ blank => blank.join (here.blankBetween kind)
  case assigned =>
    intro mode id reading
    rw [mode] at reads
    rcases reads.to_attributeValue with ⟨kind, before⟩ | ⟨kind, before⟩
    · rw [take_filler (.inr (.inr kind))] at reading ⊢
      have assignment := here.slice
      rw [Tokenizer.text_of_delimiterAssign kind] at assignment
      exact (so_far.named before id reading).imp fun _ blank => blank.assign assignment
    · rw [take_filler (.inl kind)] at reading ⊢
      exact (so_far.assigned before id reading).imp fun _ between => between.join (here.blankBetween kind)

end AttributesStandIn

end Builder

/-! ## Whole texts -/

namespace Document

/-- The attributes after some of the tokens of a text. -/
theorem attributesStand_built {v : Vocabulary} {t : Text} {s : Tokenizer} {passed : List Token}
    (h : (scanner v t).Passes passed s) : (built v t passed).AttributesStandIn t s := by
  refine h.along (P := fun passed s => (built v t passed).AttributesStandIn t s) ?_ ?_
  · exact .start t.byteLength
  · intro passed s passes some_ahead so_far
    rw [built_concat]
    exact so_far.take (passes.at_of_at (scanner_at v t)) some_ahead (stands_built passes)

/-- **The attributes of a tree stand in the text** where their spans say. -/
structure AttributesStand (t : Text) (d : Document) : Prop where
  /-- The attributes of every node stand in the text. -/
  node : ∀ id < d.nodes.size, (d.node id).AttributesStandIn t

/-- The attributes of a node of a text stand where their spans say. -/
theorem attributesStandIn_parse {v : Vocabulary} {t : Text} {id : NodeId}
    (inside : id < (parse v t).nodes.size) : ((parse v t).node id).AttributesStandIn t := by
  obtain ⟨passed, s, passes, ended, -⟩ := (scanner v t).exists_passes
  obtain ⟨frontier, -, nested⟩ := (stands_built passes).exists_nested
  rw [size_parse_of_ended passes ended] at inside
  have known := (attributesStand_built passes).nodes id inside
  rw [node_parse_of_ended passes ended]
  split
  · rename_i mem
    by_cases reading : (built v t passed).startTag = some id
    · -- Where the start tag is not finished, the element reaches to the end of the text already.
      have stop := (nested.reading id reading).2.2.2.2.2.1
      rw [Builder.cut, ← stop]
      exact ⟨known.each, known.apart, known.named, known.inTag⟩
    · obtain ⟨e, ends, -⟩ := nested.openTag id mem reading
      exact known.of_startTagEnd ends _ _ _
  · exact known

end Document

/-- **The attributes of every text stand where the spans of its tree say.** -/
theorem parse_attributesStand (v : Vocabulary) (t : Text) : (parse v t).AttributesStand t :=
  ⟨fun _ => attributesStandIn_parse⟩

end MarkupAnalysis
