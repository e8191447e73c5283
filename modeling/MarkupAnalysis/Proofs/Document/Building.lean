import Mathlib.Data.List.TakeWhile
import MarkupAnalysis.Document.Builder
import MarkupAnalysis.Proofs.Token.Passage

/-! # Operations of the builder

What each operation of the builder makes of the nodes, of the stack of open elements and of the element
whose start tag is being read. Later modules know the operations by these equations only.

* **`Builder.node`** — the nodes as a function of their places.
* **`Builder.node_modify`**, **`Builder.node_cutOff`**, … — one equation for each operation.
* **`Builder.Closes`** — the innermost open element that answers to the name of an end tag.
* **`Builder.endElement_of_closes`**, **`Builder.endElement_of_stray`** — the two cases of an end tag.
* **`Document.built`**, **`Document.parse_eq`** — a document is what the builder has made of all
  tokens. -/

namespace MarkupAnalysis

namespace Builder

variable {b : Builder}

/-! ## Nodes by their places -/

/-- The node at a place of the array; an empty node where there is none. -/
def node (b : Builder) (id : NodeId) : Node := b.nodes[id]?.getD default

/-- Builders with the same array have the same nodes. -/
theorem node_congr {b' : Builder} (h : b'.nodes = b.nodes) : b'.node = b.node := by
  funext id
  rw [node, node, h]

@[simp] theorem nodes_modify (id : NodeId) (change : Node → Node) :
    (b.modify id change).nodes = b.nodes.modify id change := rfl

@[simp] theorem ended_modify (id : NodeId) (change : Node → Node) :
    (b.modify id change).ended = b.ended := rfl

/-- A change of one node leaves the others as they are. -/
theorem node_modify {id : NodeId} (inside : id < b.nodes.size) (change : Node → Node) (j : NodeId) :
    (b.modify id change).node j = if j = id then change (b.node j) else b.node j := by
  unfold node
  rw [nodes_modify, Array.getElem?_modify]
  by_cases h : j = id
  · subst h
    simp [inside]
  · rw [if_neg (Ne.symm h), if_neg h]

/-- A change of one node changes no other. -/
theorem node_modify_of_ne {id j : NodeId} (h : j ≠ id) (change : Node → Node) :
    (b.modify id change).node j = b.node j := by
  unfold node
  rw [nodes_modify, Array.getElem?_modify, if_neg (Ne.symm h)]

/-- A change of an entry in the middle. -/
theorem modify_middle {α : Type} (before after : List α) (a : α) (change : α → α) :
    (before ++ a :: after).toArray.modify before.length change =
      (before ++ change a :: after).toArray := by
  have : (before ++ a :: after).modify before.length change = before ++ change a :: after := by
    induction before with
    | nil => rfl
    | cons first before ih => simp [ih]
  rw [List.modify_toArray, this]

/-- A change of the last entry. -/
theorem modify_push {α : Type} (entries : Array α) (a : α) (change : α → α) :
    (entries.push a).modify entries.size change = entries.push (change a) := by
  obtain ⟨entries⟩ := entries
  simpa using modify_middle entries [] a change

/-- Whether a node has no name yet. -/
theorem nameless_iff {id : NodeId} (inside : id < b.nodes.size) :
    b.nodes[id]?.any (·.name.isNone) = true ↔ (b.node id).name = none := by
  rw [node, Array.getElem?_eq_getElem inside]
  simp

@[simp] theorem size_modify (id : NodeId) (change : Node → Node) :
    (b.modify id change).nodes.size = b.nodes.size := Array.size_modify

/-! ## Leaving an element -/

@[simp] theorem nodes_leave (id : NodeId) : (b.leave id).nodes = b.nodes := by
  unfold leave; split <;> rfl

@[simp] theorem startTag_leave (id : NodeId) : (b.leave id).startTag = b.startTag := by
  unfold leave; split <;> rfl

@[simp] theorem ended_leave (id : NodeId) : (b.leave id).ended = b.ended := by
  unfold leave; split <;> rfl

/-- Leaving takes the innermost open element off the stack, if it is the one. -/
theorem openElements_leave (id : NodeId) :
    (b.leave id).openElements =
      if b.openElements.head? = some id then b.openElements.tail else b.openElements := by
  unfold leave; split <;> rfl

/-! ## Opening an element -/

/-- The record of an element that has just been opened. -/
def opened (b : Builder) (textLength start : Nat) : Node :=
  { start, stop := textLength, parent := some b.current }

@[simp] theorem size_openElement (textLength start : Nat) :
    (b.openElement textLength start).nodes.size = b.nodes.size + 1 := by
  simp [openElement]

@[simp] theorem openElements_openElement (textLength start : Nat) :
    (b.openElement textLength start).openElements = b.nodes.size :: b.openElements := rfl

@[simp] theorem startTag_openElement (textLength start : Nat) :
    (b.openElement textLength start).startTag = some b.nodes.size := rfl

/-- A new element stands at the end of the array, and its parent names it as the last child. -/
theorem node_openElement (inside : b.current < b.nodes.size) (textLength start : Nat) (j : NodeId) :
    (b.openElement textLength start).node j =
      if j = b.nodes.size then b.opened textLength start
      else if j = b.current then
        { b.node j with children := (b.node j).children.push b.nodes.size }
      else b.node j := by
  unfold node
  simp only [openElement, Array.getElem?_modify, Array.getElem?_push]
  by_cases fresh : j = b.nodes.size
  · -- The parent was there before, so it is another node.
    subst fresh
    rw [if_pos rfl, if_neg (Nat.ne_of_lt inside), if_pos rfl]
    rfl
  · rw [if_neg fresh, if_neg fresh]
    by_cases h : j = b.current
    · subst h
      simp [inside]
    · rw [if_neg (Ne.symm h), if_neg h]

/-! ## Cutting elements off -/

@[simp] theorem startTag_cutOff (ids : List NodeId) (stop : Nat) :
    (b.cutOff ids stop).startTag = b.startTag := by
  induction ids generalizing b with
  | nil => rfl
  | cons id ids ih => exact ih

@[simp] theorem size_cutOff (ids : List NodeId) (stop : Nat) :
    (b.cutOff ids stop).nodes.size = b.nodes.size := by
  induction ids generalizing b with
  | nil => rfl
  | cons id ids ih => exact ih.trans (size_modify _ _)

/-- An element that ends without being closed. -/
def cut (stop : Nat) (n : Node) : Node := { n with stop, closed := false }

/-- Exactly the elements named are cut off. -/
theorem node_cutOff {ids : List NodeId} (inside : ∀ id ∈ ids, id < b.nodes.size) (stop : Nat)
    (j : NodeId) :
    (b.cutOff ids stop).node j = if j ∈ ids then cut stop (b.node j) else b.node j := by
  induction ids generalizing b with
  | nil => rfl
  | cons id ids ih =>
    have first := inside id List.mem_cons_self
    show ((b.modify id (cut stop)).cutOff ids stop).node j = _
    rw [ih fun i mem => by simpa using inside i (List.mem_cons_of_mem _ mem),
      node_modify first]
    by_cases same : j = id <;> by_cases mem : j ∈ ids <;> simp [same, mem, cut]

/-! ## Tags that are matched -/

/-- The tag of the element matches the name of the end tag. -/
def Answers (v : Vocabulary) (b : Builder) (token : Token) (id : NodeId) : Prop :=
  ∃ tag, (b.node id).tag = some tag ∧ v.tagNamesMatch tag token.text = true

/-- Whether an end tag closes an element depends on the element's tag alone. -/
theorem closedBy_iff {v : Vocabulary} {token : Token} {id : NodeId} :
    b.closedBy v token.text id = true ↔ b.Answers v token id := by
  have : b.closedBy v token.text id = (b.node id).tag.any (v.tagNamesMatch · token.text) := by
    unfold closedBy node
    cases b.nodes[id]? <;> rfl
  rw [this, Option.any_eq_true]
  rfl

/-- **The innermost open element that answers** to the name of an end tag, and the open elements inside
it and around it. -/
structure Closes (v : Vocabulary) (b : Builder) (token : Token) (inner : List NodeId) (id : NodeId)
    (outer : List NodeId) : Prop where
  /-- The element is open. -/
  split : b.openElements = inner ++ id :: outer
  /-- No open element inside it answers to the name. -/
  passed : ∀ i ∈ inner, ¬ b.Answers v token i
  /-- It does. -/
  answers : b.Answers v token id

/-- If some open element answers to the name, there is an innermost one. -/
theorem exists_closes {v : Vocabulary} {token : Token}
    (some_answers : ∃ i ∈ b.openElements, b.Answers v token i) :
    ∃ inner id outer, b.Closes v token inner id outer := by
  -- The search from the innermost element splits the stack where it stops.
  cases found : b.openElements.find? (b.closedBy v token.text ·) with
  | none =>
    obtain ⟨i, mem, answers⟩ := some_answers
    exact absurd (closedBy_iff.mpr answers) (List.find?_eq_none.mp found i mem)
  | some id =>
    obtain ⟨here, inner, outer, split, passed⟩ := List.find?_eq_some_iff_append.mp found
    refine ⟨inner, id, outer, split, fun i mem answers => ?_, closedBy_iff.mp here⟩
    simpa [closedBy_iff.mpr answers] using passed i mem

/-- There is only one innermost element that answers to a name. -/
theorem Closes.unique {v : Vocabulary} {token : Token} {inner inner' outer outer' : List NodeId}
    {id id' : NodeId} (h : b.Closes v token inner id outer) (h' : b.Closes v token inner' id' outer') :
    id = id' := by
  -- Both are the first one that the search meets.
  have found {inner outer : List NodeId} {id : NodeId} (h : b.Closes v token inner id outer) :
      b.openElements.find? (b.closedBy v token.text ·) = some id := by
    refine List.find?_eq_some_iff_append.mpr ⟨closedBy_iff.mpr h.answers, inner, outer, h.split, ?_⟩
    intro i mem
    simpa using mt closedBy_iff.mp (h.passed i mem)
  exact Option.some.inj ((found h).symm.trans (found h'))

/-- An element that an end tag closes. -/
def closeWith (start : Nat) (nameSpan : Span) (n : Node) : Node :=
  { n with closed := true, endTag := some ⟨start, nameSpan⟩, stop := nameSpan.stop }

/-- **An end tag that is matched** closes the innermost open element of its name and cuts off those
inside it. -/
theorem endElement_of_closes {v : Vocabulary} {token : Token} {start : Nat} {id : NodeId}
    {inner outer : List NodeId} (opening : b.endTagStart = some start)
    (closes : b.Closes v token inner id outer) :
    b.endElement v token =
      { (b.cutOff inner start).modify id (closeWith start token.span) with
        openElements := outer, ended := some id } := by
  have passed : ∀ i ∈ inner, (!b.closedBy v token.text i) = true := by
    intro i mem
    simpa using mt closedBy_iff.mp (closes.passed i mem)
  have here := closedBy_iff.mpr closes.answers
  have before : b.openElements.takeWhile (!b.closedBy v token.text ·) = inner := by
    rw [closes.split, List.takeWhile_append_of_pos passed,
      List.takeWhile_cons_of_neg (by simp [here]), List.append_nil]
  have behind : b.openElements.dropWhile (!b.closedBy v token.text ·) = id :: outer := by
    rw [closes.split, List.dropWhile_append_of_pos passed,
      List.dropWhile_cons_of_neg (by simp [here])]
  simp only [endElement, opening, before, behind]
  rfl

/-- What an end tag that is matched makes of the nodes. -/
theorem node_closeWith {start : Nat} {nameSpan : Span} {id : NodeId} {inner : List NodeId}
    (inside : ∀ i ∈ inner, i < b.nodes.size) (id_inside : id < b.nodes.size) (apart : id ∉ inner)
    (j : NodeId) :
    ((b.cutOff inner start).modify id (closeWith start nameSpan)).node j =
      if j = id then closeWith start nameSpan (b.node j)
      else if j ∈ inner then cut start (b.node j) else b.node j := by
  rw [node_modify (by simpa using id_inside), node_cutOff inside]
  by_cases same : j = id
  · -- The element itself is not among those that are cut off first.
    subst same
    simp [apart]
  · simp [same]

/-- **An end tag without an open element of its name** changes nothing. -/
theorem endElement_of_stray {v : Vocabulary} {token : Token}
    (stray : ∀ i ∈ b.openElements, ¬ b.Answers v token i) : b.endElement v token = b := by
  unfold endElement
  cases b.endTagStart with
  | none => rfl
  | some start =>
    have : b.openElements.dropWhile (!b.closedBy v token.text ·) = [] := by
      refine List.dropWhile_eq_nil_iff.mpr fun i mem => ?_
      simpa using mt closedBy_iff.mp (stray i mem)
    simp only [this]

/-- **The two cases of an end tag**: nothing changes, or the innermost open element of its name is
closed. -/
theorem endElement_cases (v : Vocabulary) (b : Builder) (token : Token) :
    b.endElement v token = b ∨
      ∃ start inner id outer, b.endTagStart = some start ∧ b.Closes v token inner id outer ∧
        b.endElement v token =
          { (b.cutOff inner start).modify id (closeWith start token.span) with
            openElements := outer, ended := some id } := by
  cases opening : b.endTagStart with
  | none =>
    left
    simp only [endElement, opening]
  | some start =>
    by_cases some_answers : ∃ i ∈ b.openElements, b.Answers v token i
    · obtain ⟨inner, id, outer, closes⟩ := exists_closes some_answers
      exact .inr ⟨start, inner, id, outer, rfl, closes, endElement_of_closes opening closes⟩
    · exact .inl (endElement_of_stray fun i mem answers => some_answers ⟨i, mem, answers⟩)

/-! ## Comments -/

@[simp] theorem nodes_endComment (contentStop stop : Nat) :
    (b.endComment contentStop stop).nodes = b.nodes := by
  unfold endComment; split <;> rfl

@[simp] theorem openElements_endComment (contentStop stop : Nat) :
    (b.endComment contentStop stop).openElements = b.openElements := by
  unfold endComment; split <;> rfl

@[simp] theorem startTag_endComment (contentStop stop : Nat) :
    (b.endComment contentStop stop).startTag = b.startTag := by
  unfold endComment; split <;> rfl

@[simp] theorem ended_endComment (contentStop stop : Nat) :
    (b.endComment contentStop stop).ended = b.ended := by
  unfold endComment; split <;> rfl

end Builder

/-! ## Whole documents -/

namespace Document

variable (v : Vocabulary) (t : Text)

/-- The tokenizer that documents are built from. -/
def scanner : Tokenizer := (Tokenizer.start v t 0).withPseudoClose true

/-- The builder before the first token. -/
def blank : Builder := Builder.start t.byteLength

/-- The builder after some of the tokens. -/
def built (tokens : List Token) : Builder := tokens.foldl (Builder.take v t.byteLength) (blank t)

/-- The scanner has the whole text ahead. -/
theorem scanner_eq :
    scanner v t = { vocabulary := v, position := 0, ahead := t, pseudoClose := true } := by
  cases t <;> rfl

/-- The scanner stands at the start of the text. -/
theorem scanner_at : (scanner v t).At t := Tokenizer.at_start v t 0

/-- **The builder when the text ends**: at the end of a passage from the start it takes `eof`, which
ends a comment at most. -/
theorem exists_built : ∃ passed s, (scanner v t).Passes passed s ∧ s.ahead = [] ∧
    tokensOf v t = passed ++ [s.token] ∧
    built v t (tokensOf v t) =
      (built v t passed).endComment s.token.span.start s.token.span.stop := by
  obtain ⟨passed, s, passes, ended, all⟩ := (scanner v t).exists_passes
  have tokens : tokensOf v t = passed ++ [s.token] := all
  have last : s.token.kind = .eof := Tokenizer.token_kind_eq_eof_iff.mpr ended
  refine ⟨passed, s, passes, ended, tokens, ?_⟩
  rw [tokens, built, List.foldl_append, List.foldl_cons, List.foldl_nil, Builder.take, last]
  rfl

/-- **A document is what the builder has made of all tokens**, the elements that are still open ending
with the text. -/
theorem parse_eq : parse v t = (built v t (tokensOf v t)).finish t.byteLength := rfl

end Document

end MarkupAnalysis
