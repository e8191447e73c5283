import MarkupAnalysis.Outline
import MarkupAnalysis.Proofs.Document.NamePlaces

/-! # The two outlines

The nested outline follows the children of each element, the flat one walks through all elements and asks
each for its parent. Both say the same: read in pre-order, with the name of the symbol around each one, the
nested outline is the flat one. Its symbols lie in one another like the elements, and beside one another
without having a byte in common.

* **`Symbol.flatten`**, **`Symbol.flattenAll`** — a nested outline in pre-order.
* **`Symbol.InPlace`** — a symbol that holds its own name and the symbols inside it.
* **`Document.Preordered.flattenAll_symbolsWithin`** — the pre-order of some elements.
* **`Document.OutlinesAgree`**, **`outlines_parse`** — the outlines of every text. -/

namespace MarkupAnalysis

open Document

/-! ## Nested outlines -/

namespace Symbol

mutual

/-- **A symbol and all symbols inside it**, each before those inside it and with the name of the one around
it. -/
def flatten (container : Option Text) : Symbol → List FlatSymbol
  | mk name kind range _ children => ⟨name, kind, range, container⟩ :: flattenAll (some name) children

/-- All symbols of an outline, in pre-order. -/
def flattenAll (container : Option Text) : List Symbol → List FlatSymbol
  | [] => []
  | symbol :: symbols => flatten container symbol ++ flattenAll container symbols

end

/-- **Symbols one behind the other**: each ends before the next one starts. -/
def Apart (symbols : List Symbol) : Prop :=
  symbols.Pairwise fun symbol later => symbol.range.stop ≤ later.range.start

/-- **A symbol in its place**: it is not empty, and its name and the symbols inside it lie in it. -/
inductive InPlace : Symbol → Prop
  /-- A symbol whose parts are in their places. -/
  | mk {name : Text} {kind : SymbolKind} {range selectionRange : Span} {children : List Symbol}
      (some_text : range.start < range.stop)
      (forwards : selectionRange.start ≤ selectionRange.stop)
      (selection : range.covers selectionRange = true)
      (inside : ∀ child ∈ children, range.covers child.range = true)
      (apart : Apart children)
      (inPlace : ∀ child ∈ children, InPlace child) :
      InPlace (.mk name kind range selectionRange children)

end Symbol

/-! ## Outlines of trees in document order -/

/-- What is selected for an element runs forwards inside the element: its name, or else its start tag. -/
theorem Node.InOrder.covers_selectionSpan {n : Node} (ordered : n.InOrder) (names : n.NamesInPlace) :
    n.selectionSpan.start ≤ n.selectionSpan.stop ∧ n.span.covers n.selectionSpan = true := by
  have content := ordered.start_le
  have stop := Nat.le_trans ordered.content_le ordered.le_stop
  rw [Span.covers_iff, selectionSpan]
  cases named : n.nameSpan with
  | none => exact ⟨content, Nat.le_refl _, stop⟩
  | some name =>
    obtain ⟨starts, forwards, stops⟩ := names.nameSpan name named
    exact ⟨forwards, Nat.le_of_lt starts, Nat.le_trans stops stop⟩

namespace Document

variable {d : Document} {length id depth first last : Nat} {nodes : List NodeId}

/-- Inside an element each symbol has the name of the element around it. -/
theorem containerName_of_parent {n : Node} (named : n.parent = some id) (element : (d.node id).isRoot = false) :
    d.containerName n = some (d.node id).symbolName := by
  rw [containerName, named, Option.map_some, Option.filter_some, element]
  rfl

/-- At the top there is no name around a symbol. -/
theorem containerName_of_root {n : Node} (named : n.parent = some root) (top : (d.node root).isRoot = true) :
    d.containerName n = none := by
  rw [containerName, named, Option.map_some, Option.filter_some, top]
  rfl

/-- A symbol has the span of its element. -/
theorem exists_of_mem_symbolsWithin {symbol : Symbol} (mem : symbol ∈ d.symbolsWithin depth nodes) :
    ∃ id ∈ nodes, symbol.range = (d.node id).span := by
  cases depth with
  | zero => cases mem
  | succ depth =>
    obtain ⟨id, id_mem, rfl⟩ := List.mem_map.mp mem
    exact ⟨id, id_mem, rfl⟩

/-- The symbols of elements that are apart are apart. -/
theorem apart_symbolsWithin (apart : nodes.Pairwise fun c later => (d.node c).stop ≤ (d.node later).start) :
    Symbol.Apart (d.symbolsWithin depth nodes) := by
  cases depth with
  | zero => exact .nil
  | succ depth => exact List.pairwise_map.mpr apart

namespace Preordered

/-- Only the root stands for the whole text. -/
theorem isRoot_eq_false (h : d.Preordered length) (element : d.IsElement id) :
    (d.node id).isRoot = false := by
  obtain ⟨parent, -, named, -⟩ := h.exists_parent element.2 element.1
  rw [Node.isRoot, named]
  rfl

/-- **The pre-order of some elements** that follow each other is their part of the array. -/
theorem flattenAll_symbolsWithin (h : d.Preordered length) (spans : Spans d.children first nodes last)
    (elements : 0 < first) (known : last ≤ d.nodes.size) (deep : last - first ≤ depth)
    {container : Option Text} (around : ∀ id ∈ nodes, d.containerName (d.node id) = container) :
    Symbol.flattenAll container (d.symbolsWithin depth nodes) =
      (List.range' first (last - first)).map d.flatSymbol := by
  -- The first element, all that is inside it, one level less deep, and the elements behind it.
  induction spans generalizing depth container with
  | nil first =>
    rw [Nat.sub_self]
    cases depth <;> rfl
  | @cons first next last others inside after inside_ih after_ih =>
    have forward := inside.le
    have bound := after.le
    obtain ⟨depth, rfl⟩ : ∃ levels, depth = levels + 1 := ⟨depth - 1, by omega⟩
    have element : d.IsElement first := ⟨Nat.ne_of_gt elements, by omega⟩
    have inner := @inside_ih depth (Nat.succ_pos first) (by omega) (by omega)
      (some (d.node first).symbolName) (fun id mem =>
        containerName_of_parent (h.of_mem_children element.2 mem).2.2 (h.isRoot_eq_false element))
    have behind := @after_ih (depth + 1) (by omega) known (by omega) container
      (fun id mem => around id (List.mem_cons_of_mem _ mem))
    have here : d.flatSymbol first = ⟨(d.node first).symbolName, .element, (d.node first).span, container⟩ := by
      rw [flatSymbol, around first List.mem_cons_self]
    obtain ⟨inner_count, rfl⟩ := Nat.exists_eq_add_of_le forward
    obtain ⟨behind_count, rfl⟩ := Nat.exists_eq_add_of_le bound
    rw [Nat.add_sub_cancel_left] at inner behind
    have count : first + 1 + inner_count + behind_count - first = inner_count + behind_count + 1 := by omega
    rw [count, List.range'_succ, ← List.range'_append_1, List.map_cons, List.map_append, ← inner, ← behind,
      here]
    rfl

/-- The symbols of elements are in their places. -/
theorem inPlace_symbolsWithin (h : d.Preordered length) (names : ∀ id, d.IsElement id → (d.node id).NamesInPlace)
    (elements : ∀ id ∈ nodes, d.IsElement id) :
    ∀ symbol ∈ d.symbolsWithin depth nodes, symbol.InPlace := by
  induction depth generalizing nodes with
  | zero => exact nofun
  | succ depth ih =>
    intro symbol mem
    obtain ⟨id, id_mem, rfl⟩ := List.mem_map.mp mem
    have element := elements id id_mem
    have ordered := (h.wellFormed.element id element.2 element.1).1
    obtain ⟨forwards, selection⟩ := ordered.covers_selectionSpan (names id element)
    refine .mk ordered.start_lt_stop forwards selection ?inside
      (apart_symbolsWithin (h.children_pairwise element.2)) (ih fun child child_mem =>
        h.isElement_of_mem_children element.2 child_mem)
    case inside =>
      intro child child_mem
      obtain ⟨c, c_mem, range⟩ := exists_of_mem_symbolsWithin child_mem
      rw [range]
      exact h.wellFormed.inside id element.2 c c_mem

end Preordered

/-! ## Whole texts -/

/-- **The two outlines of a document agree.** -/
structure OutlinesAgree (d : Document) : Prop where
  /-- The nested outline in pre-order is the flat one. -/
  flattened : Symbol.flattenAll none d.symbols = d.flatSymbols
  /-- There is one symbol for each element, that is for each node but the root. -/
  count : (Symbol.flattenAll none d.symbols).length = d.nodes.size - 1
  /-- The symbols at the top are beside each other. -/
  apart : Symbol.Apart d.symbols
  /-- Each symbol is in its place, with all symbols inside it. -/
  inPlace : ∀ symbol ∈ d.symbols, symbol.InPlace

end Document

/-- **The outlines of every text agree.** -/
theorem outlines_parse (v : Vocabulary) (t : Text) : (parse v t).OutlinesAgree := by
  have h := preordered_parse v t
  obtain ⟨known, -, orphan, -⟩ := h.wellFormed.root
  have top : ((parse v t).node root).isRoot = true := by rw [Node.isRoot, orphan]; rfl
  have flattened : Symbol.flattenAll none (parse v t).symbols = (parse v t).flatSymbols := by
    rw [flatSymbols, elements_parse]
    apply h.flattenAll_symbolsWithin h.spans Nat.one_pos (Nat.le_refl _) (Nat.sub_le _ _)
    intro id mem
    exact containerName_of_root (h.of_mem_children known mem).2.2 top
  refine ⟨flattened, ?count, apart_symbolsWithin (h.children_pairwise known), ?inPlace⟩
  case count => rw [flattened, flatSymbols, List.length_map, elements_parse, List.length_range']
  case inPlace =>
    apply h.inPlace_symbolsWithin (fun id element => namesInPlace_parse element)
    intro id mem
    exact h.isElement_of_mem_children known mem

end MarkupAnalysis
