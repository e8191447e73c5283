import MarkupAnalysis.Proofs.Document.Moving
import MarkupAnalysis.Proofs.Document.NameTable
import MarkupAnalysis.Proofs.Token.Casing
import MarkupAnalysis.Proofs.Token.Tiling

/-! # The case of tag names

Two texts that differ in nothing but the case of letters in their tag names have the same tokens and the
same tree, up to the case of those names. This holds for all vocabularies that ignore case, and so for
every dictionary.

* **`Token.lowered`**, **`Node.lowered`**, **`Document.lowered`** — with tag names in lower case.
* **`Document.RespellsNames`** — texts that differ in the case of tag names only.
* **`Tokenizer.Respelled`** — the scans of such texts, kept by each step.
* **`Builder.take_lowered`** — what one token changes, with tag names in lower case.
* **`Document.parse_ignoresCase`** — the tokens and the trees of the two texts. -/

namespace MarkupAnalysis

open Text

/-! ## In lower case -/

/-- Whether the token is the name of a tag. -/
def TokenKind.isTagName (kind : TokenKind) : Bool := kind == .startTag || kind == .endTag

/-- The token, in lower case if it is the name of a tag. -/
def Token.lowered (token : Token) : Token :=
  { token with text := if token.kind.isTagName then lower token.text else token.text }

/-- The node with its tag in lower case. -/
def Node.lowered (n : Node) : Node :=
  { n with name := n.name.map fun name => { name with text := lower name.text } }

/-- The document with all tags in lower case. -/
def Document.lowered (d : Document) : Document := { d with nodes := d.nodes.map Node.lowered }

/-- The builder with all tags in lower case. -/
def Builder.lowered (b : Builder) : Builder := { b with nodes := b.nodes.map Node.lowered }

/-! ## Two scans -/

namespace Tokenizer

variable {t : Text} {s s' : Tokenizer}

/-- **Scans of two texts that differ in the case of tag names only**: where the texts ahead differ, the
first scan has a tag name to come. -/
structure Respelled (t : Text) (s s' : Tokenizer) : Prop where
  here : s.At t
  vocabulary : s'.vocabulary = s.vocabulary
  pseudoClose : s'.pseudoClose = s.pseudoClose
  position : s'.position = s.position
  mode : s'.mode = s.mode
  ahead : lower s.ahead = lower s'.ahead
  memory : s.memory.lowered = s'.memory.lowered
  inside : ∀ i < s.ahead.length, s'.ahead[i]? ≠ s.ahead[i]? → ∃ token ∈ s.tokens,
    token.kind.isTagName = true ∧ token.span.start ≤ s.position + byteLength (s.ahead.take i) ∧
      s.position + byteLength (s.ahead.take i) < token.span.stop

/-- Later tokens stand behind the next one. -/
theorem stop_le_of_mem_rest (here : s.At t) (some_ahead : s.ahead ≠ []) {token : Token}
    (mem : token ∈ s.rest.tokens) : s.rest.position ≤ token.span.start := by
  have ordered := (tokens_tile here).pairwise
  rw [tokens_of_ahead_ne_nil some_ahead, List.map_cons, List.pairwise_cons] at ordered
  exact ordered.1 token.span (List.mem_map_of_mem mem)

namespace Respelled

variable (h : Respelled t s s')
include h

/-- Where the texts differ inside the next token, it is a tag name. -/
theorem isTagName (some_ahead : s.ahead ≠ []) {i : Nat} (taken : i < s.reading.length)
    (bound : i < s.ahead.length) (differs : s'.ahead[i]? ≠ s.ahead[i]?) :
    s.token.kind.isTagName = true := by
  obtain ⟨token, mem, name, start, -⟩ := h.inside i bound differs
  rw [tokens_of_ahead_ne_nil some_ahead] at mem
  rcases List.mem_cons.mp mem with rfl | later
  · exact name
  · -- A later token starts behind the character.
    have behind := stop_le_of_mem_rest h.here some_ahead later
    have split : s.lexeme = s.ahead.take i ++ (s.ahead.drop i).take (s.reading.length - i) := by
      rw [← List.take_add, Nat.add_sub_cancel' taken.le]
      rfl
    have some_left : (s.ahead.drop i).take (s.reading.length - i) ≠ [] := by
      simp only [ne_eq, List.take_eq_nil_iff, List.drop_eq_nil_iff]
      omega
    have bytes := mt byteLength_eq_zero_iff.mp some_left
    have whole : s.rest.position = s.position + s.lexeme.byteLength := rfl
    rw [whole, split, byteLength_append] at behind
    omega

/-- A token that is no tag name is the same in both texts. -/
theorem lexeme_eq (some_ahead : s.ahead ≠ []) (other : s.token.kind.isTagName = false) :
    s.lexeme = s'.ahead.take s.reading.length := by
  refine List.ext_getElem? fun i => ?_
  rw [lexeme, List.getElem?_take, List.getElem?_take]
  split_ifs with taken
  · by_contra differs
    by_cases bound : i < s.ahead.length
    · rw [h.isTagName some_ahead taken bound (Ne.symm differs)] at other
      cases other
    · have bound' : s'.ahead.length ≤ i := length_eq_of_lower h.ahead ▸ Nat.le_of_not_lt bound
      rw [List.getElem?_eq_none (Nat.le_of_not_lt bound), List.getElem?_eq_none bound'] at differs
      exact differs rfl
  · rfl

/-- The texts end at the same place. -/
theorem ahead_eq_nil_iff : s'.ahead = [] ↔ s.ahead = [] := by
  rw [← List.isEmpty_iff, ← isEmpty_of_lower h.ahead, List.isEmpty_iff]

/-- The readings of both scans are the same, up to the case of names. -/
theorem reading_lowered (ignores : s.vocabulary.IgnoresCase) (some_ahead : s.ahead ≠ []) :
    s'.reading.lowered = s.reading.lowered := by
  have some_ahead' : s'.ahead ≠ [] := mt h.ahead_eq_nil_iff.mp some_ahead
  have value : s.reading.kind = .attributeValue →
      s.ahead.take s.reading.length = s'.ahead.take s.reading.length := fun kind =>
    h.lexeme_eq some_ahead (by rw [token, kind]; rfl)
  rw [reading_eq some_ahead] at value ⊢
  rw [reading_eq some_ahead', h.vocabulary, h.pseudoClose, h.mode]
  exact (readToken_lowered ignores s.mode h.ahead h.memory value).symm

/-- **One step of both scans** takes tokens that are the same in lower case. -/
theorem step (ignores : s.vocabulary.IgnoresCase) (some_ahead : s.ahead ≠ []) :
    s'.token.lowered = s.token.lowered ∧ Respelled t s.rest s'.rest := by
  obtain ⟨kind, length, mode, memory, error⟩ :=
    Reading.lowered_inj.mp (h.reading_lowered ignores some_ahead)
  have lexemes : lower s'.lexeme = lower s.lexeme := by
    rw [lexeme, length, lexeme, take_of_lower h.ahead]
  have position : s'.rest.position = s.rest.position := by
    have bytes : s'.lexeme.byteLength = s.lexeme.byteLength := by
      rw [← byteLength_lower, lexemes, byteLength_lower]
    exact congrArg₂ (· + ·) h.position bytes
  constructor
  · have span : s'.token.span = s.token.span := by
      rw [token_span, token_span, position, h.position]
    have kinds : s'.token.kind = s.token.kind := kind
    rw [Token.lowered, Token.lowered, Token.mk.injEq]
    refine ⟨kind, span, ?_, error⟩
    rw [kinds]
    split_ifs with name
    · exact lexemes
    · show s'.ahead.take s'.reading.length = s.lexeme
      rw [h.lexeme_eq some_ahead (Bool.eq_false_iff.mpr name), length]
  · refine ⟨h.here.rest, h.vocabulary, h.pseudoClose, position, mode, ?_, memory.symm,
      fun i bound differs => ?_⟩
    · show lower (s.ahead.drop _) = lower (s'.ahead.drop _)
      rw [length, drop_of_lower h.ahead]
    · -- The character comes after the next token, and so does the tag name around it.
      have later : s.reading.length + i < s.ahead.length := by
        have : s.rest.ahead.length = s.ahead.length - s.reading.length := List.length_drop
        omega
      have differs' : s'.ahead[s.reading.length + i]? ≠ s.ahead[s.reading.length + i]? := by
        simpa only [rest, length, List.getElem?_drop] using differs
      obtain ⟨token, mem, name, start, stop⟩ := h.inside _ later differs'
      have offset : s.position + byteLength (s.ahead.take (s.reading.length + i)) =
          s.rest.position + byteLength (s.rest.ahead.take i) := by
        rw [List.take_add, byteLength_append, ← Nat.add_assoc]
        rfl
      rw [offset] at start stop
      rw [tokens_of_ahead_ne_nil some_ahead] at mem
      rcases List.mem_cons.mp mem with rfl | mem
      · exact absurd stop (Nat.not_lt.mpr (Nat.le_add_right _ _))
      · exact ⟨token, mem, name, start, stop⟩

omit h

/-- **The tokens of both scans** are the same, up to the case of tag names. -/
theorem tokens_lowered (h : Respelled t s s') (ignores : s.vocabulary.IgnoresCase) :
    s'.tokens.map Token.lowered = s.tokens.map Token.lowered := by
  induction s using Tokenizer.induction generalizing s' with
  | ended s ended =>
    have ended' : s'.ahead = [] := h.ahead_eq_nil_iff.mpr ended
    rw [tokens_of_ahead_eq_nil ended, tokens_of_ahead_eq_nil ended']
    have last : s'.token = s.token := by
      simp only [token, lexeme, reading_of_ahead_eq_nil ended, reading_of_ahead_eq_nil ended', ended,
        ended', h.position]
    rw [last]
  | step s some_ahead ih =>
    have some_ahead' : s'.ahead ≠ [] := mt h.ahead_eq_nil_iff.mp some_ahead
    obtain ⟨next, later⟩ := h.step ignores some_ahead
    rw [tokens_of_ahead_ne_nil some_ahead, tokens_of_ahead_ne_nil some_ahead', List.map_cons,
      List.map_cons, next, ih later ignores]

end Respelled

end Tokenizer

/-! ## Two trees -/

/-- The name of a tag is taken in lower case. -/
theorem Token.lowered_of_isTagName {token : Token} (name : token.kind.isTagName = true) :
    token.lowered = { token with text := lower token.text } := by
  rw [lowered, if_pos name]

/-- A token that is no tag name is taken as it is. -/
theorem Token.lowered_of_not_isTagName {token : Token} (other : token.kind.isTagName = false) :
    token.lowered = token := by
  rw [lowered, if_neg (by rw [other]; exact Bool.false_ne_true)]

namespace Builder

variable {v : Vocabulary} {b : Builder} {token : Token}

/-- A change that goes along with lower case. -/
theorem modify_lowered {id : NodeId} (change : Node → Node) {change' : Node → Node}
    (same : ∀ n, change' n.lowered = (change n).lowered) :
    b.lowered.modify id change' = (b.modify id change).lowered := by
  rw [modify, modify, lowered, lowered, Moves.modify_map same]

/-- A change that leaves the name alone. -/
theorem edit_lowered (id : NodeId) (change : Node → Node)
    (keeps : ∀ n, change n.lowered = (change n).lowered) :
    b.lowered.modify id change = (b.modify id change).lowered :=
  modify_lowered change keeps

theorem leave_lowered (id : NodeId) : b.lowered.leave id = (b.leave id).lowered := by
  rw [leave, leave, show b.lowered.openElements = b.openElements from rfl]
  split <;> rfl

theorem openElement_lowered (length start : Nat) :
    b.lowered.openElement length start = (b.openElement length start).lowered := by
  have pushed (child : Node) : b.lowered.nodes.push child.lowered =
      ({ b with nodes := b.nodes.push child } : Builder).lowered.nodes := Array.map_push.symm
  have size : b.lowered.nodes.size = b.nodes.size := Array.size_map
  have nodes := congrArg nodes (edit_lowered
    (b := { b with nodes := b.nodes.push { start, stop := length, parent := some b.current } })
    b.current (fun n => { n with children := n.children.push b.nodes.size }) fun _ => rfl)
  rw [nodes_modify, ← pushed] at nodes
  simp only [openElement, size, show b.lowered.current = b.current from rfl]
  rw [lowered, Builder.mk.injEq]
  exact ⟨nodes, rfl, rfl, rfl, rfl, rfl, rfl, rfl⟩

theorem nameElement_lowered (ignores : v.IgnoresCase) :
    b.lowered.nameElement v { token with text := lower token.text } =
      (b.nameElement v token).lowered := by
  rw [nameElement, nameElement, show b.lowered.startTag = b.startTag from rfl]
  cases b.startTag with
  | none => rfl
  | some id =>
    dsimp only
    rw [ignores.isVoid (lower_lower token.text), modify_lowered (fun n =>
      { n with name := some ⟨token.text, token.span⟩, closed := n.closed || v.isVoid token.text })
      fun _ => rfl]
    split
    · exact leave_lowered id
    · rfl

theorem closeStartTag_lowered :
    b.lowered.closeStartTag token = (b.closeStartTag token).lowered := by
  rw [closeStartTag, closeStartTag, show b.lowered.startTag = b.startTag from rfl]
  cases b.startTag with
  | none => rfl
  | some id =>
    have nameless : b.lowered.nodes[id]?.any (·.name.isNone) = b.nodes[id]?.any (·.name.isNone) := by
      rw [lowered, Array.getElem?_map, Option.any_map]
      simp only [Node.lowered, Option.isNone_map]
    have read : ({ b.lowered with startTag := none } : Builder) =
        ({ b with startTag := none } : Builder).lowered := rfl
    dsimp only
    rw [nameless, read, edit_lowered, edit_lowered, leave_lowered, leave_lowered]
    · split_ifs <;> rfl
    · exact fun _ => rfl
    · exact fun _ => rfl

theorem selfCloseElement_lowered (stop : Nat) :
    b.lowered.selfCloseElement stop = (b.selfCloseElement stop).lowered := by
  rw [selfCloseElement, selfCloseElement, show b.lowered.startTag = b.startTag from rfl]
  cases b.startTag with
  | none => rfl
  | some id =>
    have read : ({ b.lowered with startTag := none } : Builder) =
        ({ b with startTag := none } : Builder).lowered := rfl
    dsimp only
    rw [read, edit_lowered, leave_lowered]
    exact fun _ => rfl

theorem addAttribute_lowered : b.lowered.addAttribute token = (b.addAttribute token).lowered := by
  rw [addAttribute, addAttribute, show b.lowered.startTag = b.startTag from rfl]
  cases b.startTag with
  | none => rfl
  | some id => exact edit_lowered id _ fun _ => rfl

theorem addValue_lowered : b.lowered.addValue token = (b.addValue token).lowered := by
  rw [addValue, addValue, show b.lowered.startTag = b.startTag from rfl]
  cases b.startTag with
  | none => rfl
  | some id => exact edit_lowered id _ fun _ => rfl

theorem cutOff_lowered (ids : List NodeId) (stop : Nat) :
    b.lowered.cutOff ids stop = (b.cutOff ids stop).lowered := by
  induction ids generalizing b with
  | nil => rfl
  | cons id ids ih =>
    have first : b.lowered.modify id (fun n => { n with stop, closed := false }) =
        (b.modify id fun n => { n with stop, closed := false }).lowered := edit_lowered id _ fun _ => rfl
    exact (congrArg (fun b : Builder => b.cutOff ids stop) first).trans ih

/-- The same elements answer to all spellings of a name. -/
theorem closedBy_lowered (ignores : v.IgnoresCase) (name : Text) :
    b.lowered.closedBy v (lower name) = b.closedBy v name := by
  funext id
  have tag : b.lowered.nodes[id]?.bind (·.tag) = (b.nodes[id]?.bind (·.tag)).map lower := by
    simp only [lowered, Array.getElem?_map]
    cases b.nodes[id]? with
    | none => rfl
    | some n => simp [Node.tag, Node.lowered, Function.comp_def]
  have names (tag : Text) : v.tagNamesMatch (lower tag) (lower name) = v.tagNamesMatch tag name :=
    ignores.tagNamesMatch (lower_lower tag) (lower_lower name)
  rw [closedBy, closedBy, tag, Option.any_map]
  simp only [names]

theorem endElement_lowered (ignores : v.IgnoresCase) :
    b.lowered.endElement v { token with text := lower token.text } =
      (b.endElement v token).lowered := by
  rw [endElement, endElement, show b.lowered.endTagStart = b.endTagStart from rfl]
  cases b.endTagStart with
  | none => rfl
  | some start =>
    dsimp only
    rw [show b.lowered.openElements = b.openElements from rfl, closedBy_lowered ignores, cutOff_lowered]
    split
    · rfl
    · rw [edit_lowered]
      · rfl
      · exact fun _ => rfl

theorem closeEndTag_lowered (stop : Nat) :
    b.lowered.closeEndTag stop = (b.closeEndTag stop).lowered := by
  rw [closeEndTag, closeEndTag, show b.lowered.ended = b.ended from rfl]
  cases b.ended with
  | none => rfl
  | some id => exact edit_lowered (b := { b with ended := none }) id _ fun _ => rfl

theorem endComment_lowered (contentStop stop : Nat) :
    b.lowered.endComment contentStop stop = (b.endComment contentStop stop).lowered := by
  rw [endComment, endComment, show b.lowered.commentStart = b.commentStart from rfl]
  cases b.commentStart with
  | none => rfl
  | some start => rfl

/-- **One token**, with tag names in lower case. -/
theorem take_lowered (ignores : v.IgnoresCase) (length : Nat) :
    b.lowered.take v length token.lowered = (b.take v length token).lowered := by
  by_cases name : token.kind.isTagName = true
  · rw [Token.lowered_of_isTagName name, take, take]
    cases kind : token.kind with
    | startTag => exact nameElement_lowered ignores
    | endTag => exact endElement_lowered ignores
    | _ => exact absurd name (by rw [kind]; decide)
  · rw [Token.lowered_of_not_isTagName (Bool.eq_false_iff.mpr name), take, take]
    cases kind : token.kind with
    | startTagOpen => exact openElement_lowered length _
    | startTagClose => exact closeStartTag_lowered
    | startTagSelfClose => exact selfCloseElement_lowered _
    | attributeName => exact addAttribute_lowered
    | attributeValue => exact addValue_lowered
    | endTagClose => exact closeEndTag_lowered _
    | endComment => exact endComment_lowered _ _
    | eof => exact endComment_lowered _ _
    | startTag | endTag => exact absurd (by rw [kind]; rfl) name
    | _ => rfl

/-- **Tokens in lower case** build the tree in lower case. -/
theorem foldl_take_lowered (ignores : v.IgnoresCase) (length : Nat) (tokens : List Token) :
    (tokens.map Token.lowered).foldl (take v length) b.lowered = (tokens.foldl (take v length) b).lowered := by
  induction tokens generalizing b with
  | nil => rfl
  | cons token tokens ih =>
    rw [List.map_cons, List.foldl_cons, take_lowered ignores, ih, List.foldl_cons]

/-- The end of the text. -/
theorem finish_lowered (length : Nat) : b.lowered.finish length = (b.finish length).lowered := by
  rw [finish, finish, show b.lowered.openElements = b.openElements from rfl, cutOff_lowered]
  rfl

end Builder

/-! ## Texts that differ in the case of tag names -/

/-- Tokens that are the same up to the case of tag names. -/
structure Token.SameUpToCase (token token' : Token) : Prop where
  kind : token'.kind = token.kind
  span : token'.span = token.span
  error : token'.error = token.error
  name : token.kind.isTagName = true → lower token'.text = lower token.text
  other : token.kind.isTagName = false → token'.text = token.text

/-- Tokens that are the same in lower case are the same up to the case of tag names. -/
theorem Token.sameUpToCase_of_lowered {token token' : Token} (same : token'.lowered = token.lowered) :
    token.SameUpToCase token' := by
  simp only [lowered, Token.mk.injEq] at same
  obtain ⟨kind, span, text, error⟩ := same
  refine ⟨kind, span, error, fun name => ?_, fun other => ?_⟩
  · rwa [kind, if_pos name, if_pos name] at text
  · rwa [kind, other, if_neg Bool.false_ne_true, if_neg Bool.false_ne_true] at text

/-- Nodes that are the same up to the case of their tags. -/
structure Node.SameUpToCase (n n' : Node) : Prop where
  tag : n'.tag.map lower = n.tag.map lower
  nameSpan : n'.nameSpan = n.nameSpan
  start : n'.start = n.start
  stop : n'.stop = n.stop
  startTagEnd : n'.startTagEnd = n.startTagEnd
  endTag : n'.endTag = n.endTag
  attributes : n'.attributes = n.attributes
  children : n'.children = n.children
  parent : n'.parent = n.parent
  closed : n'.closed = n.closed
  selfClosing : n'.selfClosing = n.selfClosing

/-- Nodes that are the same in lower case are the same up to the case of their tags. -/
theorem Node.sameUpToCase_of_lowered {n n' : Node} (same : n'.lowered = n.lowered) :
    n.SameUpToCase n' := by
  have tags (n : Node) : n.tag.map lower = n.lowered.tag := by
    simp [tag, lowered, Function.comp_def]
  have spans (n : Node) : n.nameSpan = n.lowered.nameSpan := by
    simp [nameSpan, lowered, Function.comp_def]
  have tag : n'.tag.map lower = n.tag.map lower := by rw [tags, same, ← tags]
  have nameSpan : n'.nameSpan = n.nameSpan := by rw [spans, same, ← spans]
  simp only [lowered, Node.mk.injEq] at same
  obtain ⟨start, stop, -, startTagEnd, endTag, attributes, children, parent, closed, selfClosing⟩ := same
  exact ⟨tag, nameSpan, start, stop, startTagEnd, endTag, attributes, children, parent, closed, selfClosing⟩

namespace Document

variable {v : Vocabulary} {t t' : Text}

/-- **Texts that differ in the case of tag names only**: they are the same in lower case, and each
character in which they differ is inside a tag name of the first one. -/
structure RespellsNames (v : Vocabulary) (t t' : Text) : Prop where
  spelled : lower t' = lower t
  inside : ∀ i < t.length, t'[i]? ≠ t[i]? → ∃ token ∈ tokensOf v t,
    token.kind.isTagName = true ∧ token.span.start ≤ byteLength (t.take i) ∧
      byteLength (t.take i) < token.span.stop

/-- **Tokens and trees that are the same up to the case of tag names.** -/
structure SameUpToCase (v : Vocabulary) (t t' : Text) : Prop where
  /-- The tokens have the same kinds, spans and errors. -/
  tokens : (tokensOf v t).Forall₂ Token.SameUpToCase (tokensOf v t')
  /-- There are as many nodes. -/
  size : (parse v t').nodes.size = (parse v t).nodes.size
  /-- Each node is the same up to the case of its tag. -/
  node : ∀ id, ((parse v t).node id).SameUpToCase ((parse v t').node id)
  /-- The comments are the same. -/
  comments : (parse v t').comments = (parse v t).comments
  /-- The texts are equally long. -/
  textLength : (parse v t').textLength = (parse v t).textLength

/-- The scans of two texts that differ in the case of tag names only start alike. -/
theorem RespellsNames.scanners (h : RespellsNames v t t') :
    Tokenizer.Respelled t (scanner v t) (scanner v t') where
  here := scanner_at v t
  vocabulary := by rw [scanner_eq, scanner_eq]
  pseudoClose := by rw [scanner_eq, scanner_eq]
  position := by rw [scanner_eq, scanner_eq]
  mode := by rw [scanner_eq, scanner_eq]
  ahead := by rw [scanner_eq, scanner_eq, h.spelled]
  memory := by rw [scanner_eq, scanner_eq]
  inside := by
    intro i
    have whole : (scanner v t).tokens = tokensOf v t := rfl
    rw [whole]
    simpa only [scanner_eq, Nat.zero_add] using h.inside i

/-- The tokens are the same, with tag names in lower case. -/
theorem RespellsNames.tokens_lowered (h : RespellsNames v t t') (ignores : v.IgnoresCase) :
    (tokensOf v t').map Token.lowered = (tokensOf v t).map Token.lowered := by
  refine h.scanners.tokens_lowered ?_
  rwa [scanner_eq]

/-- The documents are the same, with tag names in lower case. -/
theorem RespellsNames.parse_lowered (h : RespellsNames v t t') (ignores : v.IgnoresCase) :
    (parse v t').lowered = (parse v t).lowered := by
  have length : t'.byteLength = t.byteLength := by
    rw [← byteLength_lower, h.spelled, byteLength_lower]
  have start : (Builder.start t.byteLength).lowered = Builder.start t.byteLength := by
    simp [Builder.lowered, Builder.start, Node.lowered]
  have built (tokens : List Token) : (ofTokens v t.byteLength tokens).lowered =
      ofTokens v t.byteLength (tokens.map Token.lowered) := by
    rw [ofTokens, ← Builder.finish_lowered, ← Builder.foldl_take_lowered ignores, start]
    rfl
  rw [parse, parse, length, built, built, h.tokens_lowered ignores]

/-- **Where the case of tags is ignored** it does not matter for tokens and trees. -/
theorem RespellsNames.sameUpToCase (h : RespellsNames v t t') (ignores : v.IgnoresCase) :
    SameUpToCase v t t' := by
  have same := h.parse_lowered ignores
  have nodes : (parse v t').nodes.map Node.lowered = (parse v t).nodes.map Node.lowered :=
    congrArg Document.nodes same
  constructor
  · have tokens : List.Forall₂ (· = ·) ((tokensOf v t).map Token.lowered)
        ((tokensOf v t').map Token.lowered) := by
      rw [List.forall₂_eq_eq_eq]
      exact (h.tokens_lowered ignores).symm
    rw [List.forall₂_map_left_iff, List.forall₂_map_right_iff] at tokens
    exact tokens.imp fun _ _ same => Token.sameUpToCase_of_lowered same.symm
  · simpa using congrArg Array.size nodes
  · intro id
    refine Node.sameUpToCase_of_lowered ?_
    have there (d : Document) : (d.node id).lowered = ((d.nodes.map Node.lowered)[id]?).getD default := by
      rw [node, Array.getElem?_map]
      cases d.nodes[id]? <;> rfl
    rw [there, there, nodes]
  · have comments := congrArg Document.comments same
    exact comments
  · have lengths := congrArg Document.textLength same
    exact lengths

-- Where case matters, the spelling of an end tag decides whether the element is closed.
example :
    (parse Vocabulary.empty.withExactCase "<p></p>".toList).nodes.toList.map (·.closed) = [true, true] ∧
      (parse Vocabulary.empty.withExactCase "<p></P>".toList).nodes.toList.map (·.closed) =
        [true, false] := by
  constructor <;> decide +kernel

/-- **The case of tag names does not matter** under any dictionary. -/
theorem parse_ignoresCase (d : Dictionary) (h : RespellsNames d.toVocabulary t t') :
    SameUpToCase d.toVocabulary t t' :=
  h.sameUpToCase d.ignoresCase_toVocabulary

/-- A dictionary with an embedded and a void tag. -/
def styleAndBreak : Dictionary :=
  (Dictionary.empty.markEmbedded ["style".toList]).markVoid ["BR".toList]

/-- The end tag that ends the embedded body and the void tag may both be spelled in any case. -/
theorem parse_ignoresCase_style :
    RespellsNames styleAndBreak.toVocabulary "<style><b></STYLE><br>".toList
        "<Style><b></style><bR>".toList ∧
      SameUpToCase styleAndBreak.toVocabulary "<style><b></STYLE><br>".toList
        "<Style><b></style><bR>".toList := by
  have respells : RespellsNames styleAndBreak.toVocabulary "<style><b></STYLE><br>".toList
      "<Style><b></style><bR>".toList := by
    exact ⟨by decide, by decide +kernel⟩
  exact ⟨respells, parse_ignoresCase styleAndBreak respells⟩

end Document

end MarkupAnalysis
