import MarkupAnalysis.Proofs.Document.Building
import MarkupAnalysis.Proofs.Rendering.Scanning

/-! # Feeding rendered text to the builder

What the builder makes of each rendered piece, whatever comes after it.

* **`Tokenizer.facing`** — a tokenizer in a mode, before a text.
* **`Tokenizer.feed`**, **`feed_facing`** — what the builder makes of the tokens to come.
* **`Builder.steady`**, **`Builder.tagging`** — the builder between pieces, and in a start tag.
* **`feed_startTag`**, **`feed_endTag`**, **`feed_comment`**, **`feed_text`** — the pieces. -/

namespace MarkupAnalysis

open Text Tokenizer

/-! ## Tokens to come -/

/-- A tokenizer in a mode, before a text. -/
def Tokenizer.facing (v : Vocabulary) (mode : Mode) (memory : TagMemory) (position : Nat)
    (ahead : Text) : Tokenizer :=
  { vocabulary := v, pseudoClose := true, position, ahead, mode, memory }

/-- What the builder makes of all tokens to come. -/
def Tokenizer.feed (s : Tokenizer) (length : Nat) (b : Builder) : Builder :=
  s.tokens.foldl (Builder.take s.vocabulary length) b

section feeding

variable {v : Vocabulary} {memory : TagMemory} {position length : Nat}

/-- **One token**: what the builder makes of all tokens is what it makes of the others after the first
one. What comes after the token stands in the text, because its first character may end the token. -/
theorem feed_facing (lexeme rest : Text) {stop : Nat} {mode mode' : Mode} {memory' : TagMemory}
    {kind : TokenKind} {error : Option ScanError} {b b' : Builder} (some_taken : lexeme ≠ [])
    (reaches : position + lexeme.byteLength = stop)
    (read : readToken v true mode memory (lexeme ++ rest) =
      ⟨kind, lexeme.length, mode', memory', error⟩)
    (taken : b.take v length ⟨kind, ⟨position, stop⟩, lexeme, error⟩ = b') :
    (facing v mode memory position (lexeme ++ rest)).feed length b =
      (facing v mode' memory' stop rest).feed length b' := by
  subst reaches taken
  have some_ahead : (facing v mode memory position (lexeme ++ rest)).ahead ≠ [] := by
    simp [facing, some_taken]
  have reading : (facing v mode memory position (lexeme ++ rest)).reading =
      ⟨kind, lexeme.length, mode', memory', error⟩ := (reading_eq some_ahead).trans read
  have taken : (facing v mode memory position (lexeme ++ rest)).lexeme = lexeme := by
    rw [Tokenizer.lexeme, reading]
    exact List.take_left
  have next : (facing v mode memory position (lexeme ++ rest)).rest =
      facing v mode' memory' (position + lexeme.byteLength) rest := by
    rw [Tokenizer.rest, taken, reading]
    simp [facing]
  have token : (facing v mode memory position (lexeme ++ rest)).token =
      ⟨kind, ⟨position, position + lexeme.byteLength⟩, lexeme, error⟩ := by
    rw [Tokenizer.token, taken, reading]
    rfl
  rw [feed, tokens_of_ahead_ne_nil some_ahead, List.foldl_cons, next, token]
  rfl

/-! ## Text -/

/-- Text up to the next tag leaves the builder as it is. -/
theorem feed_content (t : Text) (b : Builder) :
    (facing v .content memory position t).feed length b =
      (facing v .content memory
        (position + byteLength (t.take (lengthUntil (startsWith ['<']) t)))
        (t.drop (lengthUntil (startsWith ['<']) t))).feed length b := by
  cases t with
  | nil => rfl
  | cons c cs =>
    by_cases tag : c = '<'
    · -- No text comes before the next tag.
      subst tag
      simp [lengthUntil, startsWith, List.isPrefixOf]
    · have read : readToken v true .content memory (c :: cs) =
          ⟨.content, lengthUntil (startsWith ['<']) (c :: cs), .content, memory, none⟩ :=
        readContent_text tag cs
      have inside := lengthUntil_le (startsWith ['<']) (c :: cs)
      have some_taken : lengthUntil (startsWith ['<']) (c :: cs) ≠ 0 := by
        simp [lengthUntil, startsWith, List.isPrefixOf, Ne.symm tag]
      -- From here on it matters only that the token is a first part of the text.
      generalize lengthUntil (startsWith ['<']) (c :: cs) = n at read inside some_taken ⊢
      have split := List.take_append_drop n (c :: cs)
      have count : ((c :: cs).take n).length = n := List.length_take_of_le inside
      have some_lexeme : (c :: cs).take n ≠ [] := by simp [some_taken]
      have read' : readToken v true .content memory ((c :: cs).take n ++ (c :: cs).drop n) =
          ⟨.content, ((c :: cs).take n).length, .content, memory, none⟩ := by
        rw [split, count]
        exact read
      have step : (facing v .content memory position
            ((c :: cs).take n ++ (c :: cs).drop n)).feed length b =
          (facing v .content memory (position + byteLength ((c :: cs).take n))
            ((c :: cs).drop n)).feed length b :=
        feed_facing _ _ some_lexeme rfl read' rfl
      rwa [split] at step

/-- **A text** leaves the builder as it is. It may be one token together with the text after it. -/
theorem feed_text {run : Text} (no_tag : '<' ∉ run) (rest : Text) (b : Builder) :
    (facing v .content memory position (run ++ rest)).feed length b =
      (facing v .content memory (position + run.byteLength) rest).feed length b := by
  rw [feed_content, lengthUntil_char no_tag, List.take_length_add_append, List.drop_length_add_append,
    feed_content rest, byteLength_append, Nat.add_assoc]

end feeding

/-! ## The builder between pieces, and in a start tag -/

namespace Builder

/-- Between pieces nothing is being read. -/
def steady (nodes : List Node) (stack : List NodeId) (comments : List Comment)
    (endTagStart : Option Nat) : Builder :=
  { nodes := nodes.toArray, openElements := stack, endTagStart, comments := comments.toArray }

/-- In a start tag its element is the last node. -/
def tagging (nodes : List Node) (n : Node) (stack : List NodeId) (comments : List Comment)
    (endTagStart : Option Nat) : Builder :=
  { steady (nodes ++ [n]) stack comments endTagStart with startTag := some nodes.length }

/-- A node that names more children. -/
def adopt (ids : List NodeId) (n : Node) : Node := { n with children := n.children ++ ids.toArray }

variable {before after : List Node} {n : Node} {stack : List NodeId} {comments : List Comment}
  {endTagStart : Option Nat}

/-- A change of the element whose start tag is being read. -/
theorem tagging_modify (change : Node → Node) :
    (tagging before n stack comments endTagStart).modify before.length change =
      tagging before (change n) stack comments endTagStart := by
  rw [modify]
  simp only [tagging, steady, modify_middle]

/-- A new element inside the innermost open one. -/
theorem steady_openElement (top : stack.headD Document.root = before.length) (length start : Nat) :
    (steady (before ++ n :: after) stack comments endTagStart).openElement length start =
      tagging (before ++ adopt [(before ++ n :: after).length] n :: after)
        { start, stop := length, parent := some before.length }
        ((before ++ n :: after).length :: stack) comments endTagStart := by
  have current : (steady (before ++ n :: after) stack comments endTagStart).current =
      before.length := top
  have size : (steady (before ++ n :: after) stack comments endTagStart).nodes.size =
      (before ++ n :: after).length := rfl
  have longer : (before ++ adopt [(before ++ n :: after).length] n :: after).length =
      (before ++ n :: after).length := by simp
  have grown (child : Node) (change : Node → Node) :
      ((before ++ n :: after).toArray.push child).modify before.length change =
        (before ++ change n :: (after ++ [child])).toArray := by
    rw [List.push_toArray, List.append_assoc, List.cons_append, modify_middle]
  rw [openElement, current, size, tagging, longer]
  simp only [steady, grown, adopt, List.append_assoc, List.cons_append]
  simp only [Array.push_eq_append]

/-- The name of the start tag; a void element is left. -/
theorem tagging_nameElement (v : Vocabulary) (token : Token) :
    (tagging before n (before.length :: stack) comments endTagStart).nameElement v token =
      tagging before
        { n with name := some ⟨token.text, token.span⟩, closed := n.closed || v.isVoid token.text }
        (if v.isVoid token.text then stack else before.length :: stack) comments endTagStart := by
  rw [nameElement]
  change (if v.isVoid token.text then
    ((tagging before n (before.length :: stack) comments endTagStart).modify before.length _).leave
      before.length else _) = _
  rw [tagging_modify]
  split
  · simp [leave, tagging, steady]
  · rfl

/-- The name of an attribute. -/
theorem tagging_addAttribute (token : Token) :
    (tagging before n stack comments endTagStart).addAttribute token =
      tagging before
        { n with attributes := n.attributes.push { name := token.text, nameSpan := token.span } }
        stack comments endTagStart :=
  tagging_modify _

/-- The value of the latest attribute. -/
theorem tagging_addValue {attributes : Array Attribute} {a : Attribute} (none_yet : a.value = none)
    (token : Token) :
    (tagging before { n with attributes := attributes.push a } stack comments endTagStart).addValue
        token =
      tagging before
        { n with attributes := attributes.push { a with value := some ⟨token.text, token.span⟩ } }
        stack comments endTagStart := by
  refine (tagging_modify _).trans ?_
  have last : (attributes.push a).size - 1 = attributes.size := by simp
  simp only [last, modify_push, giveValue, none_yet, Option.none_or]

/-- The bracket of a start tag with a name. -/
theorem tagging_closeStartTag {token : Token} (taken : token.span.isEmpty = false)
    (named : n.name.isNone = false) :
    (tagging before n stack comments endTagStart).closeStartTag token =
      steady (before ++ [{ n with stop := token.span.stop, startTagEnd := some token.span.stop }]) stack
        comments endTagStart := by
  have nameless : (before ++ [n]).toArray[before.length]?.any (·.name.isNone) = false := by
    simp [named]
  simp only [closeStartTag, tagging, steady, taken, modify, modify_middle, nameless, Bool.false_eq_true,
    if_false]

/-- The end of a comment. -/
theorem steady_endComment (nodes : List Node) (start contentStop stop : Nat) (content : Option Span) :
    endComment { steady nodes stack comments endTagStart with
        commentStart := some start, commentContent := content } contentStop stop =
      steady nodes stack
        (comments ++ [⟨⟨start, stop⟩, content.getD ⟨contentStop, contentStop⟩⟩]) endTagStart := by
  simp [endComment, steady]

end Builder

/-! ## Start tags -/

section tags

open Builder

variable {v : Vocabulary} {length : Nat} {before after : List Node} {n : Node} {stack : List NodeId}
  {comments : List Comment} {endTagStart : Option Nat}

/-- The bytes of an attribute. -/
theorem PlainAttribute.byteLength_render (a : PlainAttribute) :
    a.render.byteLength =
      1 + a.name.byteLength + (a.value.map fun value => 1 + (quote value).byteLength).getD 0 := by
  have blank : Char.utf8Size ' ' = 1 := rfl
  have assignment : Char.utf8Size '=' = 1 := rfl
  cases value : a.value with
  | none => simp [PlainAttribute.render, value, blank]
  | some value =>
    simp [PlainAttribute.render, value, blank, assignment]
    omega

/-- A blank and the name of an attribute, before something that is not part of the name. -/
theorem feed_attributeName {a : PlainAttribute} (wf : a.WellFormed) {m : Mode}
    (inside : m.takesAttributes) {c : Char} (stops : isAttributeNameChar c = false)
    (memory : TagMemory) (position : Nat) (rest : Text) :
    ∃ memory', memory'.tag = memory.tag ∧
      (facing v m memory position ([' '] ++ (a.name ++ c :: rest))).feed length
          (tagging before n stack comments endTagStart) =
        (facing v .attributeName memory' (position + 1 + a.name.byteLength) (c :: rest)).feed length
          (tagging before
            { n with attributes := n.attributes.push { a.placed position with value := none } } stack
            comments endTagStart) := by
  obtain ⟨first, others, split⟩ := List.exists_cons_of_ne_nil wf.name_ne_nil
  have first_char := not_isAsciiBlank_of_isAttributeNameChar (wf.name_chars first (by simp [split]))
  have blank : readToken v true m memory ([' '] ++ (a.name ++ c :: rest)) =
      ⟨.whitespace, 1, m, { memory with blankBefore := true }, none⟩ := by
    rw [split]
    exact readToken_blank inside first_char _
  let memory' : TagMemory := { memory with attributeName := a.name, blankBefore := false }
  have name : readToken v true m { memory with blankBefore := true } (a.name ++ c :: rest) =
      ⟨.attributeName, a.name.length, .attributeName, memory', none⟩ :=
    readToken_attributeName inside rfl wf stops rest
  refine ⟨memory', rfl, ?_⟩
  calc (facing v m memory position ([' '] ++ (a.name ++ c :: rest))).feed length _
    _ = (facing v m { memory with blankBefore := true } (position + 1)
          (a.name ++ c :: rest)).feed length (tagging before n stack comments endTagStart) :=
      feed_facing [' '] _ (by simp) rfl blank rfl
    _ = _ := feed_facing a.name (c :: rest) wf.name_ne_nil rfl name (tagging_addAttribute _)

/-- The `=` and the value of the latest attribute. -/
theorem feed_attributeValue {attributes : Array Attribute} {a : Attribute} (none_yet : a.value = none)
    {value : Text} (chars : '\x22' ∉ value) (memory : TagMemory) (position : Nat) (rest : Text) :
    ∃ memory', memory'.tag = memory.tag ∧
      (facing v .attributeName memory position (['='] ++ (quote value ++ rest))).feed length
          (tagging before { n with attributes := attributes.push a } stack comments endTagStart) =
        (facing v .startTag memory' (position + 1 + (quote value).byteLength) rest).feed length
          (tagging before
            { n with
              attributes := attributes.push
                { a with
                  value := some ⟨quote value,
                    ⟨position + 1, position + 1 + (quote value).byteLength⟩⟩ } }
            stack comments endTagStart) := by
  have assignment : readToken v true .attributeName memory (['='] ++ (quote value ++ rest)) =
      ⟨.delimiterAssign, 1, .attributeValue, memory, none⟩ :=
    readAttributeName_assignment (v := v) (quote value ++ rest)
  let memory' : TagMemory := { memory.noteValue value with blankBefore := false }
  have read : readToken v true .attributeValue memory (quote value ++ rest) =
      ⟨.attributeValue, (quote value).length, .startTag, memory', none⟩ :=
    readAttributeValue_quote (v := v) chars rest
  have same : memory'.tag = memory.tag := by
    simp only [memory', TagMemory.noteValue]
    split <;> rfl
  refine ⟨memory', same, ?_⟩
  calc (facing v .attributeName memory position (['='] ++ (quote value ++ rest))).feed length _
    _ = (facing v .attributeValue memory (position + 1) (quote value ++ rest)).feed length
          (tagging before { n with attributes := attributes.push a } stack comments endTagStart) :=
      feed_facing ['='] _ (by simp) rfl assignment rfl
    _ = _ := feed_facing (quote value) rest (by simp [quote]) rfl read (tagging_addValue none_yet _)

variable (length before n stack comments endTagStart) in
/-- **An attribute** in a start tag, before something that is not part of its name. -/
theorem feed_attribute {a : PlainAttribute} (wf : a.WellFormed) {m : Mode} (inside : m.takesAttributes)
    {c : Char} (stops : isAttributeNameChar c = false) (memory : TagMemory) (position : Nat)
    (rest : Text) :
    ∃ m' memory', m'.takesAttributes ∧ memory'.tag = memory.tag ∧
      (facing v m memory position (a.render ++ c :: rest)).feed length
          (tagging before n stack comments endTagStart) =
        (facing v m' memory' (position + a.render.byteLength) (c :: rest)).feed length
          (tagging before { n with attributes := n.attributes.push (a.placed position) } stack comments
            endTagStart) := by
  cases given : a.value with
  | none =>
    obtain ⟨memory', same, named⟩ := feed_attributeName wf inside stops memory position rest
    refine ⟨.attributeName, memory', .inr rfl, same, ?_⟩
    rw [a.byteLength_render]
    simpa [PlainAttribute.render, PlainAttribute.placed, given, Nat.add_assoc] using named
  | some value =>
    -- Here the name ends at its `=`.
    have stops' : isAttributeNameChar '=' = false := by decide
    have none_yet : ({ a.placed position with value := none } : Attribute).value = none := rfl
    obtain ⟨memory₁, same₁, named⟩ :=
      feed_attributeName wf inside stops' memory position (quote value ++ c :: rest)
    obtain ⟨memory₂, same₂, valued⟩ :=
      feed_attributeValue none_yet (wf.value_chars value given) memory₁
        (position + 1 + a.name.byteLength) (c :: rest)
    have whole : a.render ++ c :: rest = [' '] ++ (a.name ++ '=' :: (quote value ++ c :: rest)) := by
      simp [PlainAttribute.render, given]
    have reaches : position + 1 + a.name.byteLength + 1 + (quote value).byteLength =
        position + a.render.byteLength := by
      rw [a.byteLength_render, given]
      simp only [Option.map_some, Option.getD_some]
      omega
    refine ⟨.startTag, memory₂, .inl rfl, same₂.trans same₁, ?_⟩
    rw [whole, ← reaches]
    refine (named.trans valued).trans ?_
    simp [PlainAttribute.placed, given]

/-- After attributes comes a blank or the bracket. -/
theorem exists_head (attributes : List PlainAttribute) (rest : Text) :
    ∃ c tail, attributes.flatMap (·.render) ++ '>' :: rest = c :: tail ∧ (c = ' ' ∨ c = '>') := by
  cases attributes with
  | nil => exact ⟨'>', rest, rfl, .inr rfl⟩
  | cons a attributes => exact ⟨' ', _, rfl, .inl rfl⟩

variable (length before n stack comments endTagStart) in
/-- **All attributes** of a start tag, before its bracket. -/
theorem feed_attributes {attributes : List PlainAttribute} (wf : ∀ a ∈ attributes, a.WellFormed)
    {m : Mode} (inside : m.takesAttributes) (memory : TagMemory) (position : Nat) (rest : Text) :
    ∃ m' memory', m'.takesAttributes ∧ memory'.tag = memory.tag ∧
      (facing v m memory position (attributes.flatMap (·.render) ++ '>' :: rest)).feed length
          (tagging before n stack comments endTagStart) =
        (facing v m' memory' (position + byteLength (attributes.flatMap (·.render)))
            ('>' :: rest)).feed length
          (tagging before
            { n with attributes := n.attributes ++ (placedAttributes position attributes).toArray } stack
            comments endTagStart) := by
  -- Each attribute leaves a mode in which the next one may come, and the name of the tag.
  induction attributes generalizing m memory position n with
  | nil => exact ⟨m, memory, inside, rfl, by simp [placedAttributes]⟩
  | cons a attributes ih =>
    obtain ⟨c, tail, next, head⟩ := exists_head attributes rest
    have stops : isAttributeNameChar c = false := by rcases head with rfl | rfl <;> decide
    obtain ⟨m₁, memory₁, inside₁, same₁, first⟩ :=
      feed_attribute length before n stack comments endTagStart (wf a List.mem_cons_self) inside stops
        memory position tail
    obtain ⟨m₂, memory₂, inside₂, same₂, others⟩ :=
      ih { n with attributes := n.attributes.push (a.placed position) }
        (fun b mem => wf b (List.mem_cons_of_mem _ mem)) inside₁ memory₁ (position + a.render.byteLength)
    refine ⟨m₂, memory₂, inside₂, same₂.trans same₁, ?_⟩
    rw [List.flatMap_cons, List.append_assoc, next, first, ← next, others]
    simp [placedAttributes, Nat.add_assoc]

/-- The bytes of a start tag. -/
theorem byteLength_renderStartTag (tag : Text) (attributes : List PlainAttribute) :
    (renderStartTag tag attributes).byteLength =
      1 + tag.byteLength + byteLength (attributes.flatMap (·.render)) + 1 := by
  have opening : Char.utf8Size '<' = 1 := rfl
  have closing : Char.utf8Size '>' = 1 := rfl
  simp [renderStartTag, opening, closing]
  omega

/-- The `<` and the name of a start tag, before something that is not part of the name. -/
theorem feed_startTagName {tag : Text} (name : IsTagName tag)
    (top : stack.headD Document.root = before.length) {c : Char} (stops : isTagNameChar c = false)
    (memory : TagMemory) (position : Nat) (rest : Text) :
    ∃ memory', memory'.tag = tag ∧
      (facing v .content memory position (['<'] ++ (tag ++ c :: rest))).feed length
          (steady (before ++ n :: after) stack comments endTagStart) =
        (facing v .startTag memory' (position + 1 + tag.byteLength) (c :: rest)).feed length
          (tagging (before ++ adopt [(before ++ n :: after).length] n :: after)
            { start := position
              stop := length
              parent := some before.length
              name := some ⟨tag, ⟨position + 1, position + 1 + tag.byteLength⟩⟩
              closed := v.isVoid tag }
            (if v.isVoid tag then stack else (before ++ n :: after).length :: stack) comments
            endTagStart) := by
  obtain ⟨first, others, split, start, -⟩ := id name
  set nodes := before ++ adopt [(before ++ n :: after).length] n :: after with nodes_eq
  have longer : nodes.length = (before ++ n :: after).length := by simp [nodes_eq]
  let memory' : TagMemory :=
    { memory with tag, typeValue := none, attributeName := [], blankBefore := false }
  have opens : readToken v true .content memory (['<'] ++ (tag ++ c :: rest)) =
      ⟨.startTagOpen, 1, .startTagOpened, memory, none⟩ := by
    rw [split]
    exact readContent_startTag start _
  have named : readToken v true .startTagOpened memory (tag ++ c :: rest) =
      ⟨.startTag, tag.length, .startTag, memory', none⟩ :=
        readStartTagOpened_name name (endsTagName_cons stops rest)
  refine ⟨memory', rfl, ?_⟩
  rw [← longer]
  calc (facing v .content memory position (['<'] ++ (tag ++ c :: rest))).feed length _
    _ = (facing v .startTagOpened memory (position + 1) (tag ++ c :: rest)).feed length
          (tagging nodes { start := position, stop := length, parent := some before.length }
            (nodes.length :: stack) comments endTagStart) :=
      feed_facing ['<'] _ (by simp) rfl opens (longer ▸ steady_openElement top length position)
    _ = _ := feed_facing tag _ (by simp [split]) rfl named (tagging_nameElement v _)

variable (length after n comments endTagStart) in
/-- **A start tag** opens an element inside the innermost open one, and unless it is void, the element
stays open. -/
theorem feed_startTag {tag : Text} {attributes : List PlainAttribute}
    (wf : StartTagWellFormed v tag attributes) (top : stack.headD Document.root = before.length)
    (memory : TagMemory) (position : Nat) (rest : Text) :
    ∃ memory',
      (facing v .content memory position (renderStartTag tag attributes ++ rest)).feed length
          (steady (before ++ n :: after) stack comments endTagStart) =
        (facing v .content memory' (position + (renderStartTag tag attributes).byteLength)
            rest).feed length
          (steady
            (before ++ adopt [(before ++ n :: after).length] n :: after ++
              [{ startedNode before.length position tag attributes with closed := v.isVoid tag }])
            (if v.isVoid tag then stack else (before ++ n :: after).length :: stack) comments
            endTagStart) := by
  obtain ⟨c, tail, next, head⟩ := exists_head attributes rest
  have stops : isTagNameChar c = false := by rcases head with rfl | rfl <;> decide
  have whole : renderStartTag tag attributes ++ rest = ['<'] ++ (tag ++ c :: tail) := by
    simp [renderStartTag, ← next]
  have closing : byteLength ['>'] = 1 := rfl
  have reaches : position + 1 + tag.byteLength + byteLength (attributes.flatMap (·.render)) +
      byteLength ['>'] = position + (renderStartTag tag attributes).byteLength := by
    rw [closing, byteLength_renderStartTag]
    omega
  obtain ⟨memory₁, same₁, named⟩ :=
    feed_startTagName (n := n) wf.name top stops memory position tail
  obtain ⟨m, memory₂, inside, same₂, attributed⟩ :=
    feed_attributes (v := v) length _ _ _ comments endTagStart wf.attributes (.inl rfl) memory₁
      (position + 1 + tag.byteLength) rest
  have bracket : readToken v true m memory₂ (['>'] ++ rest) = _ :=
    readToken_bracket inside (by rw [same₂, same₁]; exact wf.not_embedded) rest
  refine ⟨memory₂, ?_⟩
  rw [whole]
  refine named.trans ?_
  rw [← next]
  refine attributed.trans (feed_facing ['>'] rest (by simp) reaches bracket ?_)
  refine (tagging_closeStartTag ?_ rfl).trans ?_
  · rw [← reaches, closing]
    simp [Span.isEmpty]
  · simp [startedNode]

/-- The bytes of an end tag. -/
theorem byteLength_renderEndTag (tag : Text) :
    (renderEndTag tag).byteLength = 2 + tag.byteLength + 1 := by
  have opening : byteLength "</".toList = 2 := rfl
  have closing : byteLength ['>'] = 1 := rfl
  rw [renderEndTag, byteLength_append, byteLength_append, opening, closing]

variable (length before after stack comments endTagStart) in
/-- **An end tag** closes the innermost open element, if it answers to the name. -/
theorem feed_endTag {tag : Text} (name : IsTagName tag) (named : n.tag = some tag)
    (reflexive : v.tagNamesMatch tag tag = true) (memory : TagMemory) (position : Nat) (rest : Text) :
    (facing v .content memory position (renderEndTag tag ++ rest)).feed length
        (steady (before ++ n :: after) (before.length :: stack) comments endTagStart) =
      (facing v .content memory (position + (renderEndTag tag).byteLength) rest).feed length
        (steady (before ++ endedNode n n.children.toList position tag :: after) stack comments
          (some position)) := by
  let nameSpan : Span := ⟨position + 2, position + 2 + tag.byteLength⟩
  let opened := steady (before ++ n :: after) (before.length :: stack) comments (some position)
  let ended : Builder :=
    { steady (before ++ closeWith position nameSpan n :: after) stack comments (some position) with
      ended := some before.length }
  have some_name : tag ≠ [] := List.length_pos_iff.mp name.length_pos
  have whole : renderEndTag tag ++ rest = "</".toList ++ (tag ++ '>' :: rest) := by
    simp [renderEndTag]
  have named_read : readToken v true .endTagOpened memory (tag ++ '>' :: rest) =
      ⟨.endTag, tag.length, .endTag, memory, none⟩ :=
    readEndTagOpened_name name (endsTagName_cons (by decide) rest)
  have bracket : readToken v true .endTag memory (['>'] ++ rest) =
      ⟨.endTagClose, 1, .content, memory, none⟩ := readEndTag_bracket rest
  -- The innermost open element answers to its own name, so none is passed.
  have closes : opened.Closes v ⟨.endTag, nameSpan, tag, none⟩ [] before.length stack := by
    refine ⟨rfl, by simp, tag, ?_, reflexive⟩
    simpa [Builder.node, opened, steady] using named
  have taken : opened.endElement v ⟨.endTag, nameSpan, tag, none⟩ = ended := by
    rw [endElement_of_closes rfl closes]
    simp only [cutOff, List.foldl_nil, opened, ended, steady, Builder.modify, modify_middle]
  have closed : ended.closeEndTag (position + (2 + tag.byteLength + 1)) =
      steady (before ++ endedNode n n.children.toList position tag :: after) stack comments
        (some position) := by
    simp only [closeEndTag, ended, steady, Builder.modify, modify_middle, closeWith, endedNode,
      byteLength_renderEndTag, nameSpan, Array.toArray_toList]
  have reaches : position + 2 + tag.byteLength + byteLength ['>'] =
      position + (2 + tag.byteLength + 1) := by
    have closing : byteLength ['>'] = 1 := rfl
    omega
  rw [whole, byteLength_renderEndTag]
  calc (facing v .content memory position ("</".toList ++ (tag ++ '>' :: rest))).feed length _
    _ = (facing v .endTagOpened memory (position + 2) (tag ++ '>' :: rest)).feed length opened :=
      feed_facing "</".toList _ (by simp) rfl rfl rfl
    _ = (facing v .endTag memory (position + 2 + tag.byteLength) (['>'] ++ rest)).feed length ended :=
      feed_facing tag _ some_name rfl named_read taken
    _ = _ := feed_facing ['>'] rest (by simp) reaches bracket closed

/-- **A comment** is recorded with its content. -/
theorem feed_comment {body : Text} (chars : ¬ "-->".toList <:+: body) (memory : TagMemory)
    (position : Nat) (nodes : List Node) (rest : Text) :
    (facing v .content memory position (renderComment body ++ rest)).feed length
        (steady nodes stack comments endTagStart) =
      (facing v .content memory (position + (renderComment body).byteLength) rest).feed length
        (steady nodes stack
          (comments ++ [⟨⟨position, position + (renderComment body).byteLength⟩,
            ⟨position + 4, position + 4 + body.byteLength⟩⟩]) endTagStart) := by
  let opened : Builder :=
    { steady nodes stack comments endTagStart with commentStart := some position }
  let content : Span := ⟨position + 4, position + 4 + body.byteLength⟩
  have whole : renderComment body ++ rest = "<!--".toList ++ (body ++ ("-->".toList ++ rest)) := by
    simp [renderComment]
  have reaches : position + 4 + body.byteLength + byteLength "-->".toList =
      position + (renderComment body).byteLength := by
    have opening : byteLength "<!--".toList = 4 := rfl
    rw [renderComment, byteLength_append, byteLength_append, opening]
    omega
  let done := steady nodes stack
    (comments ++ [⟨⟨position, position + (renderComment body).byteLength⟩, content⟩]) endTagStart
  have last : readToken v true .comment memory ("-->".toList ++ rest) =
      ⟨.endComment, 3, .content, memory, none⟩ := readComment_end rest
  have ends (b : Builder) (closed : b.endComment (position + 4 + body.byteLength)
        (position + (renderComment body).byteLength) = done) :
      (facing v .comment memory (position + 4 + body.byteLength) ("-->".toList ++ rest)).feed length b =
        (facing v .content memory (position + (renderComment body).byteLength) rest).feed length done :=
    feed_facing "-->".toList rest (by simp) reaches last closed
  rw [whole]
  calc (facing v .content memory position
          ("<!--".toList ++ (body ++ ("-->".toList ++ rest)))).feed length _
    _ = (facing v .comment memory (position + 4) (body ++ ("-->".toList ++ rest))).feed length opened :=
      feed_facing "<!--".toList _ (by simp) rfl rfl rfl
    _ = _ := by
      by_cases no_body : body = []
      · -- An empty comment has no token for its body.
        subst no_body
        exact ends opened (steady_endComment nodes _ _ _ none)
      · have read : readToken v true .comment memory (body ++ ("-->".toList ++ rest)) =
            ⟨.comment, body.length, .comment, memory, none⟩ := readComment_body chars no_body rest
        exact (feed_facing body _ no_body rfl read rfl).trans
          (ends _ (steady_endComment nodes _ _ _ (some content)))

end tags

end MarkupAnalysis
