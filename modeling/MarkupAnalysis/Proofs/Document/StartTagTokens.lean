import MarkupAnalysis.Proofs.Document.ClosingTag
import MarkupAnalysis.Proofs.Document.History
import MarkupAnalysis.Proofs.Document.NamePlaces

/-! # The tokens of a start tag

From its `<` to its end a start tag has tokens of its own only. An offset in one of them belongs to the
element: it is the node before the offset.

* **`Document.ReadsStartTag`** — the start tag of an element is being read.
* **`Document.exists_tokens_of_reading`** — the tokens of a start tag so far, and the name among them.
* **`Document.ReadsStartTag.stop_le_contentStart`** — the content starts behind them.
* **`Document.ReadsStartTag.nodeBefore`** — the node before an offset in a start tag.
* **`Document.UninterruptedWithin`** — no tag is interrupted behind a `<` and before an offset.
* **`Document.named_of_readsStartTag`** — behind its `<` a start tag has a name, or it ends.
* **`Document.exists_token_of_attribute`**, **`Document.exists_token_of_value`**,
  **`Document.exists_token_of_startTagEnd`** — what the tree has of a start tag has been read in it.
* **`Document.ReadsStartTag.exists_attribute`**, **`Document.ReadsStartTag.startTagEnd_eq`** — and what is
  read of it is in the tree. -/

namespace MarkupAnalysis

open Text

/-! ## Brackets behind what is no name -/

/-- A closing bracket ends a start tag, wherever it comes behind the name. -/
theorem kind_readToken_bracket {v : Vocabulary} {pseudoClose : Bool} {memory : TagMemory} {m : Mode}
    (inside : m.inStartTag) (named : m ≠ .startTagOpened) (rest : Text) :
    (readToken v pseudoClose m memory ('>' :: rest)).kind = .startTagClose := by
  have closes (memory : TagMemory) :
      (readStartTag v pseudoClose memory ('>' :: rest)).kind = .startTagClose := by
    rw [readStartTag_bracket, closeStartTag]
    split <;> rfl
  have no_blank : lengthWhile isAsciiBlank ('>' :: rest) = 0 := by simp [lengthWhile, isAsciiBlank]
  have no_value : lengthWhile isUnquotedValueChar ('>' :: rest) = 0 := by
    simp [lengthWhile, isUnquotedValueChar]
  cases m with
  | startTagOpened => exact absurd rfl named
  | startTag => exact closes memory
  | attributeName =>
    have no_assign : startsWith ['='] ('>' :: rest) = false := rfl
    rw [readToken, readAttributeName]
    simp only [no_blank, no_assign, Nat.lt_irrefl, Bool.false_eq_true, if_false]
    exact closes memory
  | attributeValue =>
    unfold readToken readAttributeValue
    dsimp only
    rw [no_blank, no_value, if_neg (Nat.lt_irrefl 0), if_neg (Nat.lt_irrefl 0)]
    -- The bracket is no quote either.
    exact closes _
  | _ => cases inside

namespace Tokenizer

variable {s : Tokenizer}

/-- What comes behind a passage is one of the tokens. -/
theorem Passes.token_mem {s' : Tokenizer} {passed : List Token} (h : s.Passes passed s') :
    s'.token ∈ s.tokens := by
  rw [h.tokens_eq]
  refine List.mem_append_right _ ?_
  by_cases ended : s'.ahead = []
  · rw [tokens_of_ahead_eq_nil ended]
    exact List.mem_singleton_self _
  · rw [tokens_of_ahead_ne_nil ended]
    exact List.mem_cons_self

/-- A closing bracket that comes next ends the start tag. -/
theorem kind_of_bracket (some_ahead : s.ahead ≠ []) (inside : s.mode.inStartTag)
    (named : s.mode ≠ .startTagOpened) (bracket : ∀ c ∈ s.ahead.head?, c = '>') :
    s.token.kind = .startTagClose := by
  obtain ⟨c, rest, split⟩ := List.exists_cons_of_ne_nil some_ahead
  obtain rfl : c = '>' := bracket c (by rw [split]; rfl)
  show s.reading.kind = _
  rw [reading_eq some_ahead, split]
  exact kind_readToken_bracket inside named rest

/-- What stands in place of a name reaches up to a bracket. -/
theorem bracket_behind_junk (opened : s.mode = .startTagOpened) (kind : s.token.kind = .unknown) :
    ∀ c ∈ s.rest.ahead.head?, c = '>' := by
  have some_ahead := ahead_ne_nil kind (by decide)
  have own : s.reading.kind = .unknown := kind
  show ∀ c ∈ (s.ahead.drop s.reading.length).head?, c = '>'
  rw [reading_eq some_ahead, opened, readToken] at own ⊢
  unfold readStartTagOpened at own ⊢
  dsimp only at own ⊢
  split_ifs at own ⊢ with name blanks junk
  · exact head?_drop_lengthUntil '>' s.ahead
  · -- A bracket comes at once, and it is no such text.
    obtain ⟨rest, split⟩ := startsWith_of_lengthUntil_eq_zero some_ahead (Nat.eq_zero_of_not_pos junk)
    rw [split, readStartTag_bracket, closeStartTag] at own
    split at own <;> cases own

end Tokenizer

namespace Builder

variable {v : Vocabulary} {b : Builder} {s : Tokenizer} {length bound : Nat} {id : NodeId} {n : Node}

/-- **The content starts behind what has been read** of the start tag, whatever comes. -/
theorem le_contentStart_of_nodeStep (stands : b.Stands length s.mode s.position)
    (step : b.NodeStep v length s.token id n) (known : id < b.nodes.size)
    (reached : bound ≤ s.rest.position) (so_far : bound ≤ (b.node id).contentStart) :
    bound ≤ n.contentStart := by
  obtain ⟨frontier, -, nested⟩ := stands.exists_nested
  -- Behind a complete start tag the end of the element has no part in this.
  have of_startTagEnd {stop e : Nat} {closed : Bool} {endTag : Option EndTag}
      (ends : (b.node id).startTagEnd = some e) :
      bound ≤ { b.node id with stop, closed, endTag }.contentStart := by
    rw [Node.contentStart, ends] at so_far ⊢
    exact so_far
  -- Only the tokens that end the start tag put the content somewhere else.
  cases step with
  | keeps | adopts | names | addsAttribute | addsValue => exact so_far
  | opens _ fresh => exact absurd known (fresh ▸ Nat.lt_irrefl _)
  | interrupts _ reading =>
    obtain ⟨-, -, -, unfinished, -⟩ := nested.reading id reading
    show bound ≤ (b.node id).startTagEnd.getD s.rest.position
    rw [unfinished]
    exact reached
  | endsStartTag | selfCloses => exact reached
  | cutsOff kind start mem =>
    obtain ⟨e, ends⟩ := stands.exists_startTagEnd kind mem
    exact of_startTagEnd ends
  | closes kind opening mem =>
    obtain ⟨e, ends⟩ := stands.exists_startTagEnd kind mem
    exact of_startTagEnd ends
  | endsEndTag kind ended =>
    obtain ⟨-, just_ended⟩ := stands.justEnded_of_endTagClose kind ended
    obtain ⟨e, ends⟩ := just_ended.startTagEnd
    exact of_startTagEnd ends

end Builder

/-- **Two tokens that the same offset is in** are the same. -/
theorem Token.eq_of_touching {tokens : List Token}
    (ordered : tokens.Pairwise fun a b => a.span.stop ≤ b.span.start) {x y : Token} {offset : Nat}
    (mem : x ∈ tokens) (mem' : y ∈ tokens) (starts : x.span.start < offset) (ends : offset ≤ x.span.stop)
    (starts' : y.span.start < offset) (ends' : offset ≤ y.span.stop) : x = y := by
  rcases eq_or_rel_of_pairwise ordered mem mem' with same | apart | apart
  · exact same
  · omega
  · omega

namespace Document

variable {v : Vocabulary} {t : Text} {s : Tokenizer} {passed : List Token} {id : NodeId} {offset : Nat}

/-! ## From the `<` on -/

/-- **The start tag of an element is being read**: some tokens have been passed, and another one comes. -/
structure ReadsStartTag (v : Vocabulary) (t : Text) (id : NodeId) (passed : List Token) (s : Tokenizer) :
    Prop where
  /-- The tokens have been passed. -/
  passes : (scanner v t).Passes passed s
  /-- There is another one. -/
  some_ahead : s.ahead ≠ []
  /-- The start tag is that of the element. -/
  reading : (built v t passed).startTag = some id

/-- In a start tag one is being read. -/
theorem exists_readsStartTag (h : (scanner v t).Passes passed s) (some_ahead : s.ahead ≠ [])
    (inside : s.mode.inStartTag) : ∃ id, ReadsStartTag v t id passed s := by
  obtain ⟨id, reading, -⟩ := (bodyOwner_built h).1.reading inside
  exact ⟨id, h, some_ahead, reading⟩

/-- **The tokens of a start tag so far**: its `<`, its name, and what may stand behind a name. -/
theorem exists_tokens_of_reading (h : (scanner v t).Passes passed s)
    (reading : (built v t passed).startTag = some id) :
    ∃ before opening more, passed = before ++ opening :: more ∧ opening.kind = .startTagOpen ∧
      opening.span.start = ((parse v t).node id).start ∧
      (∀ x ∈ more, x.kind = .startTag ∨ x.kind.isInStartTag = true) ∧
      ((built v t passed).node id).tag = latestTag more := by
  refine h.along (P := fun passed s => (built v t passed).startTag = some id → ∃ before opening more,
    passed = before ++ opening :: more ∧ opening.kind = .startTagOpen ∧
      opening.span.start = ((parse v t).node id).start ∧
      (∀ x ∈ more, x.kind = .startTag ∨ x.kind.isInStartTag = true) ∧
      ((built v t passed).node id).tag = latestTag more) ?_ ?_ reading
  · -- Before the first token no start tag is read.
    exact nofun
  · intro passed s passes some_ahead so_far reading
    have passes' := passes.concat some_ahead
    have inside := (stands_built passes').inStartTag reading
    obtain ⟨frontier, -, nested⟩ := (stands_built passes).exists_nested
    obtain ⟨frontier', -, nested'⟩ := (stands_built passes').exists_nested
    have start := (start_parse_of_passes passes' (nested'.reading id reading).1).2
    rw [built_concat] at reading start
    rcases Builder.startTag_take reading with ⟨kind, rfl⟩ | before
    · -- The element has just been opened.
      have node : ((built v t passed).take v t.byteLength s.token).node (built v t passed).nodes.size =
          (built v t passed).opened t.byteLength s.token.span.start := by
        rw [Builder.take, kind]
        exact Builder.node_openElement_size nested.current_lt_size
      refine ⟨passed, s.token, [], rfl, kind, ?_, List.forall_mem_nil _, ?_⟩
      · rw [start, node]
        rfl
      · rw [built_concat, node]
        rfl
    · -- Or the token goes on with the start tag that was read before it.
      obtain ⟨front, opening, more, rfl, kind, opens, all, tag⟩ := so_far before
      have known := (nested.reading id before).1
      refine ⟨front, opening, more ++ [s.token], by simp, kind, opens, ?_, ?_⟩
      · intro x mem
        rcases List.mem_append.mp mem with mem | mem
        · exact all x mem
        · rw [List.mem_singleton.mp mem]
          refine ((Tokenizer.reads some_ahead).to_startTag inside).elim (fun again => ?_) And.right
          rw [Builder.take, again.1] at reading
          exact absurd (Option.some.inj reading) (Nat.ne_of_gt known)
      · rw [latestTag_concat]
        split_ifs with name
        · rw [Node.tag, name_built_of_startTag passes name before]
          rfl
        · have kept := (Builder.name_take nested v s.token id).resolve_right fun given => name given.1
          rw [← tag, built_concat, Node.tag, Node.tag, kept]

namespace ReadsStartTag

variable (h : ReadsStartTag v t id passed s)

include h in
/-- The element whose start tag is being read is known. -/
theorem known : id < (built v t passed).nodes.size := by
  obtain ⟨frontier, -, nested⟩ := (stands_built h.passes).exists_nested
  exact (nested.reading id h.reading).1

include h in
/-- The element is still known behind the next token. -/
theorem known_concat : id < (built v t (passed ++ [s.token])).nodes.size := by
  rw [built_concat]
  exact Nat.lt_of_lt_of_le h.known (Builder.size_le_take v t.byteLength _ s.token)

include h in
/-- The next token is one of the text. -/
theorem token_mem : s.token ∈ tokensOf v t := h.passes.token_mem

include h in
/-- The element whose start tag is being read is one of the text. -/
theorem isElement : (parse v t).IsElement id := by
  obtain ⟨frontier, -, nested⟩ := (stands_built h.passes).exists_nested
  exact ⟨(nested.reading id h.reading).2.1, (start_parse_of_passes h.passes h.known).1⟩

include h in
/-- The element whose start tag is being read starts before the next token. -/
theorem start_lt : ((parse v t).node id).start < s.position := by
  obtain ⟨frontier, bound, nested⟩ := (stands_built h.passes).exists_nested
  obtain ⟨known, off_root, -⟩ := nested.reading id h.reading
  rw [(start_parse_of_passes h.passes known).2]
  exact Nat.lt_of_lt_of_le (nested.starts id known off_root) bound

include h in
/-- **The content starts behind the tokens of the start tag.** -/
theorem stop_le_contentStart : s.token.span.stop ≤ ((parse v t).node id).contentStart := by
  have here := h.passes.at_of_at (scanner_at v t)
  have passes := h.passes.concat h.some_ahead
  obtain ⟨frontier, -, nested⟩ := (stands_built h.passes).exists_nested
  refine node_parse_of_keeps (P := fun n => s.rest.position ≤ n.contentStart) passes h.known_concat ?_ ?_ ?_
  · -- Before the token the start tag is unfinished, so the element reaches to the end of the text.
    have so_far : s.rest.position ≤ ((built v t passed).node id).contentStart := by
      obtain ⟨-, -, -, unfinished, -, stop, -⟩ := nested.reading id h.reading
      rw [Node.contentStart, unfinished, stop]
      exact here.rest.position_le
    have known' := h.known_concat
    rw [built_concat] at known' ⊢
    exact Builder.le_contentStart_of_nodeStep (stands_built h.passes)
      (Builder.nodeStep_take nested v s.token known') h.known (Nat.le_refl _) so_far
  · intro before s' n passes some_ahead behind known step so_far
    exact Builder.le_contentStart_of_nodeStep (stands_built passes) step known
      (Nat.le_trans behind Tokenizer.position_le_rest) so_far
  · intro before s' passes still_open so_far
    obtain ⟨frontier, -, nested⟩ := (stands_built passes).exists_nested
    by_cases reading : (built v t before).startTag = some id
    · obtain ⟨-, -, -, -, -, stop, -⟩ := nested.reading id reading
      rw [Builder.cut, ← stop]
      exact so_far
    · obtain ⟨e, ends, -⟩ := nested.openTag id still_open reading
      rw [Node.contentStart, ends] at so_far
      rw [Node.contentStart, Builder.cut, ends]
      exact so_far

end ReadsStartTag

/-! ## The node before an offset in a start tag -/

/-- **An element is the node before the offsets in its start tag.** -/
theorem nodeBefore_of_inStartTag (element : (parse v t).IsElement id)
    (starts : ((parse v t).node id).start < offset) (ends : offset ≤ ((parse v t).node id).contentStart)
    (inside : offset ≤ t.byteLength) : (parse v t).nodeBefore offset = some id := by
  have h := preordered_parse v t
  have order := (h.wellFormed.element id element.2 element.1).1
  have stop : offset ≤ ((parse v t).node id).stop := ends.trans (order.content_le.trans order.le_stop)
  have last : (parse v t).StartsLast ((parse v t).StartsBefore offset) id := by
    refine ⟨element, starts, ?_⟩
    intro other other_element before differ
    have before : ((parse v t).node other).start < offset := before
    rcases Nat.lt_or_gt_of_ne differ with earlier | later
    · exact h.starts other id (Nat.pos_of_ne_zero other_element.1) earlier element.2
    · -- What comes later starts behind the start tag.
      rcases h.inside_or_apart element.1 later other_element.2 with below | apart
      · have content := (h.content_of_mem_descendants element below).1
        omega
      · omega
  refine h.nodeBefore_eq_some_iff.mpr ⟨inside, ?_⟩
  by_cases around : offset < ((parse v t).node id).stop
  · exact .inside last around
  · refine .ended last (Nat.le_of_not_lt around) (fun other _ ends => ends.2.trans stop) ?_
    exact ⟨element, ⟨⟨starts, Nat.le_of_not_lt around⟩, rfl⟩,
      fun other other_element ends differ => last.last other other_element ends.1.1 differ⟩

/-- No tag that is interrupted ends behind an offset and before another one. -/
def UninterruptedWithin (v : Vocabulary) (t : Text) (start stop : Nat) : Prop :=
  ∀ token ∈ tokensOf v t, start < token.span.start → token.span.start < stop → ¬ token.Interrupts

namespace ReadsStartTag

section

variable (h : ReadsStartTag v t id passed s)

include h in
/-- **The node before an offset** in a token of a start tag is the element. -/
theorem nodeBefore (starts : s.token.span.start < offset) (ends : offset ≤ s.token.span.stop) :
    (parse v t).nodeBefore offset = some id := by
  have behind := Nat.lt_trans h.start_lt starts
  refine nodeBefore_of_inStartTag h.isElement behind (ends.trans h.stop_le_contentStart) ?_
  exact ends.trans (h.passes.at_of_at (scanner_at v t)).rest.position_le

include h in
/-- Behind its `<` a start tag is not interrupted before its last token. -/
theorem uninterrupted (ends : offset ≤ s.token.span.stop) :
    UninterruptedWithin v t ((parse v t).node id).start offset := by
  intro x mem behind before interrupts
  obtain ⟨front, opening, more, rfl, kind, opens, all, -⟩ := exists_tokens_of_reading h.passes h.reading
  have tokens : tokensOf v t = (front ++ opening :: more) ++ s.tokens := h.passes.tokens_eq
  rw [Tokenizer.tokens_of_ahead_ne_nil h.some_ahead, List.append_assoc] at tokens
  have ordered := tokensOf_pairwise v t
  have forwards := (span_of_mem_tokensOf mem).1
  -- A token of the text comes before the `<`, in the start tag so far, at the offset, or later.
  rw [tokens] at ordered mem
  obtain ⟨-, ordered, apart⟩ := List.pairwise_append.mp ordered
  rcases List.mem_append.mp mem with mem | mem
  · have := apart x mem opening List.mem_cons_self
    omega
  rcases List.mem_cons.mp mem with rfl | mem
  · exact absurd (opens ▸ behind) (Nat.lt_irrefl _)
  rcases List.mem_append.mp mem with mem | mem
  · -- No token of these kinds closes a tag.
    obtain ⟨closes, -⟩ := interrupts
    rcases all x mem with name | goes_on
    · rw [name] at closes
      rcases closes with closes | closes <;> cases closes
    · rcases closes with closes | closes <;> rw [closes] at goes_on <;> cases goes_on
  rcases List.mem_cons.mp mem with rfl | mem
  · exact (Tokenizer.some_ahead_of_some_text (Nat.lt_of_lt_of_le before ends)).2 interrupts
  · have ordered := (List.pairwise_append.mp (List.pairwise_cons.mp ordered).2).2.1
    have := (List.pairwise_cons.mp ordered).1 x mem
    omega

end

end ReadsStartTag

/-! ## Its name -/

/-- **Behind its `<` a start tag has a name**, or nothing comes before its bracket. -/
theorem named_of_readsStartTag (h : (scanner v t).Passes passed s)
    (reading : (built v t passed).startTag = some id) (opened : s.mode ≠ .startTagOpened) :
    (∃ name, ((built v t passed).node id).name = some name) ∨ ∀ c ∈ s.ahead.head?, c = '>' := by
  refine h.along (P := fun passed s => (built v t passed).startTag = some id →
    s.mode ≠ .startTagOpened → (∃ name, ((built v t passed).node id).name = some name) ∨
      ∀ c ∈ s.ahead.head?, c = '>') ?_ ?_ reading opened
  · exact nofun
  · intro passed s passes some_ahead so_far reading opened
    have inside := (stands_built (passes.concat some_ahead)).inStartTag reading
    have reads := Tokenizer.reads some_ahead
    rw [built_concat] at reading
    have before : (built v t passed).startTag = some id := by
      refine (Builder.startTag_take reading).resolve_left fun opens => opened ?_
      rcases reads.to_startTag inside with ⟨-, mode⟩ | ⟨-, kind⟩
      · exact mode
      · rw [opens.1] at kind
        rcases kind with kind | kind <;> cases kind
    by_cases first : s.mode = .startTagOpened
    · -- Behind the `<` there is the name, or what stands in its place.
      rw [first] at reads
      generalize kind : s.token.kind = k at reads
      generalize s.rest.mode = m at reads inside opened
      cases reads with
      | startTagName => exact .inl ⟨_, name_built_of_startTag passes kind before⟩
      | startTagBlank => exact absurd rfl opened
      | startTagJunk => exact .inr (Tokenizer.bracket_behind_junk first kind)
      | startTagOpens outside => cases outside
      | endTagBlank outside => cases outside
      | attributeOpens place => rcases place with place | place <;> cases place
      | _ => cases inside
    · rcases so_far before first with ⟨name, named⟩ | bracket
      · exact .inl ⟨name, name_built_concat passes named⟩
      · -- The bracket ends the start tag.
        have in_tag := (stands_built passes).inStartTag before
        have kind := Tokenizer.kind_of_bracket some_ahead in_tag first bracket
        rcases reads.to_startTag inside with ⟨opens, -⟩ | ⟨-, goes_on⟩
        · cases opens.symm.trans kind
        · rw [kind] at goes_on
          rcases goes_on with goes_on | goes_on <;> cases goes_on

/-- **Behind its `<` a start tag that goes on has a name.** -/
theorem ReadsStartTag.exists_name (h : ReadsStartTag v t id passed s) (opened : s.mode ≠ .startTagOpened)
    (goes_on : s.token.kind ≠ .startTagClose) :
    ∃ name, ((built v t passed).node id).name = some name := by
  refine (named_of_readsStartTag h.passes h.reading opened).resolve_right ?_
  intro bracket
  have inside := (stands_built h.passes).inStartTag h.reading
  exact goes_on (Tokenizer.kind_of_bracket h.some_ahead inside opened bracket)

/-! ## Its attributes and its end -/

/-- Before the first token no node has attributes. -/
theorem attributes_blank (id : NodeId) : ((blank t).node id).attributes = #[] := by
  cases id <;> rfl

/-- A value is given to the latest attribute, and the others stay. -/
theorem attributes_of_value (passes : (scanner v t).Passes passed s) (kind : s.token.kind = .attributeValue)
    (reading : (built v t passed).startTag = some id) :
    ∃ (others : Array Attribute) (latest : Attribute),
      ((built v t passed).node id).attributes = others.push latest ∧
      ((built v t passed).node id).attributes.modify (((built v t passed).node id).attributes.size - 1)
        (Builder.giveValue s.token) =
          others.push { latest with value := some ⟨s.token.text, s.token.span⟩ } := by
  obtain ⟨others, latest, split, no_value, -⟩ :=
    (attributesStand_built passes).assigned (Tokenizer.mode_of_attributeValue kind) id reading
  refine ⟨others, latest, split, ?_⟩
  rw [split]
  exact Builder.modify_giveValue no_value s.token

/-- **The value of an attribute** has been read in the start tag. -/
theorem exists_token_of_value {a : Attribute} {value : AttributeValue}
    (mem : a ∈ ((parse v t).node id).attributes) (given : a.value = some value) :
    ∃ passed s, ReadsStartTag v t id passed s ∧ s.token.kind = .attributeValue ∧
      value = ⟨s.token.text, s.token.span⟩ := by
  obtain ⟨passed, s, n, passes, some_ahead, step, ⟨a, mem, given⟩, not_before⟩ :=
    exists_nodeStep (P := fun n => ∃ a ∈ n.attributes, a.value = some value)
      (by simp [attributes_blank]) (fun _ holds => holds) ⟨a, mem, given⟩
  cases step with
  | keeps | adopts | names | interrupts | endsStartTag | selfCloses | cutsOff | closes | endsEndTag =>
    exact absurd ⟨a, mem, given⟩ not_before
  | opens =>
    have mem : a ∈ (#[] : Array Attribute) := mem
    simp at mem
  | addsAttribute =>
    rcases Array.mem_push.mp mem with known | rfl
    · exact absurd ⟨a, known, given⟩ not_before
    · cases given
  | addsValue kind reading =>
    refine ⟨passed, s, ⟨passes, some_ahead, reading⟩, kind, ?_⟩
    obtain ⟨others, latest, split, changed⟩ := attributes_of_value passes kind reading
    dsimp only at mem
    rw [changed] at mem
    rcases Array.mem_push.mp mem with known | rfl
    · refine absurd ⟨a, ?_, given⟩ not_before
      rw [split]
      exact Array.mem_push_of_mem latest known
    · exact (Option.some.inj given).symm

/-- **The name of an attribute** has been read in the start tag. -/
theorem exists_token_of_attribute {a : Attribute} (mem : a ∈ ((parse v t).node id).attributes) :
    ∃ passed s, ReadsStartTag v t id passed s ∧ s.token.kind = .attributeName ∧
      a.name = s.token.text ∧ a.nameSpan = s.token.span := by
  obtain ⟨passed, s, n, passes, some_ahead, step, ⟨b, mem, name, span⟩, not_before⟩ :=
    exists_nodeStep (P := fun n => ∃ b ∈ n.attributes, b.name = a.name ∧ b.nameSpan = a.nameSpan)
      (by simp [attributes_blank]) (fun _ holds => holds) ⟨a, mem, rfl, rfl⟩
  cases step with
  | keeps | adopts | names | interrupts | endsStartTag | selfCloses | cutsOff | closes | endsEndTag =>
    exact absurd ⟨b, mem, name, span⟩ not_before
  | opens =>
    have mem : b ∈ (#[] : Array Attribute) := mem
    simp at mem
  | addsAttribute kind reading =>
    rcases Array.mem_push.mp mem with known | rfl
    · exact absurd ⟨b, known, name, span⟩ not_before
    · exact ⟨passed, s, ⟨passes, some_ahead, reading⟩, kind, name.symm, span.symm⟩
  | addsValue kind reading =>
    obtain ⟨others, latest, split, changed⟩ := attributes_of_value passes kind reading
    dsimp only at mem
    rw [changed] at mem
    refine absurd ?_ not_before
    rw [split]
    rcases Array.mem_push.mp mem with known | rfl
    · exact ⟨b, Array.mem_push_of_mem latest known, name, span⟩
    · exact ⟨latest, Array.mem_push_self, name, span⟩

/-- **The end of a start tag** that does not close its element is its bracket. -/
theorem exists_token_of_startTagEnd {stop : Nat} (ends : ((parse v t).node id).startTagEnd = some stop)
    (not_selfClosing : ((parse v t).node id).selfClosing = false) :
    ∃ passed s, ReadsStartTag v t id passed s ∧ s.token.kind = .startTagClose ∧
      s.position < s.token.span.stop ∧ s.token.span.stop = stop := by
  have not_first (id : NodeId) : ¬ (((blank t).node id).startTagEnd = some stop ∧
      ((blank t).node id).selfClosing = false) := by
    rintro ⟨ends, -⟩
    cases id <;> cases ends
  obtain ⟨passed, s, n, passes, some_ahead, step, ⟨ends, not_selfClosing⟩, not_before⟩ :=
    exists_nodeStep (P := fun n => n.startTagEnd = some stop ∧ n.selfClosing = false)
      not_first (fun _ holds => holds) ⟨ends, not_selfClosing⟩
  cases step with
  | keeps | adopts | names | interrupts | addsAttribute | addsValue | cutsOff | closes | endsEndTag =>
    exact absurd ⟨ends, not_selfClosing⟩ not_before
  | opens => cases ends
  | selfCloses => cases not_selfClosing
  | endsStartTag kind reading some_text =>
    refine ⟨passed, s, ⟨passes, some_ahead, reading⟩, kind, ?_, Option.some.inj ends⟩
    apply Nat.lt_of_le_of_ne Tokenizer.position_le_rest
    intro empty
    have no_text : s.token.span.isEmpty = true := beq_iff_eq.mpr empty
    exact absurd (some_text.symm.trans no_text) Bool.false_ne_true

namespace ReadsStartTag

/-- **An attribute whose name is read** is in the tree. -/
theorem exists_attribute (h : ReadsStartTag v t id passed s) (kind : s.token.kind = .attributeName) :
    ∃ a ∈ ((parse v t).node id).attributes, a.name = s.token.text ∧ a.nameSpan = s.token.span := by
  refine node_parse_of_keeps
    (P := fun n => ∃ a ∈ n.attributes, a.name = s.token.text ∧ a.nameSpan = s.token.span)
    (h.passes.concat h.some_ahead) h.known_concat ?_ ?_ (fun _ _ _ _ so_far => so_far)
  · rw [built_concat, Builder.node_take_attributeName kind h.reading h.known]
    exact ⟨_, Array.mem_push_self, rfl, rfl⟩
  · intro before s' n passes some_ahead behind known step ⟨a, mem, name, span⟩
    cases step with
    | keeps | adopts | names | interrupts | endsStartTag | selfCloses | cutsOff | closes | endsEndTag =>
      exact ⟨a, mem, name, span⟩
    | opens _ fresh => exact absurd known (fresh ▸ Nat.lt_irrefl _)
    | addsAttribute => exact ⟨a, Array.mem_push_of_mem _ mem, name, span⟩
    | addsValue kind reading =>
      obtain ⟨others, latest, split, changed⟩ := attributes_of_value passes kind reading
      dsimp only
      rw [split] at mem
      rw [changed]
      rcases Array.mem_push.mp mem with known | rfl
      · exact ⟨a, Array.mem_push_of_mem _ known, name, span⟩
      · exact ⟨_, Array.mem_push_self, name, span⟩

/-- **A start tag whose bracket is read** ends there in the tree. -/
theorem startTagEnd_eq (h : ReadsStartTag v t id passed s) (kind : s.token.kind = .startTagClose)
    (some_text : s.position < s.token.span.stop) :
    ((parse v t).node id).startTagEnd = some s.token.span.stop ∧
      ((parse v t).node id).selfClosing = false := by
  refine node_parse_of_keeps (P := fun n => n.startTagEnd = some s.token.span.stop ∧ n.selfClosing = false)
    (h.passes.concat h.some_ahead) h.known_concat ?_ ?_ (fun _ _ _ _ so_far => so_far)
  · have not_empty : s.token.span.isEmpty = false :=
      Bool.eq_false_iff.mpr fun empty => Nat.ne_of_lt some_text (beq_iff_eq.mp empty)
    rw [built_concat, Builder.take, kind]
    dsimp only
    rw [(Builder.closeStartTag_of_some_text h.reading h.known not_empty).1]
    exact ⟨rfl, ((marked_built h.passes).reading id h.reading).1⟩
  · intro before s' n passes some_ahead behind known step so_far
    obtain ⟨ends, not_selfClosing⟩ := so_far
    obtain ⟨frontier, -, nested⟩ := (stands_built passes).exists_nested
    -- The start tag of the element is not read any more.
    have not_read (reading : (built v t before).startTag = some id) : False := by
      obtain ⟨-, -, -, unfinished, -⟩ := nested.reading id reading
      cases unfinished.symm.trans ends
    cases step with
    | keeps | adopts | addsAttribute | addsValue | names | interrupts | cutsOff | closes | endsEndTag =>
      exact ⟨ends, not_selfClosing⟩
    | opens _ fresh => exact absurd known (fresh ▸ Nat.lt_irrefl _)
    | endsStartTag _ reading | selfCloses _ reading => exact (not_read reading).elim

end ReadsStartTag

end Document

end MarkupAnalysis
