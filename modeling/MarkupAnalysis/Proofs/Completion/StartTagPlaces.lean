import MarkupAnalysis.Proofs.Completion.TagBefore
import MarkupAnalysis.Proofs.Document.StartTagTokens

/-! # The cursor in a start tag

Completion cuts the text into tokens from the node before the cursor on. In a start tag of the document these
are the tokens of the document, so the cursor is in the same token for both, and the latest tag name before it
is that of the element.

* **`Tokenizer.Passes.alike`** — two scans that hand out the same tokens.
* **`Cursor.find_of_passes_tag`** — the latest tag name before the cursor.
* **`Cursor.find_of_touching`** — the token that the cursor is in makes the place.
* **`Document.exists_passes_within`** — the scan of completion comes to the token of the document.
* **`Document.exists_passes_same`** — and the other way around.
* **`Document.latestTag_of_readsStartTag`** — the latest tag name is that of the node before the cursor. -/

namespace MarkupAnalysis

open Text

/-! ## Two scans of the same tokens -/

namespace Mode

/-- The same mode, or two modes between tags. -/
def Alike (m n : Mode) : Prop := m = n ∨ m.betweenTags = true ∧ n.betweenTags = true

namespace Reads

variable {m n m' n' : Mode} {kind : TokenKind}

/-- What is read in the content is read between tags only. -/
theorem betweenTags_of_content (reads : content.Reads kind m') (reads' : n.Reads kind n') :
    n.betweenTags = true := by
  cases reads with
  | text | commentOpens | declarationOpens | startTagOpens | endTagOpens =>
    cases reads'
    assumption
  | startTagBlank inside | startTagJunk inside | startTagEnds inside | startTagEndsBeforeBody inside
  | elementEnds inside | endTagBlank inside | endTagEnds inside => cases inside
  | attributeOpens place => rcases place with place | place <;> cases place

/-- **The kind of a token tells the mode behind it**, but for the modes between tags. -/
theorem alike (same : m.Alike n) (reads : m.Reads kind m') (reads' : n.Reads kind n') : m'.Alike n' := by
  rcases same with rfl | ⟨outside, outside'⟩
  · -- Only the end of a start tag, and what fits nowhere, leave a choice.
    cases reads <;> cases reads' <;>
      first | exact .inl rfl | exact .inr ⟨rfl, rfl⟩ | exact absurd ‹_› Bool.false_ne_true
  · have no_tag : m.inStartTag = false ∧ m.inEndTag = false := by
      cases m with
      | content | embeddedContent => exact ⟨rfl, rfl⟩
      | _ => cases outside
    cases reads with
    | text | body | commentOpens | declarationOpens | startTagOpens | endTagOpens =>
      cases reads'
      exact .inl rfl
    | startTagBlank inside | startTagJunk inside | startTagEnds inside | startTagEndsBeforeBody inside
    | elementEnds inside => exact absurd (no_tag.1.symm.trans inside) Bool.false_ne_true
    | endTagBlank inside | endTagEnds inside => exact absurd (no_tag.2.symm.trans inside) Bool.false_ne_true
    | attributeOpens place => rcases place with rfl | rfl <;> cases outside
    | _ => cases outside

end Reads

end Mode

namespace Tokenizer

variable {s s' u u' : Tokenizer} {first : List Token} {token : Token}

/-- The first step of a passage. -/
theorem Passes.of_cons (h : s.Passes (token :: first) s') :
    s.ahead ≠ [] ∧ s.token = token ∧ s.rest.Passes first s' := by
  generalize same : token :: first = passed at h
  cases h with
  | here => cases same
  | step some_ahead further =>
    obtain ⟨rfl, rfl⟩ := List.cons.inj same
    exact ⟨some_ahead, rfl, further⟩

/-- A passage that does not lead to the end of the text does not start there. -/
theorem Passes.some_ahead (h : s.Passes first s') (some_behind : s'.ahead ≠ []) : s.ahead ≠ [] := by
  cases h with
  | here => exact some_behind
  | step some_ahead => exact some_ahead

/-- Two passages that hand out the same tokens start with the same one. -/
theorem Passes.token_eq (h : u.Passes first s) (h' : u'.Passes first s') (same : s.token = s'.token) :
    u.token = u'.token := by
  cases first with
  | nil =>
    cases h
    cases h'
    exact same
  | cons token first => exact h.of_cons.2.1.trans h'.of_cons.2.1.symm

/-- **Two passages over the same tokens** lead to alike modes. -/
theorem Passes.alike (h : u.Passes first s) (h' : u'.Passes first s') (same : u.mode.Alike u'.mode) :
    s.mode.Alike s'.mode := by
  -- On the first passage; each token that it hands out is the next one of the other passage.
  induction h generalizing u' with
  | here =>
    cases h'
    exact same
  | @step u s first some_ahead further ih =>
    obtain ⟨some_ahead', token, further'⟩ := h'.of_cons
    have reads' := reads some_ahead'
    rw [token] at reads'
    exact ih further' ((reads some_ahead).alike same reads')

end Tokenizer

/-- Between tags no token closes a tag. -/
theorem Tokenizer.not_closes_of_betweenTags {s : Tokenizer} (between : s.mode.betweenTags) :
    s.token.kind ≠ .startTagClose ∧ s.token.kind ≠ .endTagClose := by
  by_cases ended : s.ahead = []
  · rw [token_kind_eq_eof_iff.mpr ended]
    exact ⟨nofun, nofun⟩
  · have reads := reads ended
    generalize s.token.kind = kind, s.mode = m, s.rest.mode = m' at reads between
    cases reads with
    | startTagEnds inside | startTagEndsBeforeBody inside | endTagEnds inside =>
      cases m with
      | content | embeddedContent => cases inside
      | _ => cases between
    | _ => exact ⟨nofun, nofun⟩

namespace Cursor

variable {t : Text} {s s' : Tokenizer} {offset : Nat} {tag attributeName : Option Text}

/-- **Tokens that end before the cursor are passed over**, and the latest tag name among them is kept. -/
theorem find_of_passes_tag {passed : List Token} (passes : s.Passes passed s')
    (before : ∀ token ∈ passed, token.span.stop < offset) (tag attributeName : Option Text) :
    ∃ attributeName', find t offset tag attributeName s.trace =
      find t offset ((latestTag passed).or tag) attributeName' s'.trace := by
  refine passes.along (P := fun passed s' => (∀ token ∈ passed, token.span.stop < offset) →
    ∃ attributeName', find t offset tag attributeName s.trace =
      find t offset ((latestTag passed).or tag) attributeName' s'.trace) ?_ ?_ before
  · exact fun _ => ⟨attributeName, rfl⟩
  · intro passed s' _ some_ahead so_far before
    obtain ⟨attributeName', same⟩ := so_far fun token mem => before token (List.mem_append_left _ mem)
    have ends : s'.token.span.stop < offset := before _ (List.mem_append_right _ List.mem_cons_self)
    have starts : s'.token.span.start ≤ s'.token.span.stop := Tokenizer.position_le_rest
    rw [same, find_eq some_ahead (Nat.le_of_lt (Nat.lt_of_le_of_lt starts ends)), place?_eq_none ends,
      latestTag_concat]
    split_ifs <;> exact ⟨_, rfl⟩

/-- **If the token that the cursor is in makes no place**, there is none. -/
theorem place_find_of_place?_none (opened : s.Opened t) (starts : s.token.span.start < offset)
    (ends : offset ≤ s.token.span.stop)
    (made : place? t offset tag s.token s.rest s.rest.trace = none) (tag' attributeName' : Option Text) :
    (find t offset tag' attributeName' s.rest.trace).place = .elsewhere := by
  have some_ahead : s.ahead ≠ [] :=
    (Tokenizer.some_ahead_of_some_text (Nat.lt_of_lt_of_le starts ends)).1
  have touches : s.token.span.touches offset = true :=
    Span.touches_iff.mpr ⟨Nat.le_of_lt starts, ends⟩
  have behind (before : offset < s.rest.position) :
      (find t offset tag' attributeName' s.rest.trace).place = .elsewhere := place_find_of_behind before
  -- Only blanks behind the name of an end tag make no place, and tokens of one character that end behind
  -- the cursor.
  unfold place? at made
  cases kind : s.token.kind with rw [kind] at made
  | startTagOpen | delimiterAssign =>
    dsimp only at made
    split_ifs at made with stops
    exact behind (Nat.lt_of_le_of_ne ends (Ne.symm stops))
  | startTag | attributeName | attributeValue =>
    dsimp only at made
    rw [if_pos touches] at made
    cases made
  | whitespace =>
    have mode := Tokenizer.mode_rest_of_whitespace kind
    have reads := Tokenizer.reads some_ahead
    dsimp only at made
    rw [if_pos ends, blankPlace?, mode] at made
    rw [mode, kind] at reads
    cases own : s.mode with rw [own] at made reads
    | endTag =>
      rcases Nat.lt_or_eq_of_le ends with before | here
      · exact behind before
      · exact place_find_of_ended (mode.trans own) (Tokenizer.not_whitespace_behind kind) here.symm
    | doctype | comment | embeddedContent =>
      cases reads with
      | startTagBlank inside | endTagBlank inside => cases inside
    | _ => cases made
  | endTag =>
    obtain ⟨start, opens⟩ := opened.endTag (Tokenizer.mode_of_endTag kind)
    dsimp only at made
    rw [if_pos ends, Tokenizer.token_span, slashBefore?_eq opens] at made
    cases made
  | _ =>
    dsimp only at made
    rw [if_pos ends] at made
    cases made

/-- **The token that the cursor is in makes the place**, if there is one. -/
theorem find_of_touching {place : Place} (opened : s.Opened t) (starts : s.token.span.start < offset)
    (ends : offset ≤ s.token.span.stop) (found : (find t offset tag attributeName s.trace).place = place)
    (somewhere : place ≠ .elsewhere) : place? t offset tag s.token s.rest s.rest.trace = some place ∧
      find t offset tag attributeName s.trace = { place, tag, attributeName } := by
  have some_ahead : s.ahead ≠ [] :=
    (Tokenizer.some_ahead_of_some_text (Nat.lt_of_lt_of_le starts ends)).1
  rw [find_eq some_ahead (Nat.le_of_lt starts)] at found ⊢
  cases made : place? t offset tag s.token s.rest s.rest.trace with
  | some here =>
    rw [made] at found
    obtain rfl : here = place := found
    exact ⟨rfl, rfl⟩
  | none =>
    rw [made] at found
    have nowhere := place_find_of_place?_none opened starts ends made
    exact absurd (found.symm.trans (nowhere _ _)) somewhere

end Cursor

namespace Document

variable {v : Vocabulary} {t : Text} {id : NodeId} {offset : Nat} {token : Token}

/-- **Every offset but the first is in a token.** -/
theorem exists_token_at (behind : 0 < offset) (inside : offset ≤ t.byteLength) :
    ∃ token ∈ tokensOf v t, token.span.start < offset ∧ offset ≤ token.span.stop := by
  obtain ⟨span, mem, starts, ends⟩ :=
    (Tokenizer.tokens_tile (scanner_at v t)).exists_touching (by rw [scanner_eq]; exact behind) inside
  obtain ⟨token, in_document, rfl⟩ := List.mem_map.mp mem
  exact ⟨token, in_document, starts, ends⟩

/-- **The scan of completion comes to the token of the document that is at the cursor**, if no tag that is
interrupted ends between the start of the node and the cursor. -/
theorem exists_passes_within (mem : token ∈ tokensOf v t) (starts : token.span.start < offset)
    (ends : offset ≤ token.span.stop)
    (node : id = root ∨ (parse v t).IsElement id ∧ (parse v t).StartsBefore offset id)
    (smooth : UninterruptedWithin v t ((parse v t).node id).start offset) :
    ∃ passed first after s, tokensOf v t = passed ++ (first ++ token :: after) ∧
      (Tokenizer.start v t ((parse v t).node id).start).Passes first s ∧ s.token = token := by
  apply exists_passes_of_smooth mem starts ends node
  intro x x_mem before
  obtain ⟨position, passed, split, -⟩ := exists_tokens_split node
  have in_document : x ∈ tokensOf v t := by
    rw [split]
    exact List.mem_append_right _ x_mem
  obtain ⟨earlier, later, all⟩ := List.mem_iff_append.mp x_mem
  obtain ⟨s, passes, rfl, -⟩ := Tokenizer.passes_of_tokens_eq all
  have between : (scannerAt v t id).mode.betweenTags = true := by
    rw [show (scannerAt v t id).mode = .content from Tokenizer.mode_start v t _]
    rfl
  obtain ⟨not_start, not_end⟩ := Tokenizer.not_closes_of_betweenTags between
  cases passes with
  | here =>
    -- A scan starts in the content, where no tag is interrupted.
    exact fun interrupts => interrupts.1.elim not_start not_end
  | step some_ahead further =>
    refine smooth _ in_document ?_ before
    rw [← position]
    exact Nat.lt_of_lt_of_le (Tokenizer.position_lt_rest some_ahead not_start not_end) further.position_le

/-- The scan of completion and that of the document come to the token at the cursor over the same tokens, and
in alike modes. What only the document passes ends before the node before the cursor. -/
theorem exists_passes_both (mem : token ∈ tokensOf v t) (starts : token.span.start < offset)
    (ends : offset ≤ token.span.stop) (found : (parse v t).nodeBefore offset = some id)
    (smooth : UninterruptedWithin v t ((parse v t).node id).start offset) :
    ∃ passed first s s', (Tokenizer.start v t ((parse v t).node id).start).Passes first s ∧
      s.token = token ∧ (scanner v t).Passes (passed ++ first) s' ∧ s'.token = token ∧
      s.mode.Alike s'.mode ∧ ∀ x ∈ passed, x.span.stop ≤ ((parse v t).node id).start := by
  have node := of_nodeBefore found
  obtain ⟨passed, first, after, s, split, plain, rfl⟩ := exists_passes_within mem starts ends node smooth
  obtain ⟨position, -⟩ := exists_tokens_split node
  have own : (Tokenizer.start v t ((parse v t).node id).start).position =
    ((parse v t).node id).start := position
  obtain ⟨hd, tl, cons⟩ := List.exists_cons_of_ne_nil
    (List.append_ne_nil_of_right_ne_nil first (List.cons_ne_nil s.token after))
  rw [cons] at split
  obtain ⟨s₀, before, -, tokens⟩ := Tokenizer.passes_of_tokens_eq (s := scanner v t) split
  rw [← cons] at tokens
  obtain ⟨s', further, same, -⟩ := Tokenizer.passes_of_tokens_eq tokens
  have token_eq := plain.token_eq further same.symm
  have some_ahead := (Tokenizer.some_ahead_of_some_text (Nat.lt_of_lt_of_le starts ends)).1
  have some_ahead' : s'.ahead ≠ [] := by
    rw [Ne, ← Tokenizer.token_kind_eq_eof_iff, same, Tokenizer.token_kind_eq_eof_iff]
    exact some_ahead
  refine ⟨passed, first, s, s', plain, rfl, before.trans further, same, plain.alike further ?_, ?_⟩
  · -- Both start between tags, since they start with a token of the content.
    have reads := Tokenizer.reads (plain.some_ahead some_ahead)
    have reads' := Tokenizer.reads (further.some_ahead some_ahead')
    rw [Tokenizer.mode_start] at reads ⊢
    rw [← token_eq] at reads'
    exact .inr ⟨rfl, reads.betweenTags_of_content reads'⟩
  · intro x mem
    have start : s₀.position = ((parse v t).node id).start :=
      (congrArg (·.span.start) token_eq).symm.trans own
    exact start ▸ (before.bounds mem).2

/-- **Where completion is in a token, the document is in the same one**, if no tag that is interrupted ends
between the start of the node before the cursor and the cursor. -/
theorem exists_passes_same {first : List Token} {s : Tokenizer}
    (scan : (Tokenizer.start v t ((parse v t).node id).start).Passes first s)
    (starts : s.token.span.start < offset) (ends : offset ≤ s.token.span.stop)
    (found : (parse v t).nodeBefore offset = some id)
    (smooth : UninterruptedWithin v t ((parse v t).node id).start offset) :
    ∃ passed s', (scanner v t).Passes passed s' ∧ s'.token = s.token := by
  have inside : offset ≤ t.byteLength := ((preordered_parse v t).nodeBefore_eq_some_iff.mp found).1
  obtain ⟨token, mem, own_starts, own_ends⟩ := exists_token_at (Nat.zero_lt_of_lt starts) inside
  obtain ⟨passed, first', u, s', passes, rfl, all, same, -⟩ :=
    exists_passes_both mem own_starts own_ends found smooth
  -- Both are tokens that completion cuts the text into, and the offset is in both.
  have ordered := (Tokenizer.completeScan (Tokenizer.at_start v t ((parse v t).node id).start)).tiles.pairwise
  refine ⟨passed ++ first', s', all, same.trans (Eq.symm ?_)⟩
  exact Token.eq_of_touching (List.pairwise_map.mp ordered) scan.token_mem passes.token_mem starts ends
    own_starts own_ends

/-- The latest tag name of two lists is that of the second one, or else that of the first one. -/
theorem latestTag_append (tokens more : List Token) :
    latestTag (tokens ++ more) = (latestTag more).or (latestTag tokens) := by
  induction more using List.reverseRecOn with
  | nil => rw [List.append_nil]; rfl
  | append_singleton more token ih =>
    rw [← List.append_assoc, latestTag_concat, latestTag_concat, ih]
    split_ifs <;> rfl

/-- The latest tag name is that of one of the tokens. -/
theorem exists_of_latestTag {tokens : List Token} {name : Text} (latest : latestTag tokens = some name) :
    ∃ x ∈ tokens, x.kind = .startTag := by
  obtain ⟨x, first, -⟩ := Option.map_eq_some_iff.mp latest
  exact ⟨x, List.mem_reverse.mp (List.mem_of_find?_eq_some first), by simpa using List.find?_some first⟩

/-- A start tag among the tokens gives a latest name. -/
theorem latestTag_ne_none {tokens : List Token} {x : Token} (mem : x ∈ tokens) (kind : x.kind = .startTag) :
    latestTag tokens ≠ none := by
  intro none_there
  have := List.find?_eq_none.mp (Option.map_eq_none_iff.mp none_there) x (List.mem_reverse.mpr mem)
  simp [kind] at this

/-- **The latest tag name** in a start tag is that of its element. -/
theorem latestTag_of_readsStartTag {passed first : List Token} {s : Tokenizer} {tag : Text}
    (h : ReadsStartTag v t id (passed ++ first) s)
    (apart : ∀ x ∈ passed, x.span.stop ≤ ((parse v t).node id).start)
    (named : ((built v t (passed ++ first)).node id).tag = some tag) : latestTag first = some tag := by
  obtain ⟨before, opening, more, split, kind, opens, all, own⟩ :=
    exists_tokens_of_reading h.passes h.reading
  have latest : latestTag more = some tag := own.symm.trans named
  -- The name stands behind the `<`, so it is not passed before it.
  obtain ⟨x, mem, name⟩ := exists_of_latestTag latest
  have tokens : tokensOf v t = (before ++ opening :: more) ++ s.tokens := split ▸ h.passes.tokens_eq
  have ordered := tokensOf_pairwise v t
  rw [tokens, List.append_assoc] at ordered
  have behind := (List.pairwise_cons.mp (List.pairwise_append.mp ordered).2.1).1 x
    (List.mem_append_left _ mem)
  have in_document {y : Token} (mem : y ∈ before ++ opening :: more) : y ∈ tokensOf v t := by
    rw [tokens]
    exact List.mem_append_left _ mem
  have own_mem : x ∈ before ++ opening :: more := by simp [mem]
  have some_text := (span_of_mem_tokensOf (in_document own_mem)).2 (.inl name)
  have forwards := (span_of_mem_tokensOf (in_document (List.mem_append_right _ List.mem_cons_self))).1
  rw [← split] at own_mem
  have in_first : x ∈ first := by
    apply (List.mem_append.mp own_mem).resolve_left
    intro earlier
    have := apart x earlier
    omega
  -- So it is the latest one of those that both scans pass.
  obtain ⟨own_tag, here⟩ := Option.ne_none_iff_exists'.mp (latestTag_ne_none in_first name)
  have whole := congrArg latestTag split
  rw [latestTag_append, here, List.append_cons, latestTag_append, latest] at whole
  rw [here]
  exact whole

end Document

end MarkupAnalysis
