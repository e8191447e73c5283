import MarkupAnalysis.Proofs.Document.Frame
import MarkupAnalysis.Proofs.Document.Nesting
import MarkupAnalysis.Proofs.Token.Tiling

/-! # Recovery at end tags

An end tag closes the innermost open element that answers to its name and cuts off the elements inside
it; an end tag to which none answers changes nothing. The tree remembers which end tag has closed an
element, and nothing else looks like it.

* **`EndTagIn`** — the name of an end tag among the tokens of a text.
* **`EndTagIn.eq_of_start_eq`**, **`eq_of_span_eq`** — no two of them are alike.
* **`Document.EndTagCloses`**, **`Document.EndTagStrays`** — what an end tag does.
* **`parse_recovers`** — it does so in every text. -/

namespace MarkupAnalysis

open Document

/-! ## End tags among the tokens -/

/-- Before the name of an end tag: its `</`, which stands at `start`, and blanks. -/
def EndTagOpened (passed : List Token) (start : Nat) : Prop :=
  ∃ earlier opening blanks, passed = earlier ++ opening :: blanks ∧ opening.kind = .endTagOpen ∧
    opening.text = "</".toList ∧ opening.span.start = start ∧
    ∀ blank ∈ blanks, blank.kind = .whitespace

/-- **The name of an end tag** among tokens: those before it, the offset of its `</`, and the name. -/
structure EndTagIn (tokens before : List Token) (start : Nat) (token : Token) : Prop where
  /-- The name comes after the tokens before it. -/
  next : before ++ [token] <+: tokens
  /-- It is the name of an end tag. -/
  name : token.kind = .endTag
  /-- The `</` comes before it. -/
  opened : EndTagOpened before start

/-- The `</` is the last token that is not blank. -/
theorem EndTagOpened.unique {passed : List Token} {start start' : Nat} (h : EndTagOpened passed start)
    (h' : EndTagOpened passed start') : start = start' := by
  have last {start : Nat} (h : EndTagOpened passed start) : ∃ opening,
      passed.reverse.find? (·.kind != .whitespace) = some opening ∧ opening.span.start = start := by
    obtain ⟨earlier, opening, blanks, rfl, kind, -, here, blank⟩ := h
    refine ⟨opening, ?_, here⟩
    rw [List.reverse_append, List.reverse_cons, List.append_assoc, List.find?_append]
    have none_later : blanks.reverse.find? (·.kind != .whitespace) = none := by
      refine List.find?_eq_none.mpr fun x mem => ?_
      simp [blank x (List.mem_reverse.mp mem)]
    simp [none_later, kind]
  obtain ⟨opening, found, rfl⟩ := last h
  obtain ⟨opening', found', rfl⟩ := last h'
  rw [Option.some.inj (found.symm.trans found')]

section order

variable {v : Vocabulary} {t : Text} {before before' : List Token} {start start' : Nat}
  {token token' : Token}

/-- Tokens of a text come one after the other. -/
theorem tokensOf_pairwise (v : Vocabulary) (t : Text) :
    (tokensOf v t).Pairwise fun a b => a.span.stop ≤ b.span.start :=
  List.pairwise_map.mp (Tokenizer.completeScan (scanner_at v t)).tiles.pairwise

/-- No token runs backwards, and the names of tags have characters. -/
theorem span_of_mem_tokensOf (mem : token ∈ tokensOf v t) :
    token.span.start ≤ token.span.stop ∧
      (token.kind = .startTag ∨ token.kind = .endTag → token.span.start < token.span.stop) := by
  obtain ⟨s, -, rfl⟩ := Tokenizer.exists_at_of_mem_tokens (scanner_at v t) mem
  refine ⟨Tokenizer.position_le_rest, fun kind => ?_⟩
  have some_ahead : s.ahead ≠ [] := by
    rcases kind with kind | kind <;> exact Tokenizer.ahead_ne_nil kind (by decide)
  refine Tokenizer.position_lt_rest some_ahead ?_ ?_ <;> rcases kind with kind | kind <;> simp [kind]

/-- Of two tokens the later one starts behind the earlier one. -/
theorem stop_le_start_of_length_lt (next : before ++ [token] <+: tokensOf v t)
    (next' : before' ++ [token'] <+: tokensOf v t) (earlier : before.length < before'.length) :
    token.span.stop ≤ token'.span.start := by
  have inside : before ++ [token] <+: before' :=
    List.prefix_of_prefix_length_le next ((List.prefix_append _ _).trans next') (by simpa)
  have order := (tokensOf_pairwise v t).sublist next'.sublist
  exact (List.pairwise_append.mp order).2.2 token (inside.subset (by simp)) token' (by simp)

/-- Tokens with as many tokens before them are the same. -/
theorem eq_of_length_eq (next : before ++ [token] <+: tokensOf v t)
    (next' : before' ++ [token'] <+: tokensOf v t) (same : before.length = before'.length) :
    before = before' ∧ token = token' := by
  have aligned : before ++ [token] = before' ++ [token'] :=
    (List.prefix_of_prefix_length_le next next' (by simp [same])).eq_of_length (by simp [same])
  obtain ⟨rfl, last⟩ := List.append_inj aligned same
  exact ⟨rfl, (List.cons.inj last).1⟩

/-- **No two tokens with characters stand in the same place.** -/
theorem eq_of_span_eq (next : before ++ [token] <+: tokensOf v t)
    (next' : before' ++ [token'] <+: tokensOf v t) (same : token.span = token'.span)
    (some_text : token.span.start < token.span.stop) : before = before' ∧ token = token' := by
  rcases Nat.lt_trichotomy before.length before'.length with lt | eq | gt
  · have apart := stop_le_start_of_length_lt next next' lt
    rw [← same] at apart
    omega
  · exact eq_of_length_eq next next' eq
  · have apart := stop_le_start_of_length_lt next' next gt
    rw [← same] at apart
    omega

/-- Two tokens stand in the same place or one after the other. -/
theorem span_eq_or_apart (mem : token ∈ tokensOf v t) (mem' : token' ∈ tokensOf v t) :
    token.span = token'.span ∨ token.span.stop ≤ token'.span.start ∨
      token'.span.stop ≤ token.span.start :=
  (eq_or_rel_of_pairwise (tokensOf_pairwise v t) mem mem').imp_left (congrArg Token.span)

namespace EndTagIn

theorem mono {tokens tokens' : List Token} (h : EndTagIn tokens before start token)
    (longer : tokens <+: tokens') : EndTagIn tokens' before start token :=
  ⟨h.next.trans longer, h.name, h.opened⟩

/-- The `</` stands before the name, and the name is not empty. -/
theorem start_le (h : EndTagIn (tokensOf v t) before start token) :
    start ≤ token.span.start ∧ token.span.start < token.span.stop := by
  obtain ⟨earlier, opening, blanks, rfl, -, -, rfl, -⟩ := h.opened
  have order := (tokensOf_pairwise v t).sublist h.next.sublist
  have opening_mem : opening ∈ earlier ++ opening :: blanks := by simp
  have apart := (List.pairwise_append.mp order).2.2 opening opening_mem token (by simp)
  have forward := (span_of_mem_tokensOf (v := v) (t := t)
    (h.next.subset (List.mem_append_left _ opening_mem))).1
  exact ⟨Nat.le_trans forward apart,
    (span_of_mem_tokensOf (v := v) (t := t) (h.next.subset (by simp))).2 (.inr h.name)⟩

/-- Of two end tags the later one starts behind the earlier one. -/
theorem start_lt_of_length_lt (h : EndTagIn (tokensOf v t) before start token)
    (h' : EndTagIn (tokensOf v t) before' start' token') (earlier : before.length < before'.length) :
    start < start' := by
  obtain ⟨first, nonempty⟩ := h.start_le
  -- The earlier name is among the tokens before the later one.
  have inside : before ++ [token] <+: before' :=
    List.prefix_of_prefix_length_le h.next ((List.prefix_append _ _).trans h'.next) (by simpa)
  have mem : token ∈ before' := inside.subset (by simp)
  obtain ⟨front, opening, blanks, rfl, kind, -, rfl, blank⟩ := h'.opened
  -- The earlier name is neither the later `</` nor a blank after it.
  have in_front : token ∈ front := by
    rcases List.mem_append.mp mem with here | behind
    · exact here
    · rcases List.mem_cons.mp behind with rfl | late
      · simp [h.name] at kind
      · exact absurd (blank token late) (by simp [h.name])
  have order := (tokensOf_pairwise v t).sublist ((List.prefix_append _ _).trans h'.next).sublist
  have apart := (List.pairwise_append.mp order).2.2 token in_front opening (by simp)
  omega

/-- **No two end tags start at the same place.** -/
theorem eq_of_start_eq (h : EndTagIn (tokensOf v t) before start token)
    (h' : EndTagIn (tokensOf v t) before' start' token') (same : start = start') :
    before = before' ∧ token = token' := by
  rcases Nat.lt_trichotomy before.length before'.length with lt | eq | gt
  · exact absurd same (Nat.ne_of_lt (h.start_lt_of_length_lt h' lt))
  · exact eq_of_length_eq h.next h'.next eq
  · exact absurd same (Nat.ne_of_gt (h'.start_lt_of_length_lt h gt))

end EndTagIn

end order

/-! ## The builder at end tags -/

section builder

variable {v : Vocabulary} {t : Text}

/-- One more token. -/
theorem Document.built_concat (passed : List Token) (token : Token) :
    built v t (passed ++ [token]) = (built v t passed).take v t.byteLength token := by
  rw [built, List.foldl_append]
  rfl

/-- The end of the text changes no node. -/
theorem Document.node_built_of_ended {s : Tokenizer} {passed : List Token}
    (h : (scanner v t).Passes passed s) (ended : s.ahead = []) :
    (built v t (tokensOf v t)).node = (built v t passed).node := by
  have tokens : tokensOf v t = passed ++ [s.token] := by
    rw [← Tokenizer.tokens_of_ahead_eq_nil ended]
    exact h.tokens_eq
  rw [tokens, built_concat, Builder.take, Tokenizer.token_kind_eq_eof_iff.mpr ended]
  exact Builder.node_congr (Builder.nodes_endComment _ _)

/-- Up to the name of an end tag the builder remembers the `</`. -/
theorem exists_endTagOpened {s : Tokenizer} {passed : List Token} (h : (scanner v t).Passes passed s)
    (mode : s.mode = .endTagOpened) :
    ∃ start, EndTagOpened passed start ∧ (built v t passed).endTagStart = some start := by
  refine h.along (P := fun passed s => s.mode = .endTagOpened →
    ∃ start, EndTagOpened passed start ∧ (built v t passed).endTagStart = some start) ?_ ?_ mode
  · rw [scanner_eq]
    intro mode
    cases mode
  · intro passed s _ some_ahead so_far mode
    have reads := Tokenizer.reads some_ahead
    rw [mode] at reads
    generalize before : s.mode = m, kind : s.token.kind = k at reads
    rw [built_concat, Builder.take, kind]
    -- The mode is entered by `</` and kept by blanks.
    cases reads with
    | endTagOpens =>
      exact ⟨s.token.span.start, ⟨passed, s.token, [], rfl, kind, Tokenizer.text_of_endTagOpen kind,
        rfl, by simp⟩, rfl⟩
    | startTagBlank inside => simp [Mode.inStartTag] at inside
    | endTagBlank =>
      obtain ⟨start, ⟨earlier, opening, blanks, rfl, opens, text, here, blank⟩, remembered⟩ :=
        so_far before
      refine ⟨start, ⟨earlier, opening, blanks ++ [s.token], by simp, opens, text, here, ?_⟩,
        remembered⟩
      intro x mem
      rcases List.mem_append.mp mem with known | last
      · exact blank x known
      · rw [List.mem_singleton.mp last]
        exact kind

/-- **The builder at the name of an end tag**: no start tag is being read, no element has been closed by
the end tag yet, and everything settled lies before the `</`. -/
structure AtEndTag (length start : Nat) (b : Builder) : Prop where
  startTag : b.startTag = none
  ended : b.ended = none
  endTagStart : b.endTagStart = some start
  nested : b.Nested length start

/-- Every name of an end tag has its `</`, and the builder is at it. -/
theorem exists_atEndTag {before : List Token} {token : Token}
    (next : before ++ [token] <+: tokensOf v t) (name : token.kind = .endTag) :
    ∃ start, EndTagOpened before start ∧ AtEndTag t.byteLength start (built v t before) := by
  obtain ⟨after, all⟩ := next
  rw [List.append_assoc] at all
  obtain ⟨s, passes, rfl, -⟩ := Tokenizer.passes_of_tokens_eq all.symm
  have mode := Tokenizer.mode_of_endTag name
  obtain ⟨start, opened, remembered⟩ := exists_endTagOpened passes mode
  have stands := stands_built passes
  rw [mode] at stands
  obtain ⟨none_read, none_ended, start', opening, -, nested⟩ := stands
  obtain rfl : start' = start := Option.some.inj (opening.symm.trans remembered)
  exact ⟨start', opened, none_read, none_ended, opening, nested⟩

/-- The builder at an end tag. -/
theorem EndTagIn.atEndTag {before : List Token} {start : Nat} {token : Token}
    (h : EndTagIn (tokensOf v t) before start token) :
    AtEndTag t.byteLength start (built v t before) := by
  obtain ⟨start', opened, here⟩ := exists_atEndTag h.next h.name
  rwa [h.opened.unique opened]

/-- After an end tag to which no element has answered, the rest of it changes nothing. -/
theorem foldl_take_of_not_ended {b : Builder} (not_ended : b.ended = none) {length : Nat}
    {more : List Token}
    (rest : ∀ x ∈ more, x.kind = .whitespace ∨ x.kind = .unknown ∨ x.kind = .endTagClose) :
    more.foldl (Builder.take v length) b = b := by
  induction more with
  | nil => rfl
  | cons x more ih =>
    have first : b.take v length x = b := by
      rw [Builder.take]
      rcases rest x List.mem_cons_self with kind | kind | kind <;> rw [kind]
      rw [Builder.closeEndTag, not_ended]
    rw [List.foldl_cons, first]
    exact ih fun y mem => rest y (List.mem_cons_of_mem _ mem)

/-! ## The elements that end tags close -/

/-- Every end tag of an element is among the tokens so far, and it closed the element. -/
theorem exists_endTagIn_of_passes {s : Tokenizer} {passed : List Token}
    (h : (scanner v t).Passes passed s) {id : NodeId} {e : EndTag}
    (closed : ((built v t passed).node id).endTag = some e) :
    ∃ before start token inner outer, EndTagIn passed before start token ∧ e = ⟨start, token.span⟩ ∧
      (built v t before).Closes v token inner id outer := by
  refine h.along (P := fun passed _ => ((built v t passed).node id).endTag = some e →
    ∃ before start token inner outer, EndTagIn passed before start token ∧
      e = ⟨start, token.span⟩ ∧ (built v t before).Closes v token inner id outer) ?_ ?_ closed
  · intro closed
    have none_closed : ((blank t).node id).endTag = none := by
      cases id <;> rfl
    simp [built, none_closed] at closed
  · intro passed s passes _ so_far closed
    rw [built_concat] at closed
    -- The element has the end tag from before, or the token gives it.
    rcases Builder.endTag_take v t.byteLength s.token id with
      kept | ⟨name, start, inner, outer, opening, closes, given⟩
    · obtain ⟨before, start, token, inner, outer, known, rest⟩ := so_far (kept.symm.trans closed)
      exact ⟨before, start, token, inner, outer, known.mono (List.prefix_append _ _), rest⟩
    · obtain ⟨start', opened, remembered⟩ := exists_endTagOpened passes (Tokenizer.mode_of_endTag name)
      obtain rfl : start' = start := Option.some.inj (remembered.symm.trans opening)
      exact ⟨passed, start', s.token, inner, outer, ⟨List.prefix_rfl, name, opened⟩,
        Option.some.inj (closed.symm.trans given), closes⟩

/-- **Every end tag of an element of the tree is one of the text**, and it closed the element. -/
theorem exists_endTagIn {id : NodeId} {e : EndTag} (closed : ((parse v t).node id).endTag = some e) :
    ∃ before start token inner outer, EndTagIn (tokensOf v t) before start token ∧
      e = ⟨start, token.span⟩ ∧ (built v t before).Closes v token inner id outer := by
  obtain ⟨passed, s, passes, -, all, last⟩ := exists_built v t
  have kept : ((parse v t).node id).endTag = ((built v t passed).node id).endTag := by
    have final : ((parse v t).node id).endTag = ((built v t (tokensOf v t)).node id).endTag :=
      Builder.endTag_cutOff _ _ id
    rw [final, last, Builder.node_congr (Builder.nodes_endComment _ _)]
  obtain ⟨before, start, token, inner, outer, known, rest⟩ :=
    exists_endTagIn_of_passes passes (kept.symm.trans closed)
  exact ⟨before, start, token, inner, outer, known.mono (all ▸ List.prefix_append _ _), rest⟩

/-- An element that has been left is in the tree what the builder has made of it. -/
theorem node_parse {id : NodeId} (past : (built v t (tokensOf v t)).Past id) :
    (parse v t).node id = (built v t (tokensOf v t)).node id :=
  Builder.node_cutOff_of_not_mem (fun mem => past.left (.inl mem)) t.byteLength

/-- Later tokens do not reach an element that has been left. -/
theorem rests_built {passed : List Token} {id : NodeId} (next : passed <+: tokensOf v t)
    (past : (built v t passed).Past id) :
    (built v t passed).Rests (built v t (tokensOf v t)) id := by
  obtain ⟨after, all⟩ := next
  rw [← all, built, built, List.foldl_append]
  exact Builder.rests_foldl past v t.byteLength after

/-- **What an end tag does to the element that it closes**, and to the other elements. -/
structure Document.EndTagCloses (v : Vocabulary) (t : Text) (before : List Token) (start : Nat)
    (token : Token) (inner : List NodeId) (id : NodeId) (outer : List NodeId) : Prop where
  /-- It closes the innermost open element that answers to its name. -/
  closes : (built v t before).Closes v token inner id outer
  /-- This element gets the end tag, and it is closed. -/
  own : (built v t (before ++ [token])).node id =
    Builder.closeWith start token.span ((built v t before).node id)
  /-- The open elements inside it end where the end tag starts. They are not closed. -/
  cut_off : ∀ i ∈ inner, ((built v t before).node i).closed = false ∧
    (built v t (before ++ [token])).node i = { (built v t before).node i with stop := start }
  /-- No other element changes. -/
  others : ∀ j, j ≠ id → j ∉ inner →
    (built v t (before ++ [token])).node j = (built v t before).node j
  /-- The elements outside stay open. -/
  still_open : (built v t (before ++ [token])).openElements = outer
  /-- In the tree the element has this end tag. -/
  paired : ((parse v t).node id).endTagStart = some start ∧
    ((parse v t).node id).endNameSpan = some token.span ∧ ((parse v t).node id).closed = true
  /-- In the tree the elements inside it are not closed, and they end where the end tag starts. -/
  unclosed : ∀ i ∈ inner, ((parse v t).node i).stop = start ∧ ((parse v t).node i).closed = false ∧
    ((parse v t).node i).endTag = none
  /-- In the tree no other element has this end tag. -/
  only : ∀ j, ((parse v t).node j).endTagStart = some start ∨
    ((parse v t).node j).endNameSpan = some token.span → j = id

/-- **What an end tag does when no open element answers to its name**: nothing. -/
structure Document.EndTagStrays (v : Vocabulary) (t : Text) (before : List Token) (start : Nat)
    (token : Token) : Prop where
  /-- Up to the end of the end tag, no element changes, and the same elements are open. -/
  keeps : ∀ more, before ++ token :: more <+: tokensOf v t →
    (∀ x ∈ more, x.kind = .whitespace ∨ x.kind = .unknown ∨ x.kind = .endTagClose) →
    (built v t (before ++ token :: more)).nodes = (built v t before).nodes ∧
      (built v t (before ++ token :: more)).openElements = (built v t before).openElements
  /-- In the tree no element has this end tag. -/
  only : ∀ j, ((parse v t).node j).endTagStart ≠ some start ∧
    ((parse v t).node j).endNameSpan ≠ some token.span

namespace EndTagIn

variable {before : List Token} {start : Nat} {token : Token}

/-- An element with this end tag was the one that it closed. -/
theorem exists_closes (h : EndTagIn (tokensOf v t) before start token) {id : NodeId}
    (has : ((parse v t).node id).endTagStart = some start ∨
      ((parse v t).node id).endNameSpan = some token.span) :
    ∃ inner outer, (built v t before).Closes v token inner id outer := by
  have closed : ∃ e, ((parse v t).node id).endTag = some e ∧
      (e.start = start ∨ e.nameSpan = token.span) := by
    unfold Node.endTagStart Node.endNameSpan at has
    cases tag : ((parse v t).node id).endTag with
    | none => simp [tag] at has
    | some e => exact ⟨e, rfl, by simpa [tag] using has⟩
  obtain ⟨e, tag, same⟩ := closed
  obtain ⟨before', start', token', inner, outer, h', rfl, closes⟩ := exists_endTagIn tag
  obtain ⟨rfl, rfl⟩ : before = before' ∧ token = token' := by
    rcases same with same_start | same_span
    · exact h.eq_of_start_eq h' same_start.symm
    · exact eq_of_span_eq h.next h'.next same_span.symm h.start_le.2
  exact ⟨inner, outer, closes⟩

section closes

variable {inner outer : List NodeId} {id : NodeId}

/-- What the name of an end tag makes of the builder. -/
theorem built_of_closes (h : EndTagIn (tokensOf v t) before start token)
    (closes : (built v t before).Closes v token inner id outer) :
    built v t (before ++ [token]) =
      { ((built v t before).cutOff inner start).modify id (Builder.closeWith start token.span) with
        openElements := outer, ended := some id } := by
  rw [built_concat, Builder.take, h.name]
  exact Builder.endElement_of_closes h.atEndTag.endTagStart closes

/-- The elements that an end tag takes off the stack have been left. -/
theorem past_of_closes (h : EndTagIn (tokensOf v t) before start token)
    (closes : (built v t before).Closes v token inner id outer) {j : NodeId}
    (here : j ∈ inner ∨ j = id) : (built v t (before ++ [token])).Past j := by
  obtain ⟨none_read, -, -, nested⟩ := h.atEndTag
  have was_open : j ∈ (built v t before).openElements := by
    rw [closes.split]
    rcases here with mem | rfl
    · exact List.mem_append_left _ mem
    · exact List.mem_append_right _ List.mem_cons_self
  rw [h.built_of_closes closes]
  refine ⟨?_, nested.ne_root was_open, ?_⟩
  · exact (nested.lt_size was_open).trans_eq
      ((Builder.size_modify _ _).trans (Builder.size_cutOff _ _)).symm
  · rintro (mem | reading)
    · exact (nested.split_apart closes.split).2 j here mem
    · have reading_before : (built v t before).startTag = some j :=
        (Builder.startTag_cutOff inner start).symm.trans reading
      simp [none_read] at reading_before

/-- **An end tag closes the innermost open element that answers to its name.** -/
theorem endTagCloses (h : EndTagIn (tokensOf v t) before start token)
    (closes : (built v t before).Closes v token inner id outer) :
    EndTagCloses v t before start token inner id outer := by
  have nested := h.atEndTag.nested
  have taken := h.built_of_closes closes
  have nodes : (built v t (before ++ [token])).nodes = (((built v t before).cutOff inner start).modify
      id (Builder.closeWith start token.span)).nodes := by rw [taken]
  have node' := nested.node_endElement closes.split nodes
  have apart : id ∉ inner := (nested.split_apart closes.split).1
  have unclosed : ∀ i ∈ inner, ((built v t before).node i).endTag = none ∧
      ((built v t before).node i).closed = false := fun i mem =>
    nested.unclosed i (by simp [closes.split, mem])
  have own : (built v t (before ++ [token])).node id =
      Builder.closeWith start token.span ((built v t before).node id) := by
    rw [node', if_pos rfl]
  have inner_node : ∀ i ∈ inner, (built v t (before ++ [token])).node i =
      Builder.cut start ((built v t before).node i) := by
    intro i mem
    rw [node', if_neg fun same : i = id => apart (same ▸ mem), if_pos mem]
  refine ⟨closes, own, ?cut_off, ?others, by rw [taken], ?paired, ?unclosed, ?only⟩
  case cut_off =>
    intro i mem
    have still_open := (unclosed i mem).2
    refine ⟨still_open, ?_⟩
    rw [inner_node i mem, Builder.cut, ← still_open]
  case others =>
    intro j other outside
    rw [node', if_neg other, if_neg outside]
  case paired =>
    -- Only the end of the element may still move, at the bracket of the end tag.
    have rests := rests_built h.next (h.past_of_closes closes (.inr rfl))
    obtain ⟨stop, kept⟩ := rests.node
    rw [node_parse rests.past, kept, own]
    exact ⟨rfl, rfl, rfl⟩
  case unclosed =>
    intro i mem
    have rests := rests_built h.next (h.past_of_closes closes (.inl mem))
    have other : (built v t (before ++ [token])).ended ≠ some i := by
      rw [taken]
      exact fun same => apart (Option.some.inj same ▸ mem)
    rw [node_parse rests.past, (rests.still other).2, inner_node i mem]
    exact ⟨rfl, rfl, (unclosed i mem).1⟩
  case only =>
    intro j has
    obtain ⟨inner', outer', closes'⟩ := h.exists_closes has
    exact closes'.unique closes

end closes

/-- **An end tag to whose name no open element answers changes nothing.** -/
theorem endTagStrays (h : EndTagIn (tokensOf v t) before start token)
    (stray : ∀ i ∈ (built v t before).openElements, ¬ (built v t before).Answers v token i) :
    EndTagStrays v t before start token := by
  have taken : built v t (before ++ [token]) = built v t before := by
    rw [built_concat, Builder.take, h.name]
    exact Builder.endElement_of_stray stray
  refine ⟨?keeps, ?only⟩
  case keeps =>
    intro more _ rest
    have same : built v t (before ++ token :: more) = built v t before := by
      rw [List.append_cons, built, List.foldl_append]
      show more.foldl _ (built v t (before ++ [token])) = _
      rw [taken]
      exact foldl_take_of_not_ended h.atEndTag.ended rest
    rw [same]
    exact ⟨rfl, rfl⟩
  case only =>
    intro j
    rw [← not_or]
    intro has
    obtain ⟨inner, outer, closes⟩ := h.exists_closes has
    exact stray j (closes.split ▸ by simp) closes.answers

end EndTagIn

/-- **Recovery at end tags**, in the text and in its tree. -/
structure Document.Recovery (v : Vocabulary) (t : Text) : Prop where
  /-- The name of every end tag comes after its `</`. -/
  opened : ∀ before token, before ++ [token] <+: tokensOf v t → token.kind = .endTag →
    ∃ start, EndTagIn (tokensOf v t) before start token
  /-- If open elements answer to the name, the end tag closes the innermost one. -/
  closes : ∀ before start token, EndTagIn (tokensOf v t) before start token →
    (∃ i ∈ (built v t before).openElements, (built v t before).Answers v token i) →
    ∃ inner id outer, EndTagCloses v t before start token inner id outer
  /-- If none does, the end tag changes nothing. -/
  strays : ∀ before start token, EndTagIn (tokensOf v t) before start token →
    (∀ i ∈ (built v t before).openElements, ¬ (built v t before).Answers v token i) →
    EndTagStrays v t before start token
  /-- Every end tag in the tree is that of exactly one end tag of the text, which closed the element. -/
  paired : ∀ id span, ((parse v t).node id).endNameSpan = some span →
    ∃ before start token inner outer, EndTagIn (tokensOf v t) before start token ∧
      token.span = span ∧ EndTagCloses v t before start token inner id outer ∧
      ∀ before' token', before' ++ [token'] <+: tokensOf v t → token'.kind = .endTag →
        token'.span = span → before' = before
  /-- What is open at the end of the text is not closed and ends there. -/
  unclosed : ∀ id ∈ (built v t (tokensOf v t)).openElements,
    ((parse v t).node id).closed = false ∧ ((parse v t).node id).stop = t.byteLength

end builder

/-- **Every text recovers at its end tags.** -/
theorem parse_recovers (v : Vocabulary) (t : Text) : Document.Recovery v t := by
  have opened (before : List Token) (token : Token) (next : before ++ [token] <+: tokensOf v t)
      (name : token.kind = .endTag) : ∃ start, EndTagIn (tokensOf v t) before start token := by
    obtain ⟨start, opened, -⟩ := exists_atEndTag next name
    exact ⟨start, next, name, opened⟩
  refine ⟨opened, ?closes, fun _ _ _ h => h.endTagStrays, ?paired, ?unclosed⟩
  case closes =>
    intro before start token h some_answers
    obtain ⟨inner, id, outer, closes⟩ := Builder.exists_closes some_answers
    exact ⟨inner, id, outer, h.endTagCloses closes⟩
  case paired =>
    intro id span has
    obtain ⟨e, tag, rfl⟩ := Option.map_eq_some_iff.mp has
    obtain ⟨before, start, token, inner, outer, h, rfl, closes⟩ := exists_endTagIn tag
    refine ⟨before, start, token, inner, outer, h, rfl, h.endTagCloses closes, ?_⟩
    intro before' token' next name same
    obtain ⟨start', h'⟩ := opened before' token' next name
    exact (eq_of_span_eq h'.next h.next same h'.start_le.2).1
  case unclosed =>
    intro id mem
    obtain ⟨frontier, -, nested⟩ := exists_nested_built v t
    have cut : (parse v t).node id =
        Builder.cut t.byteLength ((built v t (tokensOf v t)).node id) :=
      (Builder.node_cutOff (fun _ => nested.lt_size) t.byteLength id).trans (if_pos mem)
    rw [cut]
    exact ⟨rfl, rfl⟩

end MarkupAnalysis
