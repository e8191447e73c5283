import MarkupAnalysis.Proofs.Document.Comments
import MarkupAnalysis.Proofs.Document.Marks
import MarkupAnalysis.Proofs.Document.Moving
import MarkupAnalysis.Proofs.Token.Names

/-! # Texts that go on

What is finished in a text stays as it is when the text goes on: elements keep their places and their
records, and comments their places in the list. The scans of both texts share all tokens up to the last
one that closes something, and no element is finished behind it.

* **`Node.isFinishedIn`** — whether the end of an element has been read.
* **`Node.Unfinished`**, **`Builder.unfinished_take`** — tokens that close nothing finish no element.
* **`Builder.EndedAtName`** — an element with an end tag that has no bracket yet.
* **`parse_stable`** — every text may go on. -/

namespace MarkupAnalysis

open Document

/-! ## Finished elements -/

namespace Node

/-- **Whether the element is finished in the text**: by its `/>`, by the end of its void start tag, or by
the `>` of its end tag. -/
def isFinishedIn (v : Vocabulary) (t : Text) (n : Node) : Bool :=
  n.selfClosing || (n.isVoid v && n.startTagEnd.isSome) ||
    (n.hasEndTag && t.slice? ⟨n.stop - 1, n.stop⟩ == some ['>'])

/-- **An element whose end has not been read.** An end tag without a bracket ends with its name. -/
structure Unfinished (v : Vocabulary) (n : Node) : Prop where
  selfClosing : n.selfClosing = false
  void : n.isVoid v = true → n.startTagEnd = none
  endTag : ∀ e, n.endTag = some e → n.stop = e.nameSpan.stop

end Node

namespace Builder

variable {v : Vocabulary} {b b' : Builder} {m m' : Mode} {length position frontier : Nat} {id j : NodeId}
  {token : Token}

/-! ## Tokens that close nothing -/

/-- Where there is no node yet, nothing is finished. -/
theorem unfinished_of_size_le (outside : b.nodes.size ≤ j) : (b.node j).Unfinished v := by
  have none_here : b.node j = default := by
    rw [node, Array.getElem?_eq_none outside]
    rfl
  rw [none_here]
  exact ⟨rfl, fun _ => rfl, fun e none_met => by cases none_met⟩

/-- A change that does not finish an element. -/
theorem unfinished_modify {change : Node → Node} (inside : id < b.nodes.size)
    (own : (b.node id).Unfinished v → (change (b.node id)).Unfinished v)
    (nodes : b'.nodes = (b.modify id change).nodes) (h : (b.node j).Unfinished v) :
    (b'.node j).Unfinished v := by
  rw [node_congr nodes, node_modify inside]
  split
  · rename_i same
    subst same
    exact own h
  · exact h

theorem unfinished_openElement (nested : b.Nested length frontier) (start : Nat)
    (h : (b.node j).Unfinished v) : ((b.openElement length start).node j).Unfinished v := by
  rw [node_openElement nested.current_lt_size]
  split_ifs
  · exact ⟨rfl, fun _ => rfl, fun e none_met => by cases none_met⟩
  · exact ⟨h.selfClosing, h.void, h.endTag⟩
  · exact h

theorem unfinished_nameElement (nested : b.Nested length frontier) (token : Token)
    (h : (b.node j).Unfinished v) : ((b.nameElement v token).node j).Unfinished v := by
  unfold nameElement
  cases reading : b.startTag with
  | none => exact h
  | some id =>
    obtain ⟨inside, -, -, no_end, -⟩ := nested.reading id reading
    dsimp only
    split
    · exact unfinished_modify inside (fun known => ⟨known.selfClosing, fun _ => no_end, known.endTag⟩)
        (nodes_leave _) h
    · exact unfinished_modify inside (fun known => ⟨known.selfClosing, fun _ => no_end, known.endTag⟩)
        rfl h

theorem unfinished_addAttribute (nested : b.Nested length frontier) (token : Token)
    (h : (b.node j).Unfinished v) : ((b.addAttribute token).node j).Unfinished v := by
  unfold addAttribute
  cases reading : b.startTag with
  | none => exact h
  | some id =>
    exact unfinished_modify (nested.reading id reading).1
      (fun known => ⟨known.selfClosing, known.void, known.endTag⟩) rfl h

theorem unfinished_addValue (nested : b.Nested length frontier) (token : Token)
    (h : (b.node j).Unfinished v) : ((b.addValue token).node j).Unfinished v := by
  unfold addValue
  cases reading : b.startTag with
  | none => exact h
  | some id =>
    exact unfinished_modify (nested.reading id reading).1
      (fun known => ⟨known.selfClosing, known.void, known.endTag⟩) rfl h

/-- The name of an end tag ends the element with the name. -/
theorem unfinished_endElement (nested : b.Nested length frontier) (token : Token)
    (h : (b.node j).Unfinished v) : ((b.endElement v token).node j).Unfinished v := by
  rcases endElement_cases v b token with stray | ⟨start, inner, id, outer, -, closes, taken⟩
  · rw [stray]
    exact h
  · have known : ∀ i ∈ inner, i ∈ b.openElements := fun i mem => by simp [closes.split, mem]
    have node' : (b.endElement v token).node j =
        if j = id then closeWith start token.span (b.node j)
        else if j ∈ inner then cut start (b.node j) else b.node j := by
      rw [taken]
      exact node_closeWith (fun i mem => nested.lt_size (known i mem))
        (nested.lt_size (by simp [closes.split])) (nested.split_apart closes.split).1 j
    rw [node']
    split_ifs with _ in_inner
    · exact ⟨h.selfClosing, h.void, fun e met => by rw [← Option.some.inj met]; rfl⟩
    · refine ⟨h.selfClosing, h.void, fun e met => ?_⟩
      have none_met := (nested.unclosed j (known j in_inner)).1
      exact absurd (none_met.symm.trans met) (by simp)
    · exact h

/-- **A token that closes nothing finishes no element.** -/
theorem unfinished_take (stands : b.Stands length m position) (reads : m.Reads token.kind m')
    (other : token.kind.closes = false) (h : (b.node j).Unfinished v) :
    ((b.take v length token).node j).Unfinished v := by
  obtain ⟨frontier, -, nested⟩ := stands.exists_nested
  unfold take
  generalize token.kind = kind at reads other
  cases reads with
  | startTagOpens => exact unfinished_openElement nested token.span.start h
  | startTagName => exact unfinished_nameElement nested token h
  | attributeOpens => exact unfinished_addAttribute nested token h
  | value => exact unfinished_addValue nested token h
  | endTagName => exact unfinished_endElement nested token h
  | commentEnds | startTagEnds | startTagEndsBeforeBody | elementEnds | endTagEnds => cases other
  | _ => exact h

/-- The tokens of a start tag do not change the root. -/
theorem EditsStartTag.node_root (edits : b.EditsStartTag b') (nested : b.Nested length frontier) :
    b'.node Document.root = b.node Document.root := by
  cases edits with
  | nothing => rfl
  | element own change reading nodes =>
    rw [node_congr nodes]
    exact node_modify_of_ne (nested.reading own reading).2.1.symm change

/-- The root is never finished. -/
theorem unfinished_root_take (stands : b.Stands length m position) (reads : m.Reads token.kind m')
    (h : (b.node Document.root).Unfinished v) :
    ((b.take v length token).node Document.root).Unfinished v := by
  by_cases closes : token.kind.closes = true
  · obtain ⟨frontier, -, nested⟩ := stands.exists_nested
    unfold take
    generalize token.kind = kind at reads closes
    cases reads with
    | commentEnds =>
      rw [node_congr (nodes_endComment _ _)]
      exact h
    | startTagEnds | startTagEndsBeforeBody =>
      rw [(edits_closeStartTag token).node_root nested]
      exact h
    | elementEnds =>
      rw [(edits_selfCloseElement token.span.stop).node_root nested]
      exact h
    | endTagEnds inside =>
      dsimp only [closeEndTag]
      cases ended : b.ended with
      | none => exact h
      | some id =>
        -- What has just ended is an element.
        have known : b.JustEnded id := by
          cases m with
          | endTagOpened => exact absurd (stands.2.1.symm.trans ended) (by simp)
          | endTag => exact stands.2.1 id ended
          | _ => simp [Mode.inEndTag] at inside
        dsimp only
        rw [node_modify_of_ne known.ne_root.symm]
        exact h
    | _ => cases closes
  · exact unfinished_take stands reads (by simpa using closes) h

/-! ## End tags without a bracket -/

/-- **An element with an end tag that has no bracket yet** has been left, and it ends with the name of the
end tag. -/
def EndedAtName (b : Builder) : Prop := ∀ id, b.ended = some id →
  b.Past id ∧ ∃ e, (b.node id).endTag = some e ∧ (b.node id).stop = e.nameSpan.stop

/-- Only the tokens of end tags say which element has been closed. -/
theorem ended_take (kind : token.kind ≠ .endTagOpen ∧ token.kind ≠ .endTag ∧
    token.kind ≠ .endTagClose) : (b.take v length token).ended = b.ended := by
  have edits {b' : Builder} (edits : b.EditsStartTag b') : b'.ended = b.ended := by
    cases edits with
    | nothing => rfl
    | element _ _ _ _ _ _ _ ended => exact ended
  unfold take
  generalize token.kind = k at kind
  cases k with
  | startTag => exact edits (edits_nameElement v token)
  | startTagClose => exact edits (edits_closeStartTag token)
  | startTagSelfClose => exact edits (edits_selfCloseElement token.span.stop)
  | attributeName => exact edits (edits_addAttribute token)
  | attributeValue => exact edits (edits_addValue token)
  | endComment | eof => exact ended_endComment _ _
  | endTagOpen | endTag | endTagClose => simp at kind
  | _ => rfl

/-- The name of an end tag is where the element ends for now. -/
theorem endedAtName_endElement (stands : b.Stands length .endTagOpened position)
    (advance : position ≤ token.span.stop) : (b.endElement v token).EndedAtName := by
  intro id ended
  have known := (stands_endElement v stands advance).2.1 id ended
  refine ⟨⟨known.inside, known.ne_root, known.settled⟩, ?_⟩
  obtain ⟨start, n, node⟩ := node_of_ended_endElement stands.2.1 ended
  exact ⟨⟨start, token.span⟩, congrArg Node.endTag node, congrArg Node.stop node⟩

/-- After its bracket no end tag is being read. -/
theorem ended_closeEndTag (stop : Nat) : (b.closeEndTag stop).ended = none := by
  unfold closeEndTag
  cases ended : b.ended with
  | none => exact ended
  | some id => rfl

/-- **Every token keeps it so** that an element whose end tag has no bracket yet ends with its name. -/
theorem endedAtName_take (h : b.EndedAtName) (stands : b.Stands length m position)
    (reads : m.Reads token.kind m') (advance : position ≤ token.span.stop) :
    (b.take v length token).EndedAtName := by
  by_cases kind : token.kind = .endTagOpen ∨ token.kind = .endTag ∨ token.kind = .endTagClose
  · rcases kind with kind | kind | kind
    · intro id ended
      simp only [take, kind, openEndTag] at ended
      cases ended
    · rw [kind] at reads
      cases reads
      rw [take, kind]
      exact endedAtName_endElement stands advance
    · intro id ended
      simp only [take, kind, ended_closeEndTag] at ended
      cases ended
  · simp only [not_or] at kind
    intro id ended
    rw [ended_take kind] at ended
    obtain ⟨past, e, met, stop⟩ := h id ended
    rw [past.node_take v length kind.2.2]
    exact ⟨(rests_take past v length token).past, e, met, stop⟩

/-- **What has not been left, or has just been closed, is not finished.** -/
theorem unfinished_of_not_left (marked : b.Marked v m) (nested : b.Nested length frontier)
    (ended_at_name : b.EndedAtName) (root : (b.node Document.root).Unfinished v)
    (not_left : ¬ (b.Past id ∧ b.ended ≠ some id)) : (b.node id).Unfinished v := by
  by_cases inside : id < b.nodes.size
  · by_cases off_root : id = Document.root
    · rw [off_root]
      exact root
    · by_cases pending : b.Pending id
      · rcases pending with mem | reading
        · obtain ⟨no_end_tag, not_closed⟩ := nested.unclosed id mem
          obtain ⟨not_void, not_selfClosing⟩ := (marked.nodes id inside off_root).not_void not_closed
          refine ⟨not_selfClosing, fun void => ?_, fun e met => ?_⟩
          · exact absurd (not_void.symm.trans void) (by simp)
          · exact absurd (no_end_tag.symm.trans met) (by simp)
        · obtain ⟨-, -, -, no_end, no_end_tag, -⟩ := nested.reading id reading
          refine ⟨(marked.reading id reading).1, fun _ => no_end, fun e met => ?_⟩
          exact absurd (no_end_tag.symm.trans met) (by simp)
      · have just_closed : b.ended = some id := by
          by_contra other
          exact not_left ⟨⟨inside, off_root, pending⟩, other⟩
        obtain ⟨-, e, met, stop⟩ := ended_at_name id just_closed
        obtain ⟨-, not_void, not_selfClosing⟩ :=
          (marked.nodes id inside off_root).endTag (by rw [met]; rfl)
        refine ⟨not_selfClosing, fun void => ?_, fun e' met' => ?_⟩
        · exact absurd (not_void.symm.trans void) (by simp)
        · rw [← Option.some.inj (met.symm.trans met')]
          exact stop
  · exact unfinished_of_size_le (Nat.not_lt.mp inside)

/-- At the end of the text open elements are cut off, which does not finish them. -/
theorem unfinished_finish (nested : b.Nested length frontier) (h : (b.node id).Unfinished v) :
    ((b.cutOff b.openElements length).node id).Unfinished v := by
  rw [node_cutOff fun _ => nested.lt_size]
  split
  · rename_i mem
    refine ⟨h.selfClosing, h.void, fun e met => ?_⟩
    exact absurd ((nested.unclosed id mem).1.symm.trans met) (by simp)
  · exact h

end Builder

/-! ## Passages -/

namespace Document

variable {v : Vocabulary} {t : Text} {s s' : Tokenizer} {passed more : List Token} {i : NodeId}

/-- The element that has been closed last, after some of the tokens of a text. -/
theorem endedAtName_built (h : (scanner v t).Passes passed s) : (built v t passed).EndedAtName := by
  refine h.along (P := fun passed _ => (built v t passed).EndedAtName) ?_ ?_
  · intro id none_ended
    cases none_ended
  · intro passed s passes some_ahead so_far
    rw [built_concat]
    exact Builder.endedAtName_take so_far (stands_built passes) (Tokenizer.reads some_ahead)
      Tokenizer.position_le_rest

/-- The root after some of the tokens of a text. -/
theorem unfinished_root_built (h : (scanner v t).Passes passed s) :
    ((built v t passed).node root).Unfinished v := by
  refine h.along (P := fun passed _ => ((built v t passed).node root).Unfinished v) ?_ ?_
  · exact ⟨rfl, fun _ => rfl, fun e none_met => by cases none_met⟩
  · intro passed s passes some_ahead so_far
    rw [built_concat]
    exact Builder.unfinished_root_take (stands_built passes) (Tokenizer.reads some_ahead) so_far

/-- **After tokens that close nothing** no more elements are finished. -/
theorem unfinished_built (h : (scanner v t).Passes passed s) (further : s.Passes more s')
    (none_closes : ∀ token ∈ more, token.kind.closes = false)
    (unfinished : ((built v t passed).node i).Unfinished v) :
    ((built v t (passed ++ more)).node i).Unfinished v := by
  refine further.along (P := fun more _ => (∀ token ∈ more, token.kind.closes = false) →
    ((built v t (passed ++ more)).node i).Unfinished v) ?_ ?_ none_closes
  · intro _
    rwa [List.append_nil]
  · intro more s' behind some_ahead so_far none_closes
    rw [← List.append_assoc, built_concat]
    exact Builder.unfinished_take (stands_built (h.trans behind)) (Tokenizer.reads some_ahead)
      (none_closes s'.token (by simp))
      (so_far fun token mem => none_closes token (List.mem_append_left _ mem))

/-- **What is not finished when the scan has closed something for the last time** is not finished in the
tree. -/
theorem unfinished_parse (h : (scanner v t).Passes passed s)
    (none_closes : ∀ token ∈ s.tokens, token.kind.closes = false)
    (unfinished : ((built v t passed).node i).Unfinished v) :
    ((parse v t).node i).Unfinished v := by
  obtain ⟨more, s', further, ended, all⟩ := s.exists_passes
  obtain ⟨frontier, -, nested⟩ := exists_nested_built v t
  have before := unfinished_built h further
    (fun token mem => none_closes token (all ▸ List.mem_append_left _ mem)) unfinished
  rw [← node_built_of_ended (h.trans further) ended] at before
  exact Builder.unfinished_finish nested before

/-- The name of an end tag does not end with a bracket. -/
theorem slice_name_ne_bracket {token : Token} (mem : token ∈ tokensOf v t)
    (name : token.kind = .endTag) :
    t.slice? ⟨token.span.stop - 1, token.span.stop⟩ ≠ some ['>'] := by
  obtain ⟨s, here, rfl⟩ := Tokenizer.exists_at_of_mem_tokens (scanner_at v t) mem
  intro bracket
  have whole : t.slice? ⟨s.token.span.start, s.token.span.stop⟩ = some s.token.text := here.slice
  have tag := (Tokenizer.name_of_endTag name).1
  have some_name := List.length_pos_iff.mp tag.length_pos
  have text := (List.dropLast_append_getLast some_name).symm
  generalize s.token.text.getLast some_name = last, s.token.text.dropLast = front at text
  obtain ⟨before, behind, split, start, stop⟩ := Text.slice?_eq_some_iff.mp whole
  obtain ⟨before', behind', split', start', stop'⟩ := Text.slice?_eq_some_iff.mp bracket
  -- The last character of the name and the bracket end at the same offset.
  have same : before ++ s.token.text = before' ++ ['>'] := by
    refine (Text.append_left_inj_of_byteLength (split.symm.trans split') ?_).1
    rw [Text.byteLength_append, Text.byteLength_append]
    omega
  rw [text, ← List.append_assoc] at same
  obtain rfl : last = '>' := by simpa using (List.append_inj' same rfl).2
  exact absurd (tag.chars '>' (by simp [text])) (by decide)

/-- **No unfinished element counts as finished in the text.** -/
theorem isFinishedIn_eq_false (unfinished : ((parse v t).node i).Unfinished v) :
    ((parse v t).node i).isFinishedIn v t = false := by
  have by_start_tag :
      (((parse v t).node i).isVoid v && ((parse v t).node i).startTagEnd.isSome) = false := by
    by_cases void : ((parse v t).node i).isVoid v = true
    · rw [unfinished.void void]
      exact Bool.and_false _
    · rw [Bool.eq_false_iff.mpr void, Bool.false_and]
  have by_end_tag : (((parse v t).node i).hasEndTag &&
      t.slice? ⟨((parse v t).node i).stop - 1, ((parse v t).node i).stop⟩ == some ['>']) = false := by
    cases met : ((parse v t).node i).endTag with
    | none => simp [Node.hasEndTag, met]
    | some e =>
      obtain ⟨before, start, token, inner, outer, h, rfl, -⟩ := exists_endTagIn met
      have not_bracket := slice_name_ne_bracket (h.next.subset (by simp)) h.name
      rw [unfinished.endTag _ met, Bool.and_eq_false_iff]
      exact .inr (beq_eq_false_iff_ne.mpr not_bracket)
  rw [Node.isFinishedIn, unfinished.selfClosing, by_start_tag, by_end_tag]
  rfl

/-! ## Two texts -/

/-- **What both texts have in common**: as long as the scans agree, the builders do, but for the ends that
are still to come. -/
theorem moves_built (u : Text) (h : (scanner v t).Passes passed s) :
    (built v t passed).Moves id (fun _ tag => tag) (built v (t ++ u) passed) := by
  refine h.along (P := fun passed _ =>
    (built v t passed).Moves id (fun _ tag => tag) (built v (t ++ u) passed)) ?_ ?_
  · exact Builder.moves_start _ _ rfl
  · intro passed s passes some_ahead so_far
    obtain ⟨frontier, -, nested⟩ := (stands_built passes).exists_nested
    rw [built_concat, built_concat]
    exact so_far.take (stands_built passes) (Tokenizer.reads some_ahead) ⟨rfl, rfl, rfl⟩
      (so_far.spells_same nested rfl) _

/-- The nodes at the places of the array. -/
theorem node?_eq_some_iff {d : Document} {n : Node} :
    d.node? i = some n ↔ i < d.nodes.size ∧ d.node i = n := by
  rw [node?, node]
  by_cases inside : i < d.nodes.size
  · simp [inside]
  · simp [inside]

/-- **An element that has been left**, and whose end tag has its bracket, is in the tree as it is. -/
theorem node?_parse_of_left (h : (scanner v t).Passes passed s) (past : (built v t passed).Past i)
    (other : (built v t passed).ended ≠ some i) :
    (parse v t).node? i = some ((built v t passed).node i) := by
  have next : passed <+: tokensOf v t := ⟨s.tokens, h.tokens_eq.symm⟩
  have rests := rests_built next past
  refine node?_eq_some_iff.mpr ⟨?_, ?_⟩
  · rw [parse_eq, Builder.finish, Builder.size_cutOff]
    exact rests.past.known
  · rw [node_parse rests.past]
    exact (rests.still other).2

/-- **What is finished in a text** when it goes on: the elements keep their places and their records, and
the comments their places in the list. -/
structure Stable (v : Vocabulary) (t u : Text) : Prop where
  /-- Finished elements stay as they are. -/
  finished : ∀ i n, (parse v t).node? i = some n → n.isFinishedIn v t = true →
    (parse v (t ++ u)).node? i = some n
  /-- Comments that have been ended come first, and they stay as they are. -/
  comments : (parse v t).comments.toList.filter (·.isEndedIn t) <+: (parse v t).comments.toList ∧
    (parse v t).comments.toList.filter (·.isEndedIn t) <+: (parse v (t ++ u)).comments.toList

/-- The comments after some of the tokens come first. -/
theorem comments_built_first (h : (scanner v t).Passes passed s) :
    (built v t passed).comments.toList <+: (parse v t).comments.toList := by
  have tokens : tokensOf v t = passed ++ s.tokens := h.tokens_eq
  rw [comments_parse_eq, tokens, built, built, List.foldl_append]
  exact Builder.comments_foldl v t.byteLength s.tokens

/-- **Elements that have been left** in the common part of two texts are the same in both trees. -/
theorem node?_parse_append {u : Text} (h : (scanner v t).Passes passed s)
    (h' : (scanner v (t ++ u)).Passes passed s') (past : (built v t passed).Past i)
    (other : (built v t passed).ended ≠ some i) :
    (parse v (t ++ u)).node? i = (parse v t).node? i := by
  have moves := moves_built u h
  have past' : (built v (t ++ u) passed).Past i := by
    refine ⟨moves.size ▸ past.known, past.off_root, ?_⟩
    rw [Builder.Pending, moves.openElements, moves.startTag]
    exact past.left
  have same : (built v (t ++ u) passed).node i = (built v t passed).node i := by
    obtain ⟨stop, moved⟩ := moves.node i past.known
    have same_stop := moves.stop i past.known past.off_root past.left
    rw [moved] at same_stop ⊢
    rw [show stop = ((built v t passed).node i).stop from same_stop]
    show { ((built v t passed).node i).moved id id with stop := ((built v t passed).node i).stop } = _
    rw [Node.moved_id]
  rw [node?_parse_of_left h past other, node?_parse_of_left h' past' (moves.ended ▸ other), same]

end Document

/-- **What is finished in a text stays as it is, whatever comes behind the text.** -/
theorem parse_stable (v : Vocabulary) (t u : Text) : Stable v t u := by
  obtain ⟨common, s, passes, passes', none_closes⟩ := (scanner v t).exists_common_passage u
  have passes' : (scanner v (t ++ u)).Passes common (s.extend u) := by
    rw [scanner_eq] at passes' ⊢
    exact passes'
  refine ⟨?finished, ?comments⟩
  case finished =>
    intro i n here finished
    by_cases left : (built v t common).Past i ∧ (built v t common).ended ≠ some i
    · rw [node?_parse_append passes passes' left.1 left.2]
      exact here
    · -- Behind the common part nothing is finished any more.
      obtain ⟨frontier, -, nested⟩ := (stands_built passes).exists_nested
      have unfinished := unfinished_parse passes none_closes
        (Builder.unfinished_of_not_left (marked_built passes) nested (endedAtName_built passes)
          (unfinished_root_built passes) left)
      obtain ⟨-, rfl⟩ := node?_eq_some_iff.mp here
      exact absurd ((isFinishedIn_eq_false unfinished).symm.trans finished) (by simp)
  case comments =>
    -- The comments that have been ended are those of the common part.
    rw [comments_parse passes none_closes]
    refine ⟨comments_built_first passes, ?_⟩
    have same : (built v (t ++ u) common).comments = (built v t common).comments := by
      rw [(moves_built u passes).comments]
      exact Array.map_id'' (fun _ => rfl) _
    rw [← same]
    exact comments_built_first passes'

end MarkupAnalysis
