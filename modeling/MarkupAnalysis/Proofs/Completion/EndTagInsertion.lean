import MarkupAnalysis.Completion.Insertion
import MarkupAnalysis.Proofs.Completion.Replacement
import MarkupAnalysis.Proofs.Completion.StartTagPlaces

/-! # End tags that are inserted behind a start tag

Behind a `>` that is typed the end tag is inserted of the element whose start tag the `>` closes. Whether it
closes one is asked of the text cut anew from the node before the cursor on, which is the answer of the tree
as long as no tag is interrupted.

* **`tokenEndsAt_iff`** — whether a token of a kind ends at an offset.
* **`Document.JustOpened`** — the elements that an end tag is inserted for.
* **`Document.endTagInsertion_of_justOpened`**, **`Document.exists_justOpened`** — they are found, and nothing
  else is.
* **`Document.tagInsertion_behind_bracket`** — what is inserted behind a `>`.
* **`Document.tagInsertion_interrupted`** — behind an interrupted tag. -/

namespace MarkupAnalysis

open Text

/-- What is passed over is not the end of the text. -/
theorem Tokenizer.Passes.kind_ne_eof {s s' : Tokenizer} {passed : List Token} (h : s.Passes passed s') :
    ∀ x ∈ passed, x.kind ≠ .eof := by
  induction h with
  | here => exact List.forall_mem_nil _
  | step some_ahead _ ih => exact List.forall_mem_cons.mpr ⟨(reads some_ahead).kind_ne_eof, ih⟩

/-- **A token of a kind ends at an offset** if there is one among the tokens of the text. -/
theorem tokenEndsAt_iff {v : Vocabulary} {t : Text} {start offset : Nat} {kind : TokenKind}
    (proper : kind ≠ .eof) : tokenEndsAt v t start kind offset = true ↔
      ∃ x ∈ tokenize v t start, x.kind = kind ∧ x.span.stop = offset := by
  unfold tokenEndsAt
  rw [List.any_eq_true]
  constructor
  · rintro ⟨x, mem, here⟩
    exact ⟨x, (List.takeWhile_sublist _).subset mem, by simpa using here⟩
  · rintro ⟨x, mem, own, here⟩
    refine ⟨x, ?_, by simp [own, here]⟩
    obtain ⟨before, after, split⟩ := List.mem_iff_append.mp mem
    obtain ⟨s, passes, rfl, -⟩ := Tokenizer.passes_of_tokens_eq split
    -- What comes before the token ends before it, too.
    rw [split, List.takeWhile_append_of_pos]
    · rw [List.takeWhile_cons_of_pos (by simp [own, here, proper])]
      exact List.mem_append_right _ List.mem_cons_self
    · intro y y_mem
      have ends := (passes.bounds y_mem).2
      have forwards : s.position ≤ s.token.span.stop := Tokenizer.position_le_rest
      have not_eof : y.kind ≠ .eof := passes.kind_ne_eof y y_mem
      simp only [ne_eq, not_eof, not_false_eq_true, decide_true, Bool.true_and, decide_eq_true_eq]
      omega

namespace Document

variable {v : Vocabulary} {t : Text} {id : NodeId} {offset : Nat} {tag inserted : Text}

/-- **An element whose start tag ends at an offset** and that can have content and has not ended there. -/
structure JustOpened (d : Document) (v : Vocabulary) (offset : Nat) (id : NodeId) (tag : Text) : Prop where
  /-- It is an element. -/
  element : d.IsElement id
  /-- It has a tag. -/
  named : (d.node id).tag = some tag
  /-- Its start tag ends at the offset. -/
  ends : (d.node id).startTagEnd = some offset
  /-- The start tag does not end in `/>`. -/
  not_selfClosing : (d.node id).selfClosing = false
  /-- The tag is not void. -/
  not_void : v.isVoid tag = false
  /-- No end tag starts at or before the offset. -/
  not_ended : ∀ start, (d.node id).endTagStart = some start → offset < start

/-- **An element whose start tag ends before the cursor** gets its end tag. -/
theorem endTagInsertion_of_justOpened (h : JustOpened (parse v t) v offset id tag) :
    (parse v t).endTagInsertion t v offset = some ("$0</".toList ++ tag ++ ['>']) := by
  obtain ⟨passed, s, reads, kind, some_text, rfl⟩ := exists_token_of_startTagEnd h.ends h.not_selfClosing
  have starts := reads.start_lt
  have found := reads.nodeBefore some_text (Nat.le_refl _)
  have around : ((parse v t).node id).isAround s.token.span.stop = true := by
    have not_ended : ((parse v t).node id).endTagStart.any (· ≤ s.token.span.stop) = false := by
      cases ended : ((parse v t).node id).endTagStart with
      | none => rfl
      | some start => simpa using h.not_ended start ended
    simp [Node.isAround, not_ended, starts.trans some_text]
  -- The text cut from the element on has the bracket of the start tag, too.
  have closes : tokenEndsAt v t ((parse v t).node id).start .startTagClose s.token.span.stop = true := by
    obtain ⟨-, first, -, s', -, passes, same⟩ := exists_passes_within reads.token_mem some_text
      (Nat.le_refl _) (of_nodeBefore found) (reads.uninterrupted (Nat.le_refl _))
    refine (tokenEndsAt_iff (by decide)).mpr ⟨s'.token, ?_, same ▸ kind, congrArg (·.span.stop) same⟩
    exact passes.token_mem
  unfold endTagInsertion
  simp only [found, h.named, h.not_void, around, closes, Option.bind_eq_bind, Option.bind_some,
    Bool.not_false, Bool.and_self, if_true]

/-- **Only an element whose start tag ends at the cursor gets an end tag**, if no tag is interrupted between
the start of the node before the cursor and the cursor. -/
theorem exists_justOpened (smooth : ∀ id, (parse v t).nodeBefore offset = some id →
      UninterruptedWithin v t ((parse v t).node id).start offset)
    (insertion : (parse v t).endTagInsertion t v offset = some inserted) :
    ∃ id tag, JustOpened (parse v t) v offset id tag ∧ inserted = "$0</".toList ++ tag ++ ['>'] := by
  unfold endTagInsertion at insertion
  simp only [Option.bind_eq_bind, Option.bind_eq_some_iff, Option.ite_none_right_eq_some,
    Option.some.injEq, Bool.and_eq_true, Bool.not_eq_true'] at insertion
  obtain ⟨id, found, tag, named, ⟨⟨not_void, around⟩, closes⟩, rfl⟩ := insertion
  -- The bracket in the text cut from the node on
  obtain ⟨x, x_mem, kind, stop⟩ := (tokenEndsAt_iff (by decide)).mp closes
  obtain ⟨before, after, split⟩ := List.mem_iff_append.mp x_mem
  obtain ⟨u, scan, rfl, -⟩ := Tokenizer.passes_of_tokens_eq split
  have plain : u.pseudoClose = false := by
    refine scan.preserves (P := fun s => s.pseudoClose = false) (fun _ _ holds => holds) ?_
    unfold Tokenizer.start
    split <;> rfl
  have starts : u.token.span.start < offset := by
    rw [← stop]
    exact Nat.lt_of_lt_of_eq (Nat.lt_succ_self _) (Tokenizer.position_rest_of_startTagClose plain kind).symm
  -- is the token of the document there, so it ends the start tag of an element, the node before it.
  obtain ⟨passed, s, passes, same⟩ :=
    exists_passes_same scan starts (Nat.le_of_eq stop.symm) found (smooth id found)
  rw [← same] at kind stop starts
  obtain ⟨id', reads⟩ := exists_readsStartTag passes (Tokenizer.ahead_ne_nil kind (by decide))
    (Tokenizer.inStartTag_of_startTagClose kind)
  obtain rfl : id' = id :=
    Option.some.inj ((reads.nodeBefore starts (Nat.le_of_eq stop.symm)).symm.trans found)
  have some_text : s.position < s.token.span.stop := Nat.lt_of_lt_of_eq starts stop.symm
  obtain ⟨ends, not_selfClosing⟩ := reads.startTagEnd_eq kind some_text
  have ends_here := ends.trans (congrArg some stop)
  refine ⟨id', tag, ⟨reads.isElement, named, ends_here, not_selfClosing, not_void, ?_⟩, rfl⟩
  intro start ended
  simp only [Node.isAround, ended, Bool.and_eq_true, Option.any_some, Bool.not_eq_true',
    decide_eq_false_iff_not, Nat.not_le] at around
  exact around.2

/-- **Behind a `>`** the end tag is inserted of an element whose start tag it has closed. Where no tag is
interrupted between the start of the node before the cursor and the cursor, nothing else is inserted. -/
theorem tagInsertion_behind_bracket (bracket : charBefore? t offset = some '>') :
    (∀ id tag, JustOpened (parse v t) v offset id tag →
      (parse v t).tagInsertion t v offset = some ("$0</".toList ++ tag ++ ['>'])) ∧
    ((∀ id, (parse v t).nodeBefore offset = some id →
        UninterruptedWithin v t ((parse v t).node id).start offset) →
      ∀ inserted, (parse v t).tagInsertion t v offset = some inserted →
        ∃ id tag, JustOpened (parse v t) v offset id tag ∧ inserted = "$0</".toList ++ tag ++ ['>']) := by
  have here : (parse v t).tagInsertion t v offset = (parse v t).endTagInsertion t v offset := by
    rw [tagInsertion, bracket]
    rfl
  rw [here]
  exact ⟨fun id tag => endTagInsertion_of_justOpened, fun smooth inserted => exists_justOpened smooth⟩

/-- A start tag, and a bracket in the content. -/
def openParagraph : Text := "<p>x>".toList

/-- Behind the start tag its end tag is inserted, and behind the other bracket nothing is. -/
theorem tagInsertion_openParagraph :
    (parse .empty openParagraph).tagInsertion openParagraph .empty 3 = some "$0</p>".toList ∧
    (parse .empty openParagraph).tagInsertion openParagraph .empty 5 = none := by
  have tokens : tokensOf .empty openParagraph =
      [⟨.startTagOpen, ⟨0, 1⟩, ['<'], none⟩, ⟨.startTag, ⟨1, 2⟩, ['p'], none⟩,
        ⟨.startTagClose, ⟨2, 3⟩, ['>'], none⟩, ⟨.content, ⟨3, 5⟩, "x>".toList, none⟩,
        ⟨.eof, ⟨5, 5⟩, [], none⟩] := by
    decide +kernel
  have size : (parse .empty openParagraph).nodes.size = 2 := by decide +kernel
  have node : (parse .empty openParagraph).node 1 =
      { start := 0, stop := 5, name := some ⟨"p".toList, ⟨1, 2⟩⟩, startTagEnd := some 3,
        parent := some 0 } := by
    decide +kernel
  have opened : JustOpened (parse .empty openParagraph) .empty 3 1 "p".toList := by
    refine ⟨⟨by decide, by rw [size]; decide⟩, ?_, ?_, ?_, rfl, ?_⟩ <;> rw [node]
    · rfl
    · intro start ended
      cases ended
  have smooth (start stop : Nat) : UninterruptedWithin .empty openParagraph start stop := by
    unfold UninterruptedWithin Token.Interrupts
    simp [tokens]
  refine ⟨(tagInsertion_behind_bracket (by decide +kernel)).1 1 "p".toList opened, ?_⟩
  apply Option.eq_none_iff_forall_ne_some.mpr
  intro inserted insertion
  obtain ⟨id, tag, other, -⟩ := (@tagInsertion_behind_bracket .empty openParagraph 5 (by decide +kernel)).2
    (fun _ _ => smooth _ _) inserted insertion
  -- The only element is the paragraph, and its start tag ends elsewhere.
  obtain ⟨off_root, known⟩ := other.element
  rw [size] at known
  obtain rfl : id = 1 := Nat.le_antisymm (Nat.le_of_lt_succ known) (Nat.pos_of_ne_zero off_root)
  have ends := other.ends
  rw [node] at ends
  cases ends

/-- A start tag that a comment interrupts, with a bracket in it. -/
def interruptedByBracket : Text := "<p <!-- >".toList

/-- **Behind an interrupted tag** the end tag of its element is inserted in a comment, although no start tag
ends there. -/
theorem tagInsertion_interrupted :
    charBefore? interruptedByBracket 9 = some '>' ∧
    (parse .empty interruptedByBracket).nodes.map (·.startTagEnd) = #[none, none] ∧
    (parse .empty interruptedByBracket).tagInsertion interruptedByBracket .empty 9 =
      some "$0</p>".toList := by
  refine ⟨?_, ?_, ?_⟩ <;> decide +kernel

end Document

end MarkupAnalysis
