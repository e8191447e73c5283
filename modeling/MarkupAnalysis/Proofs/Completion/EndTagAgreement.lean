import MarkupAnalysis.Proofs.Completion.Closing
import MarkupAnalysis.Proofs.Completion.EndTagInsertion
import MarkupAnalysis.Proofs.Document.Marks

/-! # The end tag that is inserted and the one that is proposed

Behind a `</` that is typed the rest of an end tag is inserted, and completion proposes end tags there, one of
them pinned. Both look for the nearest element that has not ended, each on its own way through the tree, and
both cut the text anew, each from another node. They choose the same element, unless the node before the
cursor has no name and is open: completion looks past such a node, and the insertion stops there.

* **`Document.nearestOpen?`** — the element that completion finds.
* **`CompletionRequest.findSome?_eq_bind_find?`** — where every open element has a name, the insertion finds
  the same one.
* **`Document.PinsEndTag`**, **`Document.pinsEndTag_iff`** — which end tag completion pins.
* **`Document.StopsNameless`**, **`Document.endNameInsertion_eq_some_iff`** — which one is inserted.
* **`Document.tagInsertion_iff_pinsEndTag`** — it is the same one.
* **`Document.tagInsertion_nameless`** — behind an open node without a name it is not. -/

namespace MarkupAnalysis

open Text

namespace CompletionRequest

variable {r : CompletionRequest} {cursor : Cursor} {candidates : List Candidate} {c : Candidate} {tag : Text}

/-- What is pinned among end tags is the end tag of the nearest open element. -/
theorem openAncestor?_of_pinned {name : Span} {inStartTag : Bool}
    (proposed : r.closeTagCandidates name inStartTag = .ok candidates) (mem : c ∈ candidates)
    (pinned : c.isPinned = true) : ∃ tag start, r.openAncestor? inStartTag = some (tag, start) ∧
      c.suggestion.label = '/' :: tag := by
  obtain ⟨tag, start, close, nearest, closes⟩ | ⟨close, except, other⟩ :=
    of_mem_closeTagCandidates proposed mem
  · exact ⟨tag, start, nearest, (closeCandidate_cases closes).1⟩
  · exact absurd ((of_mem_otherCloseCandidates other).2.2.symm.trans pinned) Bool.false_ne_true

/-- The end tag of an open element is pinned. -/
theorem isPinned_of_closeCandidate {name : Span} {close : Text} {start : Nat}
    (proposed : r.closeCandidate name close tag start = .ok c) : c.isPinned = true := by
  unfold closeCandidate at proposed
  simp only [Except.bind_eq_ok_iff] at proposed
  obtain ⟨startIndent, -, endIndent, -, same⟩ := proposed
  obtain rfl := Except.ok.inj same
  rfl

/-- **Whatever the place is**, an end tag without its `<` is pinned for an open element only. -/
theorem openAncestor?_ne_none_of_pinned (proposed : r.candidates cursor = .ok candidates)
    (mem : c ∈ candidates) (pinned : c.isPinned = true) (label : c.suggestion.label = '/' :: tag) :
    r.openAncestor? false ≠ none := by
  -- What has not ended around a start tag has not ended at an end tag there.
  have of_closeTags {name : Span} {inStartTag : Bool} {closing : List Candidate}
      (proposed : r.closeTagCandidates name inStartTag = .ok closing) (mem : c ∈ closing) :
      r.openAncestor? false ≠ none := by
    obtain ⟨tag, start, found, -⟩ := openAncestor?_of_pinned proposed mem pinned
    cases inStartTag with
    | false => simp [found]
    | true =>
      unfold openAncestor? at found ⊢
      dsimp only at found ⊢
      rw [if_pos rfl] at found
      rw [if_neg Bool.false_ne_true, List.findSome?_cons, found]
      split <;> nofun
  unfold CompletionRequest.candidates at proposed
  cases place : cursor.place with rw [place] at proposed
  | newTag name bracket =>
    obtain ⟨closing, closes, rfl⟩ := Except.map_eq_ok_iff.mp proposed
    refine of_closeTags closes ((List.mem_append.mp mem).resolve_left fun opens => ?_)
    obtain ⟨tag, -, rfl⟩ := List.mem_map.mp opens
    cases pinned
  | endTag name => exact of_closeTags proposed mem
  | tagName name bracket =>
    obtain rfl := Except.ok.inj proposed
    obtain ⟨tag, -, rfl⟩ := List.mem_map.mp mem
    cases pinned
  | attributeName name =>
    obtain rfl := Except.ok.inj proposed
    rcases List.mem_append.mp mem with mem | mem
    · rcases List.mem_append.mp mem with mem | mem
      · obtain ⟨info, -, rfl⟩ := List.mem_map.mp mem
        cases pinned
      · obtain rfl := List.mem_singleton.mp mem
        cases pinned
    · obtain ⟨used, -, rfl⟩ := List.mem_map.mp mem
      cases pinned
  | attributeValue value =>
    obtain rfl := Except.ok.inj proposed
    obtain ⟨text, -, rfl⟩ := List.mem_map.mp mem
    cases pinned
  | afterStartTag tag stop =>
    obtain rfl := Except.ok.inj proposed
    unfold autoCloseCandidates at mem
    split_ifs at mem with hidden
    · cases mem
    · obtain rfl := List.mem_singleton.mp mem
      cases label
  | elsewhere =>
    obtain rfl := Except.ok.inj proposed
    cases mem

end CompletionRequest

/-! ## The cursor behind a `</` -/

/-- **Behind the `</` of an end tag** there is a place for end tags. -/
theorem Cursor.place_find_of_endTagOpen {t : Text} {s : Tokenizer} (tag attributeName : Option Text)
    (kind : s.token.kind = .endTagOpen) :
    ∃ name, (find t s.token.span.stop tag attributeName s.trace).place = .endTag name := by
  have forwards : s.token.span.start ≤ s.token.span.stop := Tokenizer.position_le_rest
  rw [find_eq (Tokenizer.ahead_ne_nil kind (by decide)) forwards]
  unfold place?
  rw [kind]
  dsimp only
  rw [if_pos (Nat.le_refl _)]
  exact ⟨_, rfl⟩

/-- A `</` that is read ends with its slash. -/
theorem charBefore?_of_endTagOpen {t : Text} {s : Tokenizer} (here : s.At t)
    (kind : s.token.kind = .endTagOpen) : charBefore? t s.token.span.stop = some '/' := by
  obtain ⟨before, split, start⟩ := here
  have text : s.lexeme = "</".toList := Tokenizer.text_of_endTagOpen kind
  have taken : t.takeBytes? s.token.span.stop = some (before ++ "</".toList) := by
    refine takeBytes?_eq_some_iff.mpr ⟨s.rest.ahead, ?_, ?_⟩
    · rw [split, List.append_assoc, ← text, s.lexeme_append_ahead_rest]
    · rw [byteLength_append, ← start, ← text]
      rfl
  rw [charBefore?, taken, Option.bind_some]
  simp

namespace Document

variable {v : Vocabulary} {t : Text} {options : CompletionOptions} {offset : Nat} {id : NodeId}
  {tag inserted : Text}

/-! ## The nearest open element -/

/-- The tag and the start of the nearest element with a name that has not ended at an offset, as completion
finds it. -/
def nearestOpen? (d : Document) (t : Text) (v : Vocabulary) (options : CompletionOptions) (offset : Nat) :
    Option (Text × Nat) := do
  CompletionRequest.openAncestor? ⟨t, d, offset, v, options, ← d.nodeBefore offset⟩ false

/-- **The nearest open element** starts before the offset, and not behind the node before it. -/
theorem exists_element_of_nearestOpen? {start : Nat}
    (nearest : (parse v t).nearestOpen? t v options offset = some (tag, start)) :
    ∃ id m, (parse v t).nodeBefore offset = some id ∧ (parse v t).IsElement m ∧
      (parse v t).StartsBefore offset m ∧ ((parse v t).node m).start = start ∧
      start ≤ ((parse v t).node id).start := by
  obtain ⟨id, found, own⟩ := Option.bind_eq_some_iff.mp nearest
  obtain ⟨m, around, -, named, rfl⟩ := CompletionRequest.exists_node_of_openAncestor? own
  have element : (parse v t).IsElement m := element_of_tag (named ▸ Option.some_ne_none tag)
  obtain ⟨inner_element, place⟩ := mem_descendants_of_around found (around.imp_left And.left) element
  have outer : ((parse v t).node m).start ≤ ((parse v t).node id).start := by
    rcases place with rfl | inside
    · exact Nat.le_refl _
    · exact ((preordered_parse v t).covers_of_mem_descendants element.2 inside).1
  have before := ((of_nodeBefore found).resolve_left inner_element.1).2
  exact ⟨id, m, found, element, Nat.lt_of_le_of_lt outer before, rfl, outer⟩

/-- Between later offsets no tag is interrupted either. -/
theorem UninterruptedWithin.mono {start start' stop : Nat} (h : UninterruptedWithin v t start stop)
    (later : start ≤ start') : UninterruptedWithin v t start' stop :=
  fun x mem behind before => h x mem (Nat.lt_of_le_of_lt later behind) before

/-- **Only the node before the cursor** may be open without a name: such a node has no children. So the
nearest open element is the nearest open node, if that node has a name or is closed. -/
theorem findSome?_eq_bind_find? (known : id < (parse v t).nodes.size)
    (named : id ≠ root → CompletionRequest.isOpenAt offset ((parse v t).node id) = true →
      ((parse v t).node id).tag ≠ none) :
    ((id :: (parse v t).ancestors id).findSome? fun id =>
        if CompletionRequest.isOpenAt offset ((parse v t).node id) then
          ((parse v t).node id).tag.map (·, ((parse v t).node id).start) else none) =
      ((id :: (parse v t).ancestors id).find? fun id =>
        CompletionRequest.isOpenAt offset ((parse v t).node id)).bind fun id =>
          ((parse v t).node id).tag.map (·, ((parse v t).node id).start) := by
  have ordered := preordered_parse v t
  induction id using Nat.strong_induction_on with
  | _ id ih =>
    by_cases top : id = root
    · rw [top, ordered.ancestors_root]
      cases is_open : CompletionRequest.isOpenAt offset ((parse v t).node root) <;> simp [is_open]
    · obtain ⟨parent, before, parent_of, mem⟩ := ordered.exists_parent known top
      rw [ordered.ancestors_eq_cons known parent_of, List.findSome?_cons, List.find?_cons]
      cases is_open : CompletionRequest.isOpenAt offset ((parse v t).node id) with
      | true =>
        obtain ⟨tag, tagged⟩ := Option.ne_none_iff_exists'.mp (named top is_open)
        simp [tagged]
      | false =>
        refine ih parent before (before.trans known) fun off_root _ nameless => ?_
        have marked := (parse_marks v t).element parent (before.trans known) off_root
        rw [children, marked.childless (.inr (.inr (.inl (Option.map_eq_none_iff.mp nameless))))] at mem
        cases mem

/-! ## At the `</` -/

/-- **The node before the cursor is open and has no name.** -/
def StopsNameless (d : Document) (offset : Nat) : Prop :=
  ∃ id, d.nodeBefore offset = some id ∧ CompletionRequest.isOpenAt offset (d.node id) = true ∧
    (d.node id).tag = none

/-- **Completion pins an end tag**: among the proposals that are ranked there is a pinned one that ends an
element with the tag. -/
def PinsEndTag (d : Document) (t : Text) (v : Vocabulary) (options : CompletionOptions) (offset : Nat)
    (tag : Text) : Prop :=
  ∃ id candidates, d.nodeBefore offset = some id ∧
    CompletionRequest.candidates ⟨t, d, offset, v, options, id⟩
      (Cursor.locate v t (d.node id).start offset) = .ok candidates ∧
    d.complete t v options offset = .ok (rank t offset candidates) ∧
    ∃ c ∈ candidates, c.isPinned = true ∧ c.suggestion.kind = .closeTag ∧ c.suggestion.label = '/' :: tag

/-- The name that is inserted for a tag, with its bracket unless that is there. -/
def withBracket (t : Text) (offset : Nat) (tag : Text) : Text :=
  if (t.dropBytes? offset).bind List.head? = some '>' then tag else tag ++ ['>']

/-- Behind an open node without a name nothing is inserted. -/
theorem endNameInsertion_of_stopsNameless {d : Document} (nameless : d.StopsNameless offset) :
    d.endNameInsertion t v offset = none := by
  obtain ⟨id, found, is_open, nameless⟩ := nameless
  simp [endNameInsertion, found, is_open, nameless]

/-- **Anywhere else** the end tag of the nearest open element is inserted, if its `</` is found. -/
theorem endNameInsertion_eq (options : CompletionOptions) (named : ¬ (parse v t).StopsNameless offset) :
    (parse v t).endNameInsertion t v offset =
      ((parse v t).nearestOpen? t v options offset).bind fun (tag, start) =>
        if tokenEndsAt v t start .endTagOpen offset then some (withBracket t offset tag) else none := by
  unfold endNameInsertion nearestOpen?
  cases found : (parse v t).nodeBefore offset with
  | none => rfl
  | some id =>
    have known : id < (parse v t).nodes.size := by
      rcases of_nodeBefore found with rfl | ⟨element, -⟩
      · exact (wellFormed_parse v t).root.1
      · exact element.2
    have agree := findSome?_eq_bind_find? known fun _ is_open nameless => named ⟨id, found, is_open, nameless⟩
    have own : CompletionRequest.openAncestor? ⟨t, parse v t, offset, v, options, id⟩ false =
        ((id :: (parse v t).ancestors id).find? fun id =>
          CompletionRequest.isOpenAt offset ((parse v t).node id)).bind fun id =>
            ((parse v t).node id).tag.map (·, ((parse v t).node id).start) := agree
    simp only [Option.bind_eq_bind, Option.bind_some, own, Option.bind_assoc, Option.bind_map]
    rfl

section

variable {s : Tokenizer} {passed : List Token} (passes : (scanner v t).Passes passed s)
  (kind : s.token.kind = .endTagOpen)
  (smooth : ∀ tag start, (parse v t).nearestOpen? t v options s.token.span.stop = some (tag, start) →
    UninterruptedWithin v t start s.token.span.stop)

include kind in
theorem start_lt_of_endTagOpen : s.token.span.start < s.token.span.stop :=
  Tokenizer.position_lt_rest (Tokenizer.ahead_ne_nil kind (by decide)) (by rw [kind]; nofun)
    (by rw [kind]; nofun)

include passes kind smooth in
/-- **Where there is an open element**, completion is at the end tag. -/
theorem exists_place_of_nearestOpen? {start : Nat}
    (nearest : (parse v t).nearestOpen? t v options s.token.span.stop = some (tag, start)) :
    ∃ id name, (parse v t).nodeBefore s.token.span.stop = some id ∧
      (Cursor.locate v t ((parse v t).node id).start s.token.span.stop).place = .endTag name := by
  obtain ⟨id, m, found, -, -, -, outer⟩ := exists_element_of_nearestOpen? nearest
  have starts := start_lt_of_endTagOpen kind
  obtain ⟨-, first, -, s', -, scan, same⟩ := exists_passes_within passes.token_mem starts (Nat.le_refl _)
    (of_nodeBefore found) ((smooth tag start nearest).mono outer)
  rw [← same] at kind starts found ⊢
  obtain ⟨tag', attributeName, located⟩ := locate_of_passes scan starts
  obtain ⟨name, place⟩ := Cursor.place_find_of_endTagOpen tag' attributeName kind
  exact ⟨id, name, found, located ▸ place⟩

include passes kind smooth in
/-- **Which end tag completion pins**: that of the nearest open element. -/
theorem pinsEndTag_iff : (parse v t).PinsEndTag t v options s.token.span.stop tag ↔
    ∃ start, (parse v t).nearestOpen? t v options s.token.span.stop = some (tag, start) := by
  constructor
  · rintro ⟨id, candidates, found, proposed, -, c, mem, pinned, -, label⟩
    have some_open := CompletionRequest.openAncestor?_ne_none_of_pinned proposed mem pinned label
    obtain ⟨⟨tag', start⟩, own⟩ := Option.ne_none_iff_exists'.mp some_open
    have nearest : (parse v t).nearestOpen? t v options s.token.span.stop = some (tag', start) := by
      rw [nearestOpen?, found]
      exact own
    obtain ⟨id', name, found', place⟩ := exists_place_of_nearestOpen? passes kind smooth nearest
    obtain rfl : id' = id := Option.some.inj (found'.symm.trans found)
    rw [CompletionRequest.candidates, place] at proposed
    obtain ⟨tag'', start', own', label'⟩ := CompletionRequest.openAncestor?_of_pinned proposed mem pinned
    obtain ⟨rfl, rfl⟩ := Prod.mk.inj (Option.some.inj (own'.symm.trans own))
    obtain rfl : tag = tag'' := (List.cons.inj (label.symm.trans label')).2
    exact ⟨start', nearest⟩
  · rintro ⟨start, nearest⟩
    -- At this place the end tag of the nearest open element is proposed first.
    obtain ⟨id, name, found, place⟩ := exists_place_of_nearestOpen? passes kind smooth nearest
    have own : CompletionRequest.openAncestor?
        ⟨t, parse v t, s.token.span.stop, v, options, id⟩ false = some (tag, start) := by
      rw [nearestOpen?, found] at nearest
      exact nearest
    have boundary : t.isBoundary s.token.span.stop = true :=
      (passes.at_of_at (scanner_at v t)).rest.isBoundary
    obtain ⟨suggestions, answer⟩ := exists_complete v v t options s.token.span.stop
    have whole := answer
    rw [complete, if_pos boundary, found] at answer
    obtain ⟨candidates, proposed, rfl⟩ := Except.map_eq_ok_iff.mp answer
    have closing := proposed
    rw [CompletionRequest.candidates, place] at closing
    obtain ⟨pinned, closes, mem, -⟩ := CompletionRequest.mem_closeTagCandidates own closing
    exact ⟨id, candidates, found, proposed, whole, pinned, mem,
      CompletionRequest.isPinned_of_closeCandidate closes, CompletionRequest.kind_of_closeCandidate closes,
      (CompletionRequest.closeCandidate_cases closes).1⟩

include passes kind smooth in
/-- The text cut anew from the nearest open element on has the `</` at the cursor. -/
theorem tokenEndsAt_of_nearestOpen? {start : Nat}
    (nearest : (parse v t).nearestOpen? t v options s.token.span.stop = some (tag, start)) :
    tokenEndsAt v t start .endTagOpen s.token.span.stop = true := by
  obtain ⟨-, m, -, element, before, rfl, -⟩ := exists_element_of_nearestOpen? nearest
  obtain ⟨-, first, -, s', -, scan, same⟩ := exists_passes_within passes.token_mem
    (start_lt_of_endTagOpen kind) (Nat.le_refl _) (.inr ⟨element, before⟩) (smooth tag _ nearest)
  exact (tokenEndsAt_iff (by decide)).mpr
    ⟨s'.token, scan.token_mem, same ▸ kind, congrArg (·.span.stop) same⟩

include passes kind smooth in
/-- **The end tag that is inserted is the one that is pinned**, unless the node before the cursor is open and
has no name. The bracket is added unless it is there. -/
theorem tagInsertion_iff_of_passes : (parse v t).tagInsertion t v s.token.span.stop = some inserted ↔
    ¬ (parse v t).StopsNameless s.token.span.stop ∧ ∃ tag,
      (parse v t).PinsEndTag t v options s.token.span.stop tag ∧
      inserted = withBracket t s.token.span.stop tag := by
  have slash := charBefore?_of_endTagOpen (passes.at_of_at (scanner_at v t)) kind
  have here : (parse v t).tagInsertion t v s.token.span.stop =
      (parse v t).endNameInsertion t v s.token.span.stop := by
    rw [tagInsertion, slash]
    rfl
  rw [here]
  by_cases nameless : (parse v t).StopsNameless s.token.span.stop
  · rw [endNameInsertion_of_stopsNameless nameless]
    simp [nameless]
  · rw [endNameInsertion_eq options nameless]
    constructor
    · intro insertion
      obtain ⟨⟨tag, start⟩, nearest, given⟩ := Option.bind_eq_some_iff.mp insertion
      obtain ⟨-, same⟩ := Option.ite_none_right_eq_some.mp given
      obtain rfl := Option.some.inj same
      exact ⟨nameless, tag, (pinsEndTag_iff passes kind smooth).mpr ⟨start, nearest⟩, rfl⟩
    · rintro ⟨-, tag, pins, rfl⟩
      obtain ⟨start, nearest⟩ := (pinsEndTag_iff passes kind smooth).mp pins
      rw [nearest, Option.bind_some]
      exact if_pos (tokenEndsAt_of_nearestOpen? passes kind smooth nearest)

end

/-- **Behind a `</`** the end tag that is inserted is the one that completion pins, unless the node before the
cursor is open and has no name; there nothing is inserted. This is so if no tag is interrupted between the
start of the nearest open element and the cursor. -/
theorem tagInsertion_iff_pinsEndTag {token : Token} (mem : token ∈ tokensOf v t)
    (kind : token.kind = .endTagOpen) (stop : token.span.stop = offset)
    (smooth : ∀ tag start, (parse v t).nearestOpen? t v options offset = some (tag, start) →
      UninterruptedWithin v t start offset) :
    (parse v t).tagInsertion t v offset = some inserted ↔ ¬ (parse v t).StopsNameless offset ∧
      ∃ tag, (parse v t).PinsEndTag t v options offset tag ∧ inserted = withBracket t offset tag := by
  obtain ⟨before, after, split⟩ := List.mem_iff_append.mp mem
  obtain ⟨s, passes, rfl, -⟩ := Tokenizer.passes_of_tokens_eq (s := scanner v t) split
  subst stop
  exact tagInsertion_iff_of_passes passes kind smooth

/-- An element, and the `</` of its end tag. -/
def startedEndTag : Text := "<div></".toList

/-- The rest of the end tag is inserted, and completion pins the same one. -/
theorem tagInsertion_startedEndTag :
    (parse .empty startedEndTag).tagInsertion startedEndTag .empty 7 = some "div>".toList ∧
      (parse .empty startedEndTag).PinsEndTag startedEndTag .empty {} 7 "div".toList := by
  have tokens : tokensOf .empty startedEndTag =
      [⟨.startTagOpen, ⟨0, 1⟩, ['<'], none⟩, ⟨.startTag, ⟨1, 4⟩, "div".toList, none⟩,
        ⟨.startTagClose, ⟨4, 5⟩, ['>'], none⟩, ⟨.endTagOpen, ⟨5, 7⟩, "</".toList, none⟩,
        ⟨.eof, ⟨7, 7⟩, [], none⟩] := by
    decide +kernel
  have mem : ⟨.endTagOpen, ⟨5, 7⟩, "</".toList, none⟩ ∈ tokensOf .empty startedEndTag := by simp [tokens]
  have smooth (tag : Text) (start : Nat)
      (_ : (parse .empty startedEndTag).nearestOpen? startedEndTag .empty {} 7 = some (tag, start)) :
      UninterruptedWithin .empty startedEndTag start 7 := by
    unfold UninterruptedWithin Token.Interrupts
    simp [tokens]
  have insertion : (parse .empty startedEndTag).tagInsertion startedEndTag .empty 7 =
      some "div>".toList := by
    decide +kernel
  obtain ⟨-, tag, pins, bracket⟩ := (tagInsertion_iff_pinsEndTag mem rfl rfl smooth).mp insertion
  have no_bracket : (startedEndTag.dropBytes? 7).bind List.head? ≠ some '>' := by decide
  rw [withBracket, if_neg no_bracket] at bracket
  have bracket : "div".toList ++ ['>'] = tag ++ ['>'] := bracket
  obtain rfl : "div".toList = tag := List.append_cancel_right bracket
  exact ⟨insertion, pins⟩

/-- An end tag behind an element without a name. -/
def endTagBehindNameless : Text := "<div><></x".toList

/-- **Behind an open node without a name** completion pins the end tag of the element around it, but
nothing is inserted. -/
theorem tagInsertion_nameless :
    (∃ token ∈ tokensOf .empty endTagBehindNameless, token.kind = .endTagOpen ∧ token.span.stop = 9) ∧
    (parse .empty endTagBehindNameless).PinsEndTag endTagBehindNameless .empty {} 9 "div".toList ∧
    (parse .empty endTagBehindNameless).tagInsertion endTagBehindNameless .empty 9 = none := by
  have tokens : tokensOf .empty endTagBehindNameless =
      [⟨.startTagOpen, ⟨0, 1⟩, ['<'], none⟩, ⟨.startTag, ⟨1, 4⟩, "div".toList, none⟩,
        ⟨.startTagClose, ⟨4, 5⟩, ['>'], none⟩, ⟨.startTagOpen, ⟨5, 6⟩, ['<'], none⟩,
        ⟨.startTagClose, ⟨6, 7⟩, ['>'], none⟩, ⟨.endTagOpen, ⟨7, 9⟩, "</".toList, none⟩,
        ⟨.endTag, ⟨9, 10⟩, ['x'], none⟩, ⟨.eof, ⟨10, 10⟩, [], none⟩] := by
    decide +kernel
  refine ⟨⟨⟨.endTagOpen, ⟨7, 9⟩, "</".toList, none⟩, by simp [tokens], rfl, rfl⟩, ?_, by decide +kernel⟩
  let pinned : Candidate :=
    { suggestion :=
        { label := "/div".toList, insertText := "/div>".toList, kind := .closeTag, replace := ⟨8, 10⟩,
          filterText := some "/div".toList }
      isPinned := true }
  exact ⟨2, [pinned], by decide +kernel, by decide +kernel, by decide +kernel, pinned,
    List.mem_singleton_self pinned, rfl, rfl, rfl⟩

-- Behind an interrupted tag completion pins the end tag of the element around it, but nothing is inserted:
-- cut anew from that element on, the text is inside the quotes of a value.
example :
    (parse .empty "<div><p <!-- a=\" --><b></b></x".toList).PinsEndTag
        "<div><p <!-- a=\" --><b></b></x".toList .empty {} 29 "div".toList ∧
      (parse .empty "<div><p <!-- a=\" --><b></b></x".toList).tagInsertion
        "<div><p <!-- a=\" --><b></b></x".toList .empty 29 = none := by
  refine ⟨?_, by decide +kernel⟩
  let pinned : Candidate :=
    { suggestion :=
        { label := "/div".toList, insertText := "/div>".toList, kind := .closeTag, replace := ⟨28, 30⟩,
          filterText := some "/div".toList }
      isPinned := true }
  exact ⟨3, [pinned], by decide +kernel, by decide +kernel, by decide +kernel, pinned,
    List.mem_singleton_self pinned, rfl, rfl, rfl⟩

end Document

end MarkupAnalysis
