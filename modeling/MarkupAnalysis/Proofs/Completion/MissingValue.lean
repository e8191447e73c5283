import MarkupAnalysis.Completion.Insertion
import MarkupAnalysis.Proofs.Completion.StartTagPlaces
import MarkupAnalysis.Proofs.Token.Values

/-! # Quotes for a missing value

Behind a `=` that is typed quotes are inserted for the value of an attribute. Whether there is a value
already is asked of one token only, the one right behind the `=`. So the `=` belongs to an attribute of the
tree, as long as no tag is interrupted, and the attribute has no value right there; but it may have one
behind blanks.

* **`Document.exists_of_isMissingValue`** — the tokens that are looked for.
* **`Tokenizer.Passes.eq_of_token_eq`** — a scan comes to a token once.
* **`kind_readAttributeValue`** — whether a value comes next depends on the text only.
* **`Document.AwaitsValue`** — an attribute with a `=` and no value right behind it.
* **`Document.quoteInsertion_awaitsValue`** — quotes are inserted for such an attribute only.
* **`Document.quoteInsertion_before_value`** — and for one with a value. -/

namespace MarkupAnalysis

open Text

/-- **The tokens of a missing value**: a name, its `=`, and something other than a value. -/
theorem Document.exists_of_isMissingValue {assign : Nat} {tokens : List Token}
    (missing : isMissingValue assign tokens = true) :
    ∃ before name next behind after, tokens = before ++ name :: next :: behind :: after ∧
      name.kind = .attributeName ∧ name.span.stop = assign ∧ next.kind = .delimiterAssign ∧
      behind.kind ≠ .attributeValue := by
  -- The search goes on from the second token, so the induction is on what it has not looked at.
  induction tokens with
  | nil => cases missing
  | cons name tokens ih =>
    cases tokens with
    | nil => cases missing
    | cons next rest =>
      rw [isMissingValue] at missing
      split_ifs at missing with passed here
      · cases rest with
        | nil => simp at missing
        | cons behind after =>
          simp only [List.head?_cons, Option.any_some, Bool.and_eq_true, decide_eq_true_eq, ne_eq] at missing
          obtain ⟨kind, stop⟩ : name.kind = .attributeName ∧ name.span.stop = assign := by simpa using here
          obtain ⟨assigns, -, no_value⟩ := missing
          exact ⟨[], name, next, behind, after, rfl, kind, stop, assigns, no_value⟩
      · obtain ⟨before, found, assigns, behind, after, split, rest⟩ := ih missing
        exact ⟨name :: before, found, assigns, behind, after, congrArg (name :: ·) split, rest⟩

/-! ## The token behind the `=` -/

/-- A value in quotes is a value. -/
theorem kind_readQuotedValue (memory : TagMemory) (quote : Char) (t : Text) :
    (readQuotedValue memory quote t).kind = .attributeValue := by
  unfold readQuotedValue
  dsimp only
  split_ifs <;> rfl

/-- **Whether a value comes next** depends on the text only. -/
theorem kind_readAttributeValue {v v' : Vocabulary} {pseudoClose pseudoClose' : Bool}
    {memory memory' : TagMemory} {t : Text}
    (kind : (readAttributeValue v pseudoClose memory t).kind = .attributeValue) :
    (readAttributeValue v' pseudoClose' memory' t).kind = .attributeValue := by
  by_cases blank : 0 < lengthWhile isAsciiBlank t
  · simp only [readAttributeValue, if_pos blank] at kind
    cases kind
  by_cases run : 0 < lengthWhile isUnquotedValueChar t
  · simp only [readAttributeValue, if_neg blank, if_pos run] at kind ⊢
    split_ifs at kind ⊢
    · rfl
    · exact absurd kind (kind_readStartTag_ne_attributeValue _ _ _ _)
  · rw [readAttributeValue_eq v pseudoClose memory blank run] at kind
    rw [readAttributeValue_eq v' pseudoClose' memory' blank run]
    split_ifs at kind ⊢
    · exact kind_readQuotedValue _ _ _
    · exact kind_readQuotedValue _ _ _
    · exact absurd kind (kind_readStartTag_ne_attributeValue _ _ _ _)

namespace Tokenizer

variable {s s' u : Tokenizer} {t : Text} {first first' : List Token}

/-- The tokens to come start with the next one. -/
theorem token_eq_of_tokens_eq {token : Token} {more : List Token} (tokens : s.tokens = token :: more) :
    s.token = token := by
  have split : s.tokens = [] ++ token :: more := tokens
  obtain ⟨s', passes, same, -⟩ := passes_of_tokens_eq split
  cases passes
  exact same

/-- **A scan comes once** to a token with characters. -/
theorem Passes.eq_of_token_eq (h : u.Passes first s) (h' : u.Passes first' s') (same : s.token = s'.token)
    (some_text : s.token.span.start < s.token.span.stop) : first = first' ∧ s = s' := by
  induction h generalizing first' with
  | here u =>
    cases h' with
    | here => exact ⟨rfl, rfl⟩
    | step some_ahead further =>
      -- The other passage is behind the token already.
      have behind : u.rest.position ≤ s'.token.span.start := further.position_le
      rw [← same] at behind
      exact absurd some_text (Nat.not_lt.mpr behind)
  | @step u s first some_ahead further ih =>
    cases h' with
    | here =>
      have behind : s'.rest.position ≤ s.token.span.start := further.position_le
      rw [same] at behind some_text
      exact absurd some_text (Nat.not_lt.mpr behind)
    | step _ further' =>
      obtain ⟨rfl, rfl⟩ := ih further' same some_text
      exact ⟨rfl, rfl⟩

/-- A `=` is read behind a name, and before a value. -/
theorem modes_of_delimiterAssign (kind : s.token.kind = .delimiterAssign) :
    s.mode = .attributeName ∧ s.rest.mode = .attributeValue := by
  have reads := reads (ahead_ne_nil kind (by decide))
  rw [kind] at reads
  generalize s.mode = m, s.rest.mode = m' at reads
  cases reads
  exact ⟨rfl, rfl⟩

/-- At the same place in a text the same text is ahead. -/
theorem At.ahead_eq (h : s.At t) (h' : s'.At t) (same : s.position = s'.position) : s.ahead = s'.ahead := by
  obtain ⟨before, split, start⟩ := h
  obtain ⟨before', split', start'⟩ := h'
  exact (append_left_inj_of_byteLength (split.symm.trans split') (by rw [← start, ← start', same])).2

/-- Two scans of a text that are both before a value read it both, or none does. -/
theorem kind_of_attributeValue (h : s.At t) (h' : s'.At t) (same : s.position = s'.position)
    (mode : s'.mode = .attributeValue) (kind : s.token.kind = .attributeValue) :
    s'.token.kind = .attributeValue := by
  have some_ahead := ahead_ne_nil kind (by decide)
  have ahead := h.ahead_eq h' same
  have own : s.reading.kind = .attributeValue := kind
  rw [reading_eq some_ahead, mode_of_attributeValue kind, readToken, ahead] at own
  show s'.reading.kind = _
  rw [reading_eq (ahead ▸ some_ahead), mode, readToken]
  exact kind_readAttributeValue own

end Tokenizer

/-- Where a `=` comes first, nothing but blanks comes behind it before the value. -/
theorem Text.AssignmentBetween.blankBetween {t rest : Text} {start stop : Nat}
    (between : t.AssignmentBetween start stop) (assigns : t.dropBytes? start = some ('=' :: rest)) :
    t.BlankBetween (start + 1) stop := by
  obtain ⟨blanks, blanks', slice, blank, blank'⟩ := between
  obtain ⟨before, behind, split, own, -⟩ := slice?_eq_some_iff.mp slice
  obtain ⟨before', split', own'⟩ := dropBytes?_eq_some_iff.mp assigns
  rw [split, List.append_assoc] at split'
  have same := (append_left_inj_of_byteLength split' (own.trans own'.symm)).2
  cases blanks with
  | nil =>
    have whole : t.slice? ⟨start, stop⟩ = some (['='] ++ blanks') := slice
    exact ⟨blanks', (slice?_split whole).2, blank'⟩
  | cons c blanks =>
    obtain rfl : c = '=' := (List.cons.inj same).1
    exact absurd (blank '=' List.mem_cons_self) (by decide)

namespace Document

variable {v : Vocabulary} {t : Text} {id : NodeId} {offset : Nat}

/-- **An attribute whose value is missing** at an offset: its name ends before a `=` that ends there, and
its value, if it has one, comes behind blanks. -/
structure AwaitsValue (d : Document) (t : Text) (offset : Nat) (id : NodeId) (a : Attribute) : Prop where
  /-- It is an attribute of the node. -/
  mem : a ∈ (d.node id).attributes
  /-- The `=` comes right behind the name. -/
  assigned : a.nameSpan.stop + 1 = offset ∧ t.slice? ⟨a.nameSpan.stop, offset⟩ = some ['=']
  /-- There are some blanks before a value. -/
  apart : ∀ value, a.value = some value → offset < value.span.start ∧ t.BlankBetween offset value.span.start

/-- An attribute awaits its value behind its name and a `=`, if a scan reads no value there. -/
theorem awaitsValue_of_assign {s : Tokenizer} {a : Attribute} (element : (parse v t).IsElement id)
    (mem : a ∈ ((parse v t).node id).attributes) (stop : a.nameSpan.stop = s.position) (here : s.At t)
    (assigns : s.token.kind = .delimiterAssign) (no_value : s.rest.token.kind ≠ .attributeValue) :
    AwaitsValue (parse v t) t s.rest.position id a := by
  have text := Tokenizer.text_of_delimiterAssign assigns
  have ends : s.position + 1 = s.rest.position := (Tokenizer.position_rest_of_text text).symm
  have slice : t.slice? ⟨s.position, s.rest.position⟩ = some s.token.text := here.slice
  refine ⟨mem, ⟨stop ▸ ends, by rw [stop, slice, text]⟩, fun value given => ?_⟩
  have between := (((attributesStandIn_parse element.2).each a mem).value value given).2
  have ahead : t.dropBytes? s.position = some ('=' :: s.rest.ahead) := by
    obtain ⟨before, split, position⟩ := here
    refine dropBytes?_eq_some_iff.mpr ⟨before, ?_, position.symm⟩
    rw [split, ← s.lexeme_append_ahead_rest]
    exact congrArg (fun text => before ++ (text ++ s.rest.ahead)) text
  rw [stop] at between
  have blank := between.blankBetween ahead
  rw [ends] at blank
  refine ⟨Nat.lt_of_le_of_ne blank.le ?_, blank⟩
  -- A value at the `=` would be read there by every scan that comes by.
  intro at_once
  obtain ⟨passed, s', reads, kind, rfl⟩ := exists_token_of_value mem given
  exact no_value (Tokenizer.kind_of_attributeValue (reads.passes.at_of_at (scanner_at v t)) here.rest
    at_once.symm (Tokenizer.modes_of_delimiterAssign assigns).2 kind)

/-- Behind a name and a `=` there is an attribute with that name in the tree. -/
theorem exists_attribute_of_assign {passed : List Token} {s : Tokenizer}
    (passes : (scanner v t).Passes passed s) (named : s.token.kind = .attributeName)
    (assigns : s.rest.token.kind = .delimiterAssign) :
    ∃ id a, ReadsStartTag v t id (passed ++ [s.token]) s.rest ∧
      a ∈ ((parse v t).node id).attributes ∧ a.nameSpan = s.token.span := by
  have some_name := Tokenizer.ahead_ne_nil named (by decide)
  have inside : s.rest.mode.inStartTag := by
    rw [(Tokenizer.modes_of_delimiterAssign assigns).1]
    rfl
  obtain ⟨id, reads⟩ := exists_readsStartTag (passes.concat some_name)
    (Tokenizer.ahead_ne_nil assigns (by decide)) inside
  -- The name has not opened the start tag, so it is in the same one.
  have reading := reads.reading
  rw [built_concat] at reading
  have before : (built v t passed).startTag = some id :=
    (Builder.startTag_take reading).resolve_left fun opens => nomatch named.symm.trans opens.1
  have name_reads : ReadsStartTag v t id passed s := ⟨passes, some_name, before⟩
  obtain ⟨a, mem, -, span⟩ := name_reads.exists_attribute named
  exact ⟨id, a, reads, mem, span⟩

/-- **The attribute that a missing value is found for**, if no tag is interrupted between the start of the
node before the cursor and the cursor. -/
theorem exists_awaitsValue (some_offset : 0 < offset) (found : (parse v t).nodeBefore offset = some id)
    (smooth : UninterruptedWithin v t ((parse v t).node id).start offset)
    (missing : isMissingValue (offset - 1) (tokenize v t ((parse v t).node id).start) = true) :
    ∃ a, AwaitsValue (parse v t) t offset id a := by
  obtain ⟨before, name, assign, behind, after, split, named, stop, assigns, no_value⟩ :=
    exists_of_isMissingValue missing
  obtain ⟨u, scan, rfl, tokens⟩ := Tokenizer.passes_of_tokens_eq split
  have some_name := Tokenizer.ahead_ne_nil named (by decide)
  rw [Tokenizer.tokens_of_ahead_ne_nil some_name] at tokens
  have tokens := (List.cons.inj tokens).2
  obtain rfl := Tokenizer.token_eq_of_tokens_eq tokens
  have some_assign := Tokenizer.ahead_ne_nil assigns (by decide)
  rw [Tokenizer.tokens_of_ahead_ne_nil some_assign] at tokens
  obtain rfl := Tokenizer.token_eq_of_tokens_eq (List.cons.inj tokens).2
  have scan' := scan.concat some_name
  -- The `=` ends at the cursor, so it is the token of the document there.
  have start : u.rest.position = offset - 1 := stop
  have ends : u.rest.rest.position = offset := by
    rw [Tokenizer.position_rest_of_text (Tokenizer.text_of_delimiterAssign assigns), start]
    exact Nat.sub_add_cancel some_offset
  have starts : u.rest.token.span.start < offset := by
    show u.rest.position < offset
    omega
  have touches : offset ≤ u.rest.token.span.stop := Nat.le_of_eq ends.symm
  obtain ⟨passed₀, s₀, passes₀, same₀⟩ := exists_passes_same scan' starts touches found smooth
  have mem : u.rest.token ∈ tokensOf v t := same₀ ▸ passes₀.token_mem
  -- The document comes to it over the same tokens, the last of which is the name.
  obtain ⟨passed, first, s, s', plain, same, passes, same', -, -⟩ :=
    exists_passes_both mem starts touches found smooth
  obtain ⟨rfl, rfl⟩ := plain.eq_of_token_eq scan' same (same ▸ Nat.lt_of_lt_of_le starts touches)
  rcases passes.last_step with ⟨none_passed, -⟩ | ⟨earlier, b, passes_name, -, split', rfl⟩
  · simp at none_passed
  rw [← List.append_assoc] at split'
  have name_eq : u.token = b.token := (List.cons.inj (List.append_inj' split' rfl).2).1
  obtain ⟨id', a, reads, a_mem, span⟩ := exists_attribute_of_assign passes_name (name_eq ▸ named)
    (same' ▸ assigns)
  obtain rfl : id' = id := Option.some.inj
    ((reads.nodeBefore (same' ▸ starts) (same' ▸ touches)).symm.trans found)
  have here := scan'.at_of_at (Tokenizer.at_start v t _)
  have name_stop : a.nameSpan.stop = u.rest.position := by
    rw [span, ← name_eq]
    rfl
  refine ⟨a, ?_⟩
  rw [← ends]
  exact awaitsValue_of_assign reads.isElement a_mem name_stop here assigns no_value

/-- **Quotes are inserted** right behind the `=` of an attribute, where no value follows at once. This is so
if no tag is interrupted between the start of the node before the cursor and the cursor. -/
theorem quoteInsertion_awaitsValue {options : CompletionOptions} {quotes : Text}
    (smooth : ∀ id, (parse v t).nodeBefore offset = some id →
      UninterruptedWithin v t ((parse v t).node id).start offset)
    (insertion : (parse v t).quoteInsertion t v options offset = some quotes) :
    charBefore? t offset = some '=' ∧ quoteSnippet options.defaultValue = some quotes ∧
      ∃ id a, (parse v t).nodeBefore offset = some id ∧ AwaitsValue (parse v t) t offset id a := by
  unfold quoteInsertion at insertion
  simp only [Option.bind_eq_bind, Option.bind_eq_some_iff, Option.ite_none_right_eq_some,
    Option.some.injEq, Bool.and_eq_true] at insertion
  obtain ⟨snippet, given, assigns, id, found, ⟨-, missing⟩, rfl⟩ := insertion
  have some_offset : 0 < offset := by
    refine Nat.pos_of_ne_zero ?_
    rintro rfl
    cases t <;> cases assigns
  obtain ⟨a, awaits⟩ := exists_awaitsValue some_offset found (smooth id found) missing
  exact ⟨assigns, given, id, a, found, awaits⟩

/-- A start tag with an attribute whose value is missing. -/
def missingValue : Text := "<p a=>".toList

/-- The quotes are those of the attribute. -/
theorem quoteInsertion_missingValue :
    (parse .empty missingValue).quoteInsertion missingValue .empty {} 5 = some "\"$1\"".toList ∧
      ∃ id a, (parse .empty missingValue).nodeBefore 5 = some id ∧
        AwaitsValue (parse .empty missingValue) missingValue 5 id a := by
  have tokens : tokensOf .empty missingValue =
      [⟨.startTagOpen, ⟨0, 1⟩, ['<'], none⟩, ⟨.startTag, ⟨1, 2⟩, ['p'], none⟩,
        ⟨.whitespace, ⟨2, 3⟩, [' '], none⟩, ⟨.attributeName, ⟨3, 4⟩, ['a'], none⟩,
        ⟨.delimiterAssign, ⟨4, 5⟩, ['='], none⟩, ⟨.startTagClose, ⟨5, 6⟩, ['>'], none⟩,
        ⟨.eof, ⟨6, 6⟩, [], none⟩] := by
    decide +kernel
  have smooth (start : Nat) : UninterruptedWithin .empty missingValue start 5 := by
    unfold UninterruptedWithin Token.Interrupts
    simp [tokens]
  have insertion : (parse .empty missingValue).quoteInsertion missingValue .empty {} 5 =
      some "\"$1\"".toList := by
    decide +kernel
  obtain ⟨-, -, awaits⟩ := quoteInsertion_awaitsValue (fun _ _ => smooth _) insertion
  exact ⟨insertion, awaits⟩

/-- A start tag with a blank before the value of its attribute. -/
def spacedValue : Text := "<p a= \"b\">".toList

/-- **Before a blank and a value** quotes are inserted, although the attribute has the value. -/
theorem quoteInsertion_before_value :
    (parse .empty spacedValue).nodes.toList.map (·.attributes.toList) =
      [[], [⟨['a'], ⟨3, 4⟩, some ⟨"\"b\"".toList, ⟨6, 9⟩⟩⟩]] ∧
    (parse .empty spacedValue).quoteInsertion spacedValue .empty {} 5 = some "\"$1\"".toList := by
  constructor <;> decide +kernel

-- Behind an interrupted tag quotes are inserted in a comment, where there is no attribute.
example :
    (parse .empty "<p a <!-- c=".toList).nodes.toList.map (·.attributes.toList) =
        [[], [⟨['a'], ⟨3, 4⟩, none⟩]] ∧
      (parse .empty "<p a <!-- c=".toList).quoteInsertion "<p a <!-- c=".toList .empty {} 12 =
        some "\"$1\"".toList := by
  constructor <;> decide +kernel

end Document

end MarkupAnalysis
