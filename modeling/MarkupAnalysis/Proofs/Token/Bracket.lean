import MarkupAnalysis.Proofs.Token.Casing
import MarkupAnalysis.Proofs.Token.OpaqueBody

/-! # Opaque bodies before a bracket

The body of an embedded element is looked through up to its own end tag. What it finds before a `<` does
not depend on the blanks that stand before this bracket, nor on what comes behind it: names and markers
cannot reach over blanks and a bracket.

* **`BreaksName`** — the characters that a name ends before.
* **`sameMarker_read?`** — a marker of a script body reaches as far, or over all blanks in both texts.
* **`scriptBodyLength_before`**, **`lengthUntil_isEndTagOf_before`** — the two kinds of bodies.
* **`embeddedBodyLength_before`** — a body that ends before the blanks ends there in the other text; one
  that ends at the bracket does so in the other text if an end tag of the element comes there. -/

namespace MarkupAnalysis

open Text

/-! ## What ends a name -/

/-- A word that does not hold a character comes first whatever follows this character. -/
theorem Text.prefix_append_cons_iff {word before rest : Text} {c : Char} (foreign : c ∉ word) :
    word <+: before ++ c :: rest ↔ word <+: before := by
  constructor
  · intro first
    refine List.prefix_of_prefix_length_le first (List.prefix_append _ _) ?_
    by_contra longer
    -- Otherwise the word would reach over the character.
    have reaches : before ++ [c] <+: word := by
      refine List.prefix_of_prefix_length_le ⟨rest, by simp⟩ first ?_
      rw [List.length_append, List.length_singleton]
      omega
    exact foreign (reaches.subset (by simp))
  · intro first
    exact first.trans (List.prefix_append _ _)

/-- A `<` or a blank: the name of a tag ends before it. -/
def BreaksName (c : Char) : Prop := c = '<' ∨ isAsciiBlank c = true

/-- What follows blanks, or a `<`, starts with such a character. -/
theorem exists_breaksName {blanks : Text} (blank : ∀ c ∈ blanks, isAsciiBlank c = true) (rest : Text) :
    ∃ c behind, blanks ++ '<' :: rest = c :: behind ∧ BreaksName c := by
  cases blanks with
  | nil => exact ⟨'<', rest, rfl, .inl rfl⟩
  | cons c blanks => exact ⟨c, blanks ++ '<' :: rest, rfl, .inr (blank c List.mem_cons_self)⟩

namespace BreaksName

variable {c d : Char} {tag before rest : Text}

/-- Other characters break no name. -/
theorem ne (h : BreaksName c) (no_bracket : d ≠ '<') (no_blank : isAsciiBlank d = false) : c ≠ d := by
  rintro rfl
  rcases h with bracket | blank
  · exact no_bracket bracket
  · exact Bool.false_ne_true (no_blank.symm.trans blank)

/-- No name goes on with it. -/
theorem toLower_not_mem (h : BreaksName c) (name : IsTagName tag) : c.toLower ∉ lower tag := by
  intro mem
  have char := name.lower.chars _ mem
  rcases h with rfl | blank
  · exact absurd char (by decide)
  · simp only [isAsciiBlank, Bool.or_eq_true, decide_eq_true_eq] at blank
    rcases blank with (((rfl | rfl) | rfl) | rfl) | rfl <;> exact absurd char (by decide)

/-- A name comes next if it does so before the break. -/
theorem startsWithIgnoringCase (h : BreaksName c) (name : IsTagName tag) (before rest : Text) :
    Text.startsWithIgnoringCase tag (before ++ c :: rest) = Text.startsWithIgnoringCase tag before := by
  have split : lower (before ++ c :: rest) = lower before ++ c.toLower :: lower rest := List.map_append
  rw [Bool.eq_iff_iff, startsWithIgnoringCase_iff, startsWithIgnoringCase_iff, split]
  exact prefix_append_cons_iff (h.toLower_not_mem name)

/-- A literal that does not go on with the character comes next if it does so before it. -/
theorem startsWith (literal : Text) (some_text : before ≠ []) (foreign : c ∉ literal.tail) (rest : Text) :
    Text.startsWith literal (before ++ c :: rest) = Text.startsWith literal before := by
  obtain ⟨first, before, rfl⟩ := List.exists_cons_of_ne_nil some_text
  cases literal with
  | nil => rfl
  | cons l literal =>
    rw [Bool.eq_iff_iff]
    simp only [Text.startsWith, List.isPrefixOf_iff_prefix, List.cons_append, List.cons_prefix_cons]
    exact and_congr_right fun _ => prefix_append_cons_iff foreign

/-- **An end tag that starts before the break** has its name before it. -/
theorem isEndTagOf (h : BreaksName c) (name : IsTagName tag) (some_text : before ≠ []) (rest : Text) :
    MarkupAnalysis.isEndTagOf tag (before ++ c :: rest) = MarkupAnalysis.isEndTagOf tag before := by
  have no_slash : c ≠ '/' := h.ne (by decide) (by decide)
  match before with
  | [] => exact absurd rfl some_text
  | [d] => simp [MarkupAnalysis.isEndTagOf, no_slash]
  | d :: e :: before =>
    rw [isEndTagOf_eq, isEndTagOf_eq, BreaksName.startsWith _ (List.cons_ne_nil _ _) (by simpa using no_slash)]
    exact congrArg _ (h.startsWithIgnoringCase name before rest)

end BreaksName

section body

variable {tag blanks blanks' rest rest' before : Text}

/-! ## Looking ahead before blanks and a bracket -/

section blank

variable (blank : ∀ c ∈ blanks, isAsciiBlank c = true)

include blank in
/-- A name comes next if it does so before the blanks. -/
theorem startsWithIgnoringCase_before_blanks (name : IsTagName tag) (before rest : Text) :
    startsWithIgnoringCase tag (before ++ (blanks ++ '<' :: rest)) = startsWithIgnoringCase tag before := by
  obtain ⟨c, behind, split, breaks⟩ := exists_breaksName blank rest
  rw [split]
  exact breaks.startsWithIgnoringCase name before behind

include blank in
/-- A literal without blanks and `<` behind its first character comes next if it does so before the blanks. -/
theorem startsWith_before_blanks (some_text : before ≠ []) (rest : Text) (literal : Text)
    (foreign : literal.tail.all (fun c => c ≠ '<' && !isAsciiBlank c) = true) :
    startsWith literal (before ++ (blanks ++ '<' :: rest)) = startsWith literal before := by
  obtain ⟨c, behind, split, breaks⟩ := exists_breaksName blank rest
  rw [split]
  refine BreaksName.startsWith literal some_text (fun mem => ?_) behind
  have other := List.all_eq_true.mp foreign c mem
  simp only [Bool.and_eq_true, decide_eq_true_eq, Bool.not_eq_true'] at other
  exact breaks.ne other.1 other.2 rfl

include blank in
/-- An end tag comes next if it does so before the blanks. -/
theorem isEndTagOf_before_blanks (name : IsTagName tag) (some_text : before ≠ []) (rest : Text) :
    isEndTagOf tag (before ++ (blanks ++ '<' :: rest)) = isEndTagOf tag before := by
  obtain ⟨c, behind, split, breaks⟩ := exists_breaksName blank rest
  rw [split]
  exact breaks.isEndTagOf name some_text behind

end blank

/-! ## The body of an embedded element -/

/-- **The same length, or one that reaches up to the bracket** behind the blanks of its text. -/
def SameReach (size : Nat) (blanks blanks' : Text) (n n' : Nat) : Prop :=
  n ≤ size ∧ n' = n ∨ n = size + blanks.length ∧ n' = size + blanks'.length

/-- A text has blanks only, or there is a first other character. -/
theorem blank_or_exists_first (t : Text) : (∀ c ∈ t, isAsciiBlank c = true) ∨
    ∃ first c after, t = first ++ c :: after ∧ (∀ d ∈ first, isAsciiBlank d = true) ∧
      isAsciiBlank c = false := by
  induction t with
  | nil => exact .inl nofun
  | cons c t ih =>
    by_cases blank : isAsciiBlank c = true
    · rcases ih with all | ⟨first, d, after, rfl, blanks, other⟩
      · exact .inl (List.forall_mem_cons.mpr ⟨blank, all⟩)
      · exact .inr ⟨c :: first, d, after, rfl, List.forall_mem_cons.mpr ⟨blank, blanks⟩, other⟩
    · exact .inr ⟨[], c, t, rfl, nofun, Bool.eq_false_iff.mpr blank⟩

/-- What may follow the name in a marker stays in the text. -/
theorem tagTailLength_le (t : Text) : tagTailLength t ≤ t.length := by
  have blanks := lengthWhile_le isAsciiBlank t
  have left : (t.drop (lengthWhile isAsciiBlank t)).length = t.length - lengthWhile isAsciiBlank t :=
    List.length_drop
  rw [tagTailLength_eq]
  split_ifs with whole slash bracket
  · have reaches : 2 ≤ _ := (bounded_startsWith "/>".toList).size_le _ whole
    omega
  · have reaches : 1 ≤ _ := (bounded_startsWith ['/']).size_le _ slash
    omega
  · have reaches : 1 ≤ _ := (bounded_startsWith ['>']).size_le _ bracket
    omega
  · exact blanks

/-- The blanks of a marker go on up to the bracket. -/
theorem tagTailLength_blanks (blank : ∀ c ∈ blanks, isAsciiBlank c = true) (rest : Text) :
    tagTailLength (blanks ++ '<' :: rest) = blanks.length := by
  rw [tagTailLength, lengthWhile_append blanks blank rfl rest, List.drop_left]
  rfl

/-- The blanks of a marker end before another character, whatever blanks and `<` follow later. -/
theorem tagTailLength_before_blanks (blank : ∀ c ∈ blanks, isAsciiBlank c = true) {first after : Text} {c : Char}
    (blank_first : ∀ d ∈ first, isAsciiBlank d = true) (other : isAsciiBlank c = false) (rest : Text) :
    tagTailLength (first ++ c :: after ++ (blanks ++ '<' :: rest)) = tagTailLength (first ++ c :: after) := by
  obtain ⟨d, behind, split, breaks⟩ := exists_breaksName blank rest
  have no_bracket : d ≠ '>' := breaks.ne (by decide) (by decide)
  have run (after : Text) : lengthWhile isAsciiBlank (first ++ c :: after) = first.length :=
    lengthWhile_append first blank_first other after
  rw [split, tagTailLength, tagTailLength, List.append_assoc, List.cons_append, run, run,
    List.drop_left, List.drop_left]
  cases after with
  | nil =>
    by_cases slash : c = '/'
    · simp [slash, no_bracket]
    · by_cases bracket : c = '>' <;> simp [slash, bracket]
  | cons e after =>
    by_cases slash : c = '/'
    · by_cases bracket : e = '>' <;> simp [slash, bracket]
    · by_cases bracket : c = '>' <;> simp [slash, bracket]

/-- What may follow the name in a marker lies before the blanks, or it reaches up to the bracket. -/
theorem sameReach_tagTailLength (blank : ∀ c ∈ blanks, isAsciiBlank c = true)
    (blank' : ∀ c ∈ blanks', isAsciiBlank c = true) (before rest rest' : Text) :
    SameReach before.length blanks blanks' (tagTailLength (before ++ (blanks ++ '<' :: rest)))
      (tagTailLength (before ++ (blanks' ++ '<' :: rest'))) := by
  rcases blank_or_exists_first before with all | ⟨first, c, after, rfl, blank_first, other⟩
  · have tail {blanks : Text} (blank : ∀ c ∈ blanks, isAsciiBlank c = true) (rest : Text) :
        tagTailLength (before ++ (blanks ++ '<' :: rest)) = before.length + blanks.length := by
      rw [← List.append_assoc, tagTailLength_blanks (List.forall_mem_append.mpr ⟨all, blank⟩),
        List.length_append]
    exact .inr ⟨tail blank rest, tail blank' rest'⟩
  · rw [tagTailLength_before_blanks blank blank_first other,
      tagTailLength_before_blanks blank' blank_first other]
    exact .inl ⟨tagTailLength_le _, rfl⟩

/-- **The same marker**, if there is one, and it reaches as far. -/
def SameMarker (size : Nat) (blanks blanks' : Text) (found found' : Option (ScriptMarker × Nat)) : Prop :=
  found = none ∧ found' = none ∨ ∃ marker n n', found = some (marker, n) ∧ found' = some (marker, n') ∧
    0 < n ∧ 0 < n' ∧ SameReach size blanks blanks' n n'

section markers

variable (name : IsTagName tag) (blank : ∀ c ∈ blanks, isAsciiBlank c = true)
  (blank' : ∀ c ∈ blanks', isAsciiBlank c = true) (rest rest' : Text)

include name blank blank' in
/-- A marker with the name of the element. -/
theorem sameMarker_tagMarker? (marker : ScriptMarker) {opening : Nat} (some_opening : 0 < opening)
    (inside : opening ≤ before.length) : SameMarker before.length blanks blanks'
      (tagMarker? tag marker opening ((before ++ (blanks ++ '<' :: rest)).drop opening))
      (tagMarker? tag marker opening ((before ++ (blanks' ++ '<' :: rest')).drop opening)) := by
  have left : (before.drop opening).length = before.length - opening := List.length_drop
  rw [List.drop_append_of_le_length inside, List.drop_append_of_le_length inside]
  unfold tagMarker?
  rw [startsWithIgnoringCase_before_blanks blank name, startsWithIgnoringCase_before_blanks blank' name]
  by_cases own : startsWithIgnoringCase tag (before.drop opening) = true
  · have reaches := (bounded_startsWithIgnoringCase tag).size_le _ own
    rw [if_pos own, if_pos own, List.drop_append_of_le_length reaches,
      List.drop_append_of_le_length reaches]
    have tail := sameReach_tagTailLength blank blank' ((before.drop opening).drop tag.length) rest rest'
    refine .inr ⟨marker, _, _, rfl, rfl, by omega, by omega, ?_⟩
    rw [List.length_drop] at tail
    unfold SameReach at tail ⊢
    omega
  · rw [if_neg own, if_neg own]
    exact .inl ⟨rfl, rfl⟩

include name blank blank' in
/-- **A marker of a script body** that starts before the blanks. -/
theorem sameMarker_read? (some_text : before ≠ []) : SameMarker before.length blanks blanks'
    (ScriptMarker.read? tag (before ++ (blanks ++ '<' :: rest)))
    (ScriptMarker.read? tag (before ++ (blanks' ++ '<' :: rest'))) := by
  have literal := startsWith_before_blanks blank some_text rest
  have literal' := startsWith_before_blanks blank' some_text rest'
  rw [ScriptMarker.read?_eq, ScriptMarker.read?_eq, literal "<!--".toList rfl, literal "</".toList rfl,
    literal ['<'] rfl, literal "-->".toList rfl, literal' "<!--".toList rfl, literal' "</".toList rfl,
    literal' ['<'] rfl, literal' "-->".toList rfl]
  split_ifs with comment end_tag start_tag dashes
  · have reaches := (bounded_startsWith "<!--".toList).size_le _ comment
    exact .inr ⟨_, _, _, rfl, rfl, by decide, by decide, .inl ⟨reaches, rfl⟩⟩
  · have reaches := (bounded_startsWith "</".toList).size_le _ end_tag
    exact sameMarker_tagMarker? name blank blank' rest rest' .endTag (by decide) reaches
  · have some_char := List.length_pos_iff.mpr some_text
    exact sameMarker_tagMarker? name blank blank' rest rest' .startTag (by decide) some_char
  · have reaches := (bounded_startsWith "-->".toList).size_le _ dashes
    exact .inr ⟨_, _, _, rfl, rfl, by decide, by decide, .inl ⟨reaches, rfl⟩⟩
  · exact .inl ⟨rfl, rfl⟩

end markers

/-! ### Script bodies -/

section steps

variable {hidden hidden' : ScriptEscape} {c : Char} {t : Text} {marker : ScriptMarker} {n : Nat}

theorem scriptBodyLength_of_skip (skip : Nat) : scriptBodyLength tag hidden (skip + 1) (c :: t) =
    scriptBodyLength tag hidden skip t + 1 := by
  rw [scriptBodyLength]

theorem scriptBodyLength_of_none (none_here : ScriptMarker.read? tag (c :: t) = none) :
    scriptBodyLength tag hidden 0 (c :: t) = scriptBodyLength tag hidden 0 t + 1 := by
  rw [scriptBodyLength, none_here]

theorem scriptBodyLength_of_last (here : ScriptMarker.read? tag (c :: t) = some (marker, n))
    (last : hidden.after? marker = none) : scriptBodyLength tag hidden 0 (c :: t) = 0 := by
  simp only [scriptBodyLength, here, last]

theorem scriptBodyLength_of_marker (here : ScriptMarker.read? tag (c :: t) = some (marker, n))
    (further : hidden.after? marker = some hidden') :
    scriptBodyLength tag hidden 0 (c :: t) = scriptBodyLength tag hidden' (n - 1) t + 1 := by
  simp only [scriptBodyLength, here, further]

end steps

/-- A script body ends at once at an end tag of the element, where the end tag is not hidden. -/
theorem scriptBodyLength_of_isEndTagOf {hidden : ScriptEscape} {t : Text} (ends : isEndTagOf tag t = true)
    (last : hidden.after? .endTag = none) : scriptBodyLength tag hidden 0 t = 0 := by
  obtain ⟨name, rfl, starts⟩ := isEndTagOf_iff.mp ends
  have here : ScriptMarker.read? tag ('<' :: '/' :: name) =
      some (.endTag, 2 + tag.length + tagTailLength (name.drop tag.length)) := if_pos starts
  exact scriptBodyLength_of_last here last

/-- Blanks are part of a script body. -/
theorem scriptBodyLength_blanks (blank : ∀ c ∈ blanks, isAsciiBlank c = true) (hidden : ScriptEscape)
    (rest : Text) : scriptBodyLength tag hidden 0 (blanks ++ rest) =
      blanks.length + scriptBodyLength tag hidden 0 rest := by
  induction blanks with
  | nil => rw [List.nil_append, List.length_nil, Nat.zero_add]
  | cons c blanks ih =>
    obtain ⟨first, others⟩ := List.forall_mem_cons.mp blank
    have none_here : ScriptMarker.read? tag (c :: (blanks ++ rest)) = none := by
      have bracket : c ≠ '<' := by
        rintro rfl
        cases first
      have dash : c ≠ '-' := by
        rintro rfl
        cases first
      simp [ScriptMarker.read?, bracket, dash]
    rw [List.cons_append, scriptBodyLength_of_none none_here, ih others, List.length_cons]
    omega

/-- The characters of a marker are part of a script body. -/
theorem scriptBodyLength_skip (hidden : ScriptEscape) (skipped rest : Text) :
    scriptBodyLength tag hidden skipped.length (skipped ++ rest) =
      skipped.length + scriptBodyLength tag hidden 0 rest := by
  induction skipped with
  | nil => rw [List.nil_append, List.length_nil, Nat.zero_add]
  | cons c skipped ih =>
    rw [List.cons_append, List.length_cons, scriptBodyLength_of_skip, ih]
    omega

/-- **A script body** ends before the blanks as it does, or it takes them and goes on from the bracket. -/
theorem scriptBodyLength_before (name : IsTagName tag) (blank : ∀ c ∈ blanks, isAsciiBlank c = true)
    (blank' : ∀ c ∈ blanks', isAsciiBlank c = true) (before rest rest' : Text) (hidden : ScriptEscape)
    {skip skip' : Nat} (reach : SameReach before.length blanks blanks' skip skip') :
    (scriptBodyLength tag hidden skip (before ++ (blanks ++ '<' :: rest)) < before.length ∧
        scriptBodyLength tag hidden skip' (before ++ (blanks' ++ '<' :: rest')) =
          scriptBodyLength tag hidden skip (before ++ (blanks ++ '<' :: rest))) ∨
      ∃ hidden',
        scriptBodyLength tag hidden skip (before ++ (blanks ++ '<' :: rest)) = before.length +
          (blanks.length + scriptBodyLength tag hidden' 0 ('<' :: rest)) ∧
        scriptBodyLength tag hidden skip' (before ++ (blanks' ++ '<' :: rest')) = before.length +
          (blanks'.length + scriptBodyLength tag hidden' 0 ('<' :: rest')) := by
  induction before generalizing hidden skip skip' with
  | nil =>
    refine .inr ⟨hidden, ?_⟩
    simp only [List.nil_append, List.length_nil, Nat.zero_add]
    rcases reach with ⟨none_left, same⟩ | ⟨all, all'⟩
    · obtain rfl := Nat.le_zero.mp none_left
      subst same
      exact ⟨scriptBodyLength_blanks blank hidden _, scriptBodyLength_blanks blank' hidden _⟩
    · rw [List.length_nil, Nat.zero_add] at all all'
      subst all all'
      exact ⟨scriptBodyLength_skip hidden blanks _, scriptBodyLength_skip hidden blanks' _⟩
  | cons c before ih =>
    simp only [List.cons_append, List.length_cons]
    match skip, skip' with
    | 0, skip' + 1 | skip + 1, 0 =>
      -- Neither or both are in a marker.
      unfold SameReach at reach
      simp only [List.length_cons] at reach
      omega
    | skip + 1, skip' + 1 =>
      have reach : SameReach before.length blanks blanks' skip skip' := by
        unfold SameReach at reach ⊢
        simp only [List.length_cons] at reach
        omega
      rw [scriptBodyLength_of_skip, scriptBodyLength_of_skip]
      rcases ih hidden reach with ⟨inside, same⟩ | ⟨hidden', upto, upto'⟩
      · exact .inl ⟨by omega, by omega⟩
      · exact .inr ⟨hidden', by omega, by omega⟩
    | 0, 0 =>
      have marker := sameMarker_read? name blank blank' rest rest' (List.cons_ne_nil c before)
      simp only [List.cons_append] at marker
      rcases marker with ⟨none_here, none_here'⟩ | ⟨marker, n, n', here, here', some_n, some_n', reach⟩
      · rw [scriptBodyLength_of_none none_here, scriptBodyLength_of_none none_here']
        rcases ih hidden (.inl ⟨Nat.zero_le _, rfl⟩) with ⟨inside, same⟩ | ⟨hidden', upto, upto'⟩
        · exact .inl ⟨by omega, by omega⟩
        · exact .inr ⟨hidden', by omega, by omega⟩
      · cases further : hidden.after? marker with
        | none =>
          rw [scriptBodyLength_of_last here further, scriptBodyLength_of_last here' further]
          exact .inl ⟨Nat.succ_pos _, rfl⟩
        | some hidden' =>
          have reach : SameReach before.length blanks blanks' (n - 1) (n' - 1) := by
            unfold SameReach at reach ⊢
            simp only [List.length_cons] at reach
            omega
          rw [scriptBodyLength_of_marker here further, scriptBodyLength_of_marker here' further]
          rcases ih hidden' reach with ⟨inside, same⟩ | ⟨hidden', upto, upto'⟩
          · exact .inl ⟨by omega, by omega⟩
          · exact .inr ⟨hidden', by omega, by omega⟩

/-! ### Other bodies -/

/-- **A body that is no script** ends before the blanks as it does, or it takes them and goes on from the
bracket. -/
theorem lengthUntil_isEndTagOf_before (name : IsTagName tag)
    (blank : ∀ c ∈ blanks, isAsciiBlank c = true) (blank' : ∀ c ∈ blanks', isAsciiBlank c = true)
    (before rest rest' : Text) :
    (lengthUntil (isEndTagOf tag) (before ++ (blanks ++ '<' :: rest)) < before.length ∧
        lengthUntil (isEndTagOf tag) (before ++ (blanks' ++ '<' :: rest')) =
          lengthUntil (isEndTagOf tag) (before ++ (blanks ++ '<' :: rest))) ∨
      lengthUntil (isEndTagOf tag) (before ++ (blanks ++ '<' :: rest)) = before.length +
          (blanks.length + lengthUntil (isEndTagOf tag) ('<' :: rest)) ∧
        lengthUntil (isEndTagOf tag) (before ++ (blanks' ++ '<' :: rest')) = before.length +
          (blanks'.length + lengthUntil (isEndTagOf tag) ('<' :: rest')) := by
  have through {blanks : Text} (blank : ∀ c ∈ blanks, isAsciiBlank c = true) (rest : Text) :
      lengthUntil (isEndTagOf tag) (blanks ++ '<' :: rest) =
        blanks.length + lengthUntil (isEndTagOf tag) ('<' :: rest) := by
    refine lengthUntil_append fun first c after split => ?_
    have bracket : c ≠ '<' := by
      rintro rfl
      exact absurd (blank '<' (by simp [split])) (by decide)
    simp [isEndTagOf, bracket]
  induction before with
  | nil =>
    simp only [List.nil_append, List.length_nil, Nat.zero_add]
    exact .inr ⟨through blank rest, through blank' rest'⟩
  | cons c before ih =>
    have first := isEndTagOf_before_blanks blank name (List.cons_ne_nil c before) rest
    have first' := isEndTagOf_before_blanks blank' name (List.cons_ne_nil c before) rest'
    rw [List.cons_append] at first first'
    rw [List.cons_append, List.cons_append, lengthUntil, lengthUntil, first, first', List.length_cons]
    by_cases ends : isEndTagOf tag (c :: before) = true
    · rw [if_pos ends, if_pos ends]
      exact .inl ⟨Nat.succ_pos _, rfl⟩
    · rw [if_neg ends, if_neg ends]
      rcases ih with ⟨inside, same⟩ | ⟨upto, upto'⟩
      · exact .inl ⟨by omega, by omega⟩
      · exact .inr ⟨by omega, by omega⟩

/-- At an end tag of the element a body ends, unless it is a script that hides the end tag. -/
theorem scriptBodyLength_endTag {hidden : ScriptEscape} (stops : scriptBodyLength tag hidden 0 ('<' :: rest) = 0)
    (ends : isEndTagOf tag ('<' :: rest') = true) : scriptBodyLength tag hidden 0 ('<' :: rest') = 0 := by
  have last : hidden.after? .endTag = none := by
    cases here : ScriptMarker.read? tag ('<' :: rest) with
    | none =>
      rw [scriptBodyLength_of_none here] at stops
      cases stops
    | some found =>
      obtain ⟨marker, n⟩ := found
      cases further : hidden.after? marker with
      | none => cases hidden <;> cases marker <;> first | rfl | cases further
      | some hidden' =>
        rw [scriptBodyLength_of_marker here further] at stops
        cases stops
  exact scriptBodyLength_of_isEndTagOf ends last

/-- **The body of an embedded element** that ends before the blanks ends there in the other text. One that
ends at the bracket does so in the other text if an end tag of the element comes there. -/
theorem embeddedBodyLength_before (name : IsTagName tag) (blank : ∀ c ∈ blanks, isAsciiBlank c = true)
    (blank' : ∀ c ∈ blanks', isAsciiBlank c = true)
    (inside : embeddedBodyLength (some tag) (before ++ (blanks ++ '<' :: rest)) ≤
      before.length + blanks.length)
    (ends : embeddedBodyLength (some tag) (before ++ (blanks ++ '<' :: rest)) =
      before.length + blanks.length → isEndTagOf tag ('<' :: rest') = true) :
    (embeddedBodyLength (some tag) (before ++ (blanks ++ '<' :: rest)) < before.length ∧
        embeddedBodyLength (some tag) (before ++ (blanks' ++ '<' :: rest')) =
          embeddedBodyLength (some tag) (before ++ (blanks ++ '<' :: rest))) ∨
      embeddedBodyLength (some tag) (before ++ (blanks ++ '<' :: rest)) =
          before.length + blanks.length ∧
        embeddedBodyLength (some tag) (before ++ (blanks' ++ '<' :: rest')) =
          before.length + blanks'.length := by
  simp only [embeddedBodyLength, Option.getD_some] at inside ends ⊢
  split_ifs at inside ends ⊢
  · rcases scriptBodyLength_before name blank blank' before rest rest' .normal
      (.inl ⟨Nat.zero_le _, rfl⟩) with early | ⟨hidden, upto, upto'⟩
    · exact .inl early
    · have stops : scriptBodyLength tag hidden 0 ('<' :: rest) = 0 := by omega
      have stops' := scriptBodyLength_endTag stops (ends (by omega))
      exact .inr ⟨by omega, by omega⟩
  · rcases lengthUntil_isEndTagOf_before name blank blank' before rest rest' with early | ⟨upto, upto'⟩
    · exact .inl early
    · have stops' : lengthUntil (isEndTagOf tag) ('<' :: rest') = 0 := by
        rw [lengthUntil, if_pos (ends (by omega))]
      exact .inr ⟨by omega, by omega⟩

end body

end MarkupAnalysis
