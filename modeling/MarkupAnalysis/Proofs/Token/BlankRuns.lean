import MarkupAnalysis.Proofs.Token.Bracket
import MarkupAnalysis.Proofs.Token.Lookahead
import MarkupAnalysis.Proofs.Token.Restart
import MarkupAnalysis.Proofs.Token.Spelling

/-! # Runs of blanks before a bracket

A `<` may be moved along its line: another run of blanks then stands before it. Only one token can hold
such a run, and it is text, the body of an embedded element or blanks in a tag. It is read in the same
way over any run of blanks that starts alike, and so is everything before it.

* **`Reading.EndsRun`**, **`readToken_endsRun`** — a token that ends in a blank ends the run of blanks.
* **`StartAlike`** — two runs of blanks of which one may stand for the other.
* **`readToken_before_run`** — what is read before the run does not depend on it.
* **`readToken_over_run`** — the token over the run reaches up to the bracket in both texts. -/

namespace MarkupAnalysis

open Text

/-! ## Where a run of blanks ends -/

section run

variable {v : Vocabulary} {pseudoClose : Bool} {memory : TagMemory} {t : Text}

/-- **A token that ends in a blank ends a run of blanks.** Before a `<` it is text, an opaque body, or the
run itself. -/
def Reading.EndsRun (t : Text) (r : Reading) : Prop :=
  ∀ c ∈ (t.take r.length).getLast?, isAsciiBlank c = true → ∀ d ∈ (t.drop r.length).head?,
    isAsciiBlank d = false ∧
      (d = '<' → r.kind = .content ∨ r.kind = .whitespace ∨ r.kind = .embeddedContent)

namespace Reading.EndsRun

variable {r : Reading}

/-- A token whose last character is no blank cuts no run of blanks. -/
theorem of_last (last : ∀ c ∈ (t.take r.length).getLast?, isAsciiBlank c = false) : r.EndsRun t :=
  fun c mem blank => absurd (blank.symm.trans (last c mem)) nofun

/-- A token without blanks cuts no run of blanks. -/
theorem of_solid (solid : ∀ c ∈ t.take r.length, isAsciiBlank c = false) : r.EndsRun t :=
  of_last fun c last => solid c (List.mem_of_mem_getLast? last)

/-- A token that reaches up to a character that is no blank cuts no run of blanks. -/
theorem of_next {e : Char} (next : ∀ d ∈ (t.drop r.length).head?, d = e) (solid : isAsciiBlank e = false)
    (own : e = '<' → r.kind = .content ∨ r.kind = .whitespace ∨ r.kind = .embeddedContent) :
    r.EndsRun t := by
  intro c _ _ d mem
  obtain rfl := next d mem
  exact ⟨solid, own⟩

/-- A token that is a whole run of blanks cuts none. -/
theorem of_blanks (kind : r.kind = .whitespace) (length : r.length = lengthWhile isAsciiBlank t) :
    r.EndsRun t := by
  intro c _ _ d mem
  rw [length] at mem
  exact ⟨head?_drop_lengthWhile isAsciiBlank t d mem, fun _ => .inr (.inl kind)⟩

end Reading.EndsRun

/-- Characters of a class without blanks are no blanks. -/
theorem solid_of_lengthWhile {accepts : Char → Bool} (solid : ∀ c, isAsciiBlank c = true → accepts c = false) :
    ∀ c ∈ t.take (lengthWhile accepts t), isAsciiBlank c = false := fun c mem =>
  Bool.eq_false_iff.mpr fun blank =>
    absurd ((accepts_of_mem_take mem).symm.trans (solid c blank)) nofun

/-- Where no blank comes next, the next character is none. -/
theorem solid_of_no_blank (no_blank : ¬ 0 < lengthWhile isAsciiBlank t) :
    ∀ c ∈ t.take 1, isAsciiBlank c = false := by
  intro c mem
  cases t with
  | nil => cases mem
  | cons d t =>
    obtain rfl := List.mem_singleton.mp mem
    refine Bool.eq_false_iff.mpr fun blank => no_blank ?_
    simp [lengthWhile, blank]

/-- The characters of a word without blanks are none. -/
theorem solid_of_startsWith {word : Text} (starts : startsWith word t = true)
    (solid : word.all (!isAsciiBlank ·) = true) : ∀ c ∈ t.take word.length, isAsciiBlank c = false := by
  obtain ⟨rest, rfl⟩ := startsWith_iff.mp starts
  intro c mem
  rw [List.take_left] at mem
  simpa using List.all_eq_true.mp solid c mem

theorem isAttributeNameChar_of_blank {c : Char} (blank : isAsciiBlank c = true) :
    isAttributeNameChar c = false := by
  simp [isAttributeNameChar, isBlank_of_isAsciiBlank blank]

theorem isUnquotedValueChar_of_blank {c : Char} (blank : isAsciiBlank c = true) :
    isUnquotedValueChar c = false := by
  simp [isUnquotedValueChar, isBlank_of_isAsciiBlank blank]

/-- The characters of a name that is compared up to its case are no blanks. -/
theorem solid_of_startsWithIgnoringCase {word : Text} (starts : startsWithIgnoringCase word t = true)
    (name : IsTagName word) : ∀ c ∈ t.take word.length, isAsciiBlank c = false := by
  intro c mem
  refine Bool.eq_false_iff.mpr fun blank => ?_
  have same : lower (t.take word.length) = lower word := by
    rw [← length_lower word]
    exact (List.map_take ..).trans (List.prefix_iff_eq_take.mp (startsWithIgnoringCase_iff.mp starts)).symm
  exact BreaksName.toLower_not_mem (.inr blank) name (same ▸ List.mem_map_of_mem mem)

/-- The characters of a name are no blanks. -/
theorem solid_of_tagNameLength (some_name : 0 < tagNameLength t) :
    ∀ c ∈ t.take (tagNameLength t), isAsciiBlank c = false := by
  obtain ⟨tag, rest, rfl, length, name, -⟩ := exists_name_of_tagNameLength_pos some_name
  intro c mem
  rw [← length, List.take_left] at mem
  refine Bool.eq_false_iff.mpr fun blank => ?_
  have char := name.chars c mem
  simp only [isAsciiBlank, Bool.or_eq_true, decide_eq_true_eq] at blank
  rcases blank with (((rfl | rfl) | rfl) | rfl) | rfl <;> exact absurd char (by decide)

theorem readContent_endsRun : (readContent memory t).EndsRun t := by
  rw [readContent_eq]
  split_ifs with comment bang word slash bracket
  · exact .of_solid (solid_of_startsWith comment rfl)
  · refine .of_solid fun c mem => ?_
    obtain ⟨rest, rfl⟩ := startsWith_iff.mp bang
    rcases List.mem_append.mp (@List.take_append _ _ _ 9 ▸ mem) with first | later
    · exact solid_of_startsWith bang rfl c (List.mem_of_mem_take first)
    · have name : IsTagName "doctype".toList := ⟨'d', "octype".toList, rfl, rfl, List.all_eq_true.mp rfl⟩
      exact solid_of_startsWithIgnoringCase word name c later
  · exact .of_solid (solid_of_startsWith bang rfl)
  · exact .of_solid (solid_of_startsWith slash rfl)
  · exact .of_solid (solid_of_startsWith bracket rfl)
  · exact .of_next (head?_drop_lengthUntil '<' t) rfl fun _ => .inl rfl

theorem readComment_endsRun : (readComment memory t).EndsRun t := by
  unfold readComment
  dsimp only
  by_cases stops : startsWith "-->".toList t = true
  · rw [if_pos stops]
    exact .of_solid (solid_of_startsWith stops rfl)
  · rw [if_neg stops]
    refine @Reading.EndsRun.of_next t _ '-' (fun d mem => ?_) rfl nofun
    dsimp only at mem
    rcases lengthUntil_stops (startsWith "-->".toList) t with ended | ends
    · rw [ended] at mem
      cases mem
    · obtain ⟨rest, split⟩ := startsWith_iff.mp ends
      rw [split] at mem
      exact (Option.some_inj.mp mem).symm

theorem readDoctype_endsRun : (readDoctype memory t).EndsRun t := by
  unfold readDoctype
  split_ifs with stops
  · exact .of_solid (solid_of_startsWith stops rfl)
  · exact .of_next (head?_drop_lengthUntil '>' t) rfl nofun

theorem readEmbeddedContent_endsRun : (readEmbeddedContent memory t).EndsRun t := by
  unfold readEmbeddedContent
  dsimp only
  split_ifs
  · refine @Reading.EndsRun.of_next t _ '<' (fun d mem => ?_) rfl fun _ => .inr (.inr rfl)
    dsimp only at mem
    have stops := embeddedBodyLength_stops (memory.embeddedTag.getD []) t
    have same : embeddedBodyLength (some (memory.embeddedTag.getD [])) t =
        embeddedBodyLength memory.embeddedTag t := by cases memory.embeddedTag <;> rfl
    rw [same] at stops
    rcases stops with ended | ends
    · rw [ended] at mem
      cases mem
    · obtain ⟨name, split, -⟩ := isEndTagOf_iff.mp ends
      rw [split] at mem
      exact (Option.some_inj.mp mem).symm
  · exact readContent_endsRun

theorem readEndTag_endsRun : (readEndTag pseudoClose memory t).EndsRun t := by
  unfold readEndTag
  dsimp only
  split_ifs with blanks bracket
  · exact .of_blanks rfl rfl
  · exact .of_solid (solid_of_startsWith bracket rfl)
  · exact .of_last nofun
  · exact .of_solid (solid_of_no_blank blanks)

theorem readEndTagOpened_endsRun : (readEndTagOpened pseudoClose memory t).EndsRun t := by
  unfold readEndTagOpened
  dsimp only
  split_ifs with name blanks junk
  · exact .of_solid (solid_of_tagNameLength name)
  · exact .of_blanks rfl rfl
  · exact .of_next (head?_drop_lengthUntil '>' t) rfl nofun
  · exact readEndTag_endsRun

theorem readStartTag_endsRun : (readStartTag v pseudoClose memory t).EndsRun t := by
  unfold readStartTag
  dsimp only
  have within : (if memory.blankBefore then lengthWhile isAttributeNameChar t else 0) ≤
      lengthWhile isAttributeNameChar t := by
    split_ifs
    · exact Nat.le_refl _
    · exact Nat.zero_le _
  generalize (if memory.blankBefore then lengthWhile isAttributeNameChar t else 0) = name at within
  split_ifs with blanks named slash bracket
  · exact .of_blanks rfl rfl
  · refine .of_solid fun c mem => ?_
    refine @solid_of_lengthWhile t _ @isAttributeNameChar_of_blank c ?_
    exact (List.take_prefix_take_left within).subset mem
  · exact .of_solid (solid_of_startsWith slash rfl)
  · unfold closeStartTag
    split <;> exact .of_solid (solid_of_startsWith bracket rfl)
  · exact .of_last nofun
  · exact .of_solid (solid_of_no_blank blanks)

theorem readStartTagOpened_endsRun : (readStartTagOpened v pseudoClose memory t).EndsRun t := by
  unfold readStartTagOpened
  dsimp only
  split_ifs with name blanks junk
  · exact .of_solid (solid_of_tagNameLength name)
  · exact .of_blanks rfl rfl
  · exact .of_next (head?_drop_lengthUntil '>' t) rfl nofun
  · exact readStartTag_endsRun

theorem readAttributeName_endsRun : (readAttributeName v pseudoClose memory t).EndsRun t := by
  unfold readAttributeName
  dsimp only
  split_ifs with blanks assignment
  · exact .of_blanks rfl rfl
  · exact .of_solid (solid_of_startsWith assignment rfl)
  · exact readStartTag_endsRun

theorem readQuotedValue_endsRun {quote : Char} (solid : isAsciiBlank quote = false) :
    (readQuotedValue memory quote t).EndsRun (quote :: t) := by
  unfold readQuotedValue
  dsimp only
  rcases lengthUntil_stops (startsWith [quote]) t with ended | ends
  · rw [if_pos (by simp [ended])]
    intro c _ _ d mem
    rw [List.drop_succ_cons, ended] at mem
    cases mem
  · obtain ⟨rest, split⟩ := startsWith_iff.mp ends
    rw [if_neg (by simp [split])]
    refine .of_last fun c last => ?_
    have taken : t.take (lengthUntil (startsWith [quote]) t + 1) =
        t.take (lengthUntil (startsWith [quote]) t) ++ [quote] := by
      rw [List.take_add, split]
      rfl
    dsimp only at last
    rw [List.take_succ_cons, taken, ← List.cons_append, List.getLast?_concat] at last
    obtain rfl := Option.some_inj.mp last
    exact solid

theorem readAttributeValue_endsRun : (readAttributeValue v pseudoClose memory t).EndsRun t := by
  unfold readAttributeValue
  dsimp only
  split_ifs with blanks run value
  · exact .of_blanks rfl rfl
  · refine .of_solid fun c mem => ?_
    refine @solid_of_lengthWhile t _ @isUnquotedValueChar_of_blank c ?_
    exact (List.take_prefix_take_left (unquotedValueLength_le t)).subset mem
  · exact readStartTag_endsRun
  · split
    · exact readQuotedValue_endsRun rfl
    · exact readQuotedValue_endsRun rfl
    · exact readStartTag_endsRun

/-- **Every token that ends in a blank ends a run of blanks.** -/
theorem readToken_endsRun (m : Mode) : (readToken v pseudoClose m memory t).EndsRun t := by
  cases m with
  | content => exact readContent_endsRun
  | startTagOpened => exact readStartTagOpened_endsRun
  | endTagOpened => exact readEndTagOpened_endsRun
  | doctype => exact readDoctype_endsRun
  | startTag => exact readStartTag_endsRun
  | endTag => exact readEndTag_endsRun
  | comment => exact readComment_endsRun
  | embeddedContent => exact readEmbeddedContent_endsRun
  | attributeName => exact readAttributeName_endsRun
  | attributeValue => exact readAttributeValue_endsRun

end run

/-! ## Another run of blanks -/

section reindenting

variable {v : Vocabulary} {pseudoClose : Bool} {mode : Mode} {m : TagMemory}
  {tag blanks blanks' before rest rest' : Text}

/-- **Two runs of blanks that start alike**: both are empty, or they start with the same blank. -/
structure StartAlike (blanks blanks' : Text) : Prop where
  /-- The first one has blanks only. -/
  blank : ∀ c ∈ blanks, isAsciiBlank c = true
  /-- The second one has blanks only. -/
  blank' : ∀ c ∈ blanks', isAsciiBlank c = true
  /-- They start alike. -/
  head : blanks'.head? = blanks.head?

namespace StartAlike

/-- Empty runs are alike. -/
theorem nil : StartAlike [] [] := ⟨nofun, nofun, rfl⟩

/-- With one run the other one is empty. -/
theorem eq_nil (h : StartAlike blanks blanks') (nothing : blanks = []) : blanks' = [] := by
  rw [← List.head?_eq_none_iff, h.head, nothing]
  rfl

/-- With one run the other one is not empty. -/
theorem ne_nil (h : StartAlike blanks blanks') (some_run : blanks ≠ []) : blanks' ≠ [] := by
  intro nothing
  rw [nothing] at h
  exact some_run (List.head?_eq_none_iff.mp h.head.symm)

/-- With a bracket behind them the runs start with the same character, and no comment ends there. -/
theorem exists_common (h : StartAlike blanks blanks') (rest rest' : Text) :
    ∃ c t t', blanks ++ '<' :: rest = c :: t ∧ blanks' ++ '<' :: rest' = c :: t' ∧
      (KeepsComments t ∨ c = '<') := by
  cases blanks with
  | nil =>
    rw [h.eq_nil rfl]
    exact ⟨'<', rest, rest', rfl, rfl, .inr rfl⟩
  | cons c blanks =>
    obtain ⟨others, rfl⟩ := List.head?_eq_some_iff.mp h.head
    refine ⟨c, blanks ++ '<' :: rest, others ++ '<' :: rest', rfl, rfl, .inl ?_⟩
    obtain ⟨d, behind, split, breaks⟩ :=
      exists_breaksName (fun e mem => h.blank e (List.mem_cons_of_mem c mem)) rest
    rw [split]
    intro e mem
    obtain rfl := Option.some_inj.mp mem
    exact ⟨breaks.ne (by decide) rfl, breaks.ne (by decide) rfl⟩

end StartAlike

/-- What is short enough is settled by the text before a run and the first character of it. -/
theorem Reading.settledBy_concat {r : Reading} (inside : r.length ≤ before.length) (c : Char) :
    r.SettledBy (before ++ [c]) := by
  refine .inl ?_
  rw [List.length_append]
  exact Nat.lt_succ_of_le inside

/-- In an opaque body. -/
theorem readEmbeddedContent_before_run (alike : StartAlike blanks blanks') (name : IsTagName tag)
    (embedded : m.embeddedTag = some tag)
    (inside : (readEmbeddedContent m (before ++ (blanks ++ '<' :: rest))).length ≤ before.length)
    (declaration : (readEmbeddedContent m (before ++ (blanks ++ '<' :: rest))).kind = .startDoctype →
      '>' ∈ before)
    (ends : blanks = [] →
      (readEmbeddedContent m (before ++ (blanks ++ '<' :: rest))).kind = .embeddedContent →
      (readEmbeddedContent m (before ++ (blanks ++ '<' :: rest))).length = before.length →
      isEndTagOf tag ('<' :: rest') = true) :
    readEmbeddedContent m (before ++ (blanks' ++ '<' :: rest')) =
      readEmbeddedContent m (before ++ (blanks ++ '<' :: rest)) := by
  have reach := @embeddedBodyLength_before tag blanks blanks' rest rest' before name alike.blank alike.blank'
  obtain ⟨c, t, t', split, split', keeps⟩ := alike.exists_common rest rest'
  have common (t : Text) : before ++ c :: t = (before ++ [c]) ++ t := by simp
  unfold readEmbeddedContent at inside declaration ends ⊢
  rw [embedded] at inside declaration ends ⊢
  dsimp only at inside declaration ends ⊢
  by_cases some_body : 0 < embeddedBodyLength (some tag) (before ++ (blanks ++ '<' :: rest))
  · rw [if_pos some_body] at inside ends
    dsimp only at inside ends
    have nothing (reaches : embeddedBodyLength (some tag) (before ++ (blanks ++ '<' :: rest)) =
        before.length + blanks.length) : blanks = [] := List.eq_nil_of_length_eq_zero (by omega)
    have same : embeddedBodyLength (some tag) (before ++ (blanks' ++ '<' :: rest')) =
        embeddedBodyLength (some tag) (before ++ (blanks ++ '<' :: rest)) := by
      have at_bracket (reaches : embeddedBodyLength (some tag) (before ++ (blanks ++ '<' :: rest)) =
          before.length + blanks.length) : isEndTagOf tag ('<' :: rest') = true := by
        refine ends (nothing reaches) rfl ?_
        rw [reaches, nothing reaches]
        rfl
      rcases reach (Nat.le_add_right_of_le inside) at_bracket with ⟨-, same⟩ | ⟨upto, upto'⟩
      · exact same
      · rw [upto, upto', nothing upto, alike.eq_nil (nothing upto)]
    rw [same, if_pos some_body, if_pos some_body]
  · rw [if_neg some_body] at inside declaration
    -- Content takes at least one character, so the run is not what comes next.
    have some_text : before ≠ [] := by
      rintro rfl
      rw [List.nil_append, split] at inside
      exact absurd (readContent_length_pos m c t) (Nat.not_lt.mpr inside)
    have some_char := List.length_pos_iff.mpr some_text
    have none_here := Nat.eq_zero_of_not_pos some_body
    have none_here' : embeddedBodyLength (some tag) (before ++ (blanks' ++ '<' :: rest')) = 0 := by
      rcases reach (by omega) (fun reaches => by omega) with ⟨-, same⟩ | ⟨upto, -⟩
      · exact same.trans none_here
      · omega
    rw [none_here', none_here, if_neg (Nat.lt_irrefl 0), if_neg (Nat.lt_irrefl 0)]
    rw [split, common t] at inside declaration ⊢
    rw [split', common t']
    exact readContent_congr (by simp) (Reading.settledBy_concat inside c)
      (fun kind => List.mem_append_left _ (declaration kind)) t'

/-- **What is read before a run of blanks and a `<`** does not depend on the run and on what comes behind
the bracket. Where an opaque body ends at the bracket, it has to be an end tag of the element. -/
theorem readToken_before_run (alike : StartAlike blanks blanks')
    (body : mode = .embeddedContent → ∃ tag, m.embeddedTag = some tag ∧ IsTagName tag ∧
      (blanks = [] →
        (readToken v pseudoClose mode m (before ++ (blanks ++ '<' :: rest))).kind = .embeddedContent →
        (readToken v pseudoClose mode m (before ++ (blanks ++ '<' :: rest))).length = before.length →
        isEndTagOf tag ('<' :: rest') = true))
    (inside : (readToken v pseudoClose mode m (before ++ (blanks ++ '<' :: rest))).length ≤ before.length)
    (declaration : (readToken v pseudoClose mode m (before ++ (blanks ++ '<' :: rest))).kind =
      .startDoctype → '>' ∈ before) :
    readToken v pseudoClose mode m (before ++ (blanks' ++ '<' :: rest')) =
      readToken v pseudoClose mode m (before ++ (blanks ++ '<' :: rest)) := by
  by_cases embedded : mode = .embeddedContent
  · subst embedded
    obtain ⟨tag, own, name, ends⟩ := body rfl
    exact readEmbeddedContent_before_run alike name own inside declaration ends
  · obtain ⟨c, t, t', split, split', keeps⟩ := alike.exists_common rest rest'
    have common (t : Text) : before ++ c :: t = (before ++ [c]) ++ t := by simp
    rw [split, common t] at inside declaration ⊢
    rw [split', common t']
    exact readToken_congr (keeps.imp_right fun bracket => by simp [bracket])
      (fun body => absurd body embedded) (by simp) (Reading.settledBy_concat inside c)
      (fun kind => List.mem_append_left _ (declaration kind)) t'

/-! ### The token over a run -/

/-- **Blanks in a tag** are one token, whatever their number. -/
theorem exists_readToken_blanks (inside : mode.inStartTag ∨ mode.inEndTag) (v : Vocabulary)
    (pseudoClose : Bool) (m : TagMemory) : ∃ mode' m' error, ∀ blanks rest : Text, blanks ≠ [] →
      (∀ c ∈ blanks, isAsciiBlank c = true) → (∀ c ∈ rest.head?, isAsciiBlank c = false) →
        readToken v pseudoClose mode m (blanks ++ rest) =
          ⟨.whitespace, blanks.length, mode', m', error⟩ := by
  have run {blanks rest : Text} (some_blank : blanks ≠ []) (blank : ∀ c ∈ blanks, isAsciiBlank c = true)
      (stops : ∀ c ∈ rest.head?, isAsciiBlank c = false) :
      lengthWhile isAsciiBlank (blanks ++ rest) = blanks.length ∧ 0 < blanks.length :=
    ⟨lengthWhile_of_ends blank stops, List.length_pos_iff.mpr some_blank⟩
  cases mode with
  | content | doctype | comment | embeddedContent => rcases inside with inside | inside <;> cases inside
  | startTagOpened =>
    exact ⟨_, _, _, fun blanks rest some_blank blank stops =>
      readStartTagOpened_blanks some_blank blank stops⟩
  | endTagOpened =>
    exact ⟨_, _, _, fun blanks rest some_blank blank stops =>
      readEndTagOpened_blanks some_blank blank stops⟩
  | startTag =>
    refine ⟨.startTag, { m with blankBefore := true }, none, fun blanks rest some_blank blank stops => ?_⟩
    obtain ⟨run, pos⟩ := run some_blank blank stops
    simp only [readToken, readStartTag, run]
    exact if_pos pos
  | endTag =>
    refine ⟨.endTag, m, none, fun blanks rest some_blank blank stops => ?_⟩
    obtain ⟨run, pos⟩ := run some_blank blank stops
    simp only [readToken, readEndTag, run]
    exact if_pos pos
  | attributeName =>
    refine ⟨.attributeName, { m with blankBefore := true }, none, fun blanks rest some_blank blank stops => ?_⟩
    obtain ⟨run, pos⟩ := run some_blank blank stops
    simp only [readToken, readAttributeName, run]
    exact if_pos pos
  | attributeValue =>
    refine ⟨.attributeValue, m, none, fun blanks rest some_blank blank stops => ?_⟩
    obtain ⟨run, pos⟩ := run some_blank blank stops
    simp only [readToken, readAttributeValue, run]
    exact if_pos pos

/-- **A token that ends in a run of blanks before a `<`** takes all of it; it is text, the run itself or an
opaque body. -/
theorem reaches_of_over_run (blank : ∀ c ∈ blanks, isAsciiBlank c = true)
    (beyond : before.length < (readToken v pseudoClose mode m (before ++ (blanks ++ '<' :: rest))).length)
    (inside : (readToken v pseudoClose mode m (before ++ (blanks ++ '<' :: rest))).length ≤
      before.length + blanks.length) :
    (readToken v pseudoClose mode m (before ++ (blanks ++ '<' :: rest))).length =
        before.length + blanks.length ∧
      ((readToken v pseudoClose mode m (before ++ (blanks ++ '<' :: rest))).kind = .content ∨
        (readToken v pseudoClose mode m (before ++ (blanks ++ '<' :: rest))).kind = .whitespace ∨
        (readToken v pseudoClose mode m (before ++ (blanks ++ '<' :: rest))).kind = .embeddedContent) := by
  have ends := @readToken_endsRun v pseudoClose m (before ++ (blanks ++ '<' :: rest)) mode
  generalize readToken v pseudoClose mode m (before ++ (blanks ++ '<' :: rest)) = r at beyond inside ends ⊢
  obtain ⟨first, c, later, rfl, length⟩ : ∃ first c later, blanks = first ++ c :: later ∧
      r.length = (before ++ (first ++ [c])).length := by
    have known : r.length - before.length - 1 < blanks.length := by omega
    refine ⟨blanks.take (r.length - before.length - 1), blanks[r.length - before.length - 1],
      blanks.drop (r.length - before.length - 1 + 1), ?_, ?_⟩
    · rw [List.getElem_cons_drop, List.take_append_drop]
    · simp only [List.length_append, List.length_take, List.length_singleton]
      omega
  have split : before ++ (first ++ c :: later ++ '<' :: rest) =
      (before ++ (first ++ [c])) ++ (later ++ '<' :: rest) := by simp
  unfold Reading.EndsRun at ends
  rw [split, length, List.take_left, List.drop_left] at ends
  have next := ends c (by simp) (blank c (by simp))
  cases later with
  | nil =>
    refine ⟨?_, (next '<' rfl).2 rfl⟩
    rw [length]
    simp
  | cons d later => exact absurd ((blank d (by simp)).symm.trans (next d rfl).1) nofun

/-- Text between tags starts with no `<`. -/
theorem ne_bracket_of_readContent {c : Char} {t : Text} (text : (readContent m (c :: t)).kind = .content) :
    c ≠ '<' := by
  rintro rfl
  rw [readContent_eq] at text
  split_ifs at text with comment bang slash bracket
  exact bracket rfl

/-- An opaque body leads to an end tag and not to text. -/
theorem readEmbeddedContent_kind_ne {t : Text} (embedded : m.embeddedTag = some tag) (some_ahead : t ≠ []) :
    (readEmbeddedContent m t).kind ≠ .content := by
  unfold readEmbeddedContent
  rw [embedded]
  dsimp only
  split_ifs with some_body
  · exact nofun
  · have stops := embeddedBodyLength_stops tag t
    rw [Nat.eq_zero_of_not_pos some_body, List.drop_zero] at stops
    obtain ⟨name, rfl, -⟩ := isEndTagOf_iff.mp (stops.resolve_left some_ahead)
    intro text
    exact ne_bracket_of_readContent text rfl

/-- A character that is looked for stands not before the place where it is found. -/
theorem Text.not_mem_of_le_lengthUntil {c : Char} {t : Text}
    (reaches : before.length ≤ lengthUntil (startsWith [c]) (before ++ t)) : c ∉ before := by
  intro mem
  obtain ⟨first, later, rfl, absent⟩ := List.eq_append_cons_of_mem mem
  have found : lengthUntil (startsWith [c]) (c :: (later ++ t)) = 0 := if_pos (by simp [startsWith])
  rw [List.append_assoc, List.cons_append, lengthUntil_char absent, found, List.length_append,
    List.length_cons] at reaches
  omega

/-- The number of characters of text before a run and a `<`. -/
theorem lengthUntil_over_run (absent : '<' ∉ before) (blank : ∀ c ∈ blanks, isAsciiBlank c = true)
    (rest : Text) : lengthUntil (startsWith ['<']) (before ++ (blanks ++ '<' :: rest)) =
      before.length + blanks.length := by
  have none_blank : '<' ∉ blanks := fun mem => absurd (blank '<' mem) (by decide)
  have found : lengthUntil (startsWith ['<']) ('<' :: rest) = 0 := if_pos (by simp [startsWith])
  rw [lengthUntil_char absent, lengthUntil_char none_blank, found, Nat.add_zero]

/-- Text over a run of blanks. -/
theorem readContent_over_run (alike : StartAlike blanks blanks')
    (text : (readContent m (before ++ (blanks ++ '<' :: rest))).kind = .content)
    (beyond : before.length < (readContent m (before ++ (blanks ++ '<' :: rest))).length) :
    readContent m (before ++ (blanks' ++ '<' :: rest')) =
      { readContent m (before ++ (blanks ++ '<' :: rest)) with
        length := before.length + blanks'.length } := by
  obtain ⟨c, t, t', split, split'⟩ : ∃ c t t', before ++ (blanks ++ '<' :: rest) = c :: t ∧
      before ++ (blanks' ++ '<' :: rest') = c :: t' := by
    cases before with
    | nil =>
      obtain ⟨c, t, t', split, split', -⟩ := alike.exists_common rest rest'
      exact ⟨c, t, t', split, split'⟩
    | cons c before => exact ⟨c, _, _, rfl, rfl⟩
  have no_tag : c ≠ '<' := by
    rw [split] at text
    exact ne_bracket_of_readContent text
  have read := @readContent_text m c no_tag t
  have read' := @readContent_text m c no_tag t'
  rw [← split] at read
  rw [← split'] at read'
  have absent : '<' ∉ before := by
    rw [read] at beyond
    exact not_mem_of_le_lengthUntil (Nat.le_of_lt beyond)
  rw [read', read, lengthUntil_over_run absent alike.blank']

/-- The run itself, with blanks before it. -/
theorem readToken_blanks_over_run (alike : StartAlike blanks blanks') (some_run : blanks ≠ [])
    (kind : (readToken v pseudoClose mode m (before ++ (blanks ++ '<' :: rest))).kind = .whitespace)
    (length : (readToken v pseudoClose mode m (before ++ (blanks ++ '<' :: rest))).length =
      before.length + blanks.length) :
    readToken v pseudoClose mode m (before ++ (blanks' ++ '<' :: rest')) =
      { readToken v pseudoClose mode m (before ++ (blanks ++ '<' :: rest)) with
        length := before.length + blanks'.length } := by
  have blank : ∀ c ∈ before ++ blanks, isAsciiBlank c = true := by
    have spells := (@readToken_spelled v pseudoClose m (before ++ (blanks ++ '<' :: rest)) mode).spells
    rw [kind, length, ← List.append_assoc, ← List.length_append, List.take_left] at spells
    exact spells
  have blank' : ∀ c ∈ before ++ blanks', isAsciiBlank c = true := fun c mem =>
    (List.mem_append.mp mem).elim (fun early => blank c (List.mem_append_left _ early)) (alike.blank' c)
  have in_tag : mode.inStartTag ∨ mode.inEndTag := by
    have reads := readToken_reads v pseudoClose m mode (t := before ++ (blanks ++ '<' :: rest)) (by simp)
    rw [kind] at reads
    generalize (readToken v pseudoClose mode m (before ++ (blanks ++ '<' :: rest))).mode = mode' at reads
    cases reads with
    | startTagBlank inside => exact .inl inside
    | endTagBlank inside => exact .inr inside
  obtain ⟨mode', m', error, read⟩ := exists_readToken_blanks in_tag v pseudoClose m
  have stops (rest : Text) : ∀ c ∈ ('<' :: rest).head?, isAsciiBlank c = false := by simp [isAsciiBlank]
  rw [← List.append_assoc, ← List.append_assoc,
    read _ _ (List.append_ne_nil_of_right_ne_nil _ some_run) blank (stops rest),
    read _ _ (List.append_ne_nil_of_right_ne_nil _ (alike.ne_nil some_run)) blank' (stops rest'),
    List.length_append]

/-- An opaque body over a run of blanks. -/
theorem readEmbeddedContent_over_run (alike : StartAlike blanks blanks') (some_run : blanks ≠ [])
    (name : IsTagName tag) (embedded : m.embeddedTag = some tag)
    (kind : (readEmbeddedContent m (before ++ (blanks ++ '<' :: rest))).kind = .embeddedContent)
    (length : (readEmbeddedContent m (before ++ (blanks ++ '<' :: rest))).length =
      before.length + blanks.length)
    (ends : isEndTagOf tag ('<' :: rest') = true) :
    readEmbeddedContent m (before ++ (blanks' ++ '<' :: rest')) =
      { readEmbeddedContent m (before ++ (blanks ++ '<' :: rest)) with
        length := before.length + blanks'.length } := by
  have read : readEmbeddedContent m (before ++ (blanks ++ '<' :: rest)) =
      ⟨.embeddedContent, embeddedBodyLength (some tag) (before ++ (blanks ++ '<' :: rest)), .content, m,
        none⟩ := by
    unfold readEmbeddedContent at kind ⊢
    rw [embedded] at kind ⊢
    dsimp only at kind ⊢
    refine if_pos ?_
    by_contra none_here
    rw [if_neg none_here] at kind
    have reads := readContent_reads m (m := .content) rfl (before ++ (blanks ++ '<' :: rest))
    rw [kind] at reads
    cases reads
  rw [read] at length
  have some_blank := List.length_pos_iff.mpr some_run
  have some_blank' := List.length_pos_iff.mpr (alike.ne_nil some_run)
  rcases embeddedBodyLength_before name alike.blank alike.blank' (Nat.le_of_eq length) (fun _ => ends) with
    ⟨early, -⟩ | ⟨-, length'⟩
  · dsimp only at length
    omega
  · rw [read, readEmbeddedContent, embedded]
    dsimp only
    rw [length', if_pos (by omega)]

/-- **The token over a run of blanks** is the same over another run. An opaque body has to be followed by
an end tag of its element. -/
theorem readToken_over_run (alike : StartAlike blanks blanks')
    (body : mode = .embeddedContent → ∃ tag, m.embeddedTag = some tag ∧ IsTagName tag ∧
      ((readToken v pseudoClose mode m (before ++ (blanks ++ '<' :: rest))).kind = .embeddedContent →
        isEndTagOf tag ('<' :: rest') = true))
    (beyond : before.length < (readToken v pseudoClose mode m (before ++ (blanks ++ '<' :: rest))).length)
    (inside : (readToken v pseudoClose mode m (before ++ (blanks ++ '<' :: rest))).length ≤
      before.length + blanks.length) :
    readToken v pseudoClose mode m (before ++ (blanks' ++ '<' :: rest')) =
      { readToken v pseudoClose mode m (before ++ (blanks ++ '<' :: rest)) with
        length := before.length + blanks'.length } := by
  obtain ⟨length, kind⟩ := reaches_of_over_run alike.blank beyond inside
  have some_run : blanks ≠ [] := List.length_pos_iff.mp (by omega)
  have some_ahead : before ++ (blanks ++ '<' :: rest) ≠ [] := by simp
  have reads := readToken_reads v pseudoClose m mode some_ahead
  rcases kind with text | run | opaque_body
  · have between : mode.betweenTags := by
      rw [text] at reads
      generalize (readToken v pseudoClose mode m (before ++ (blanks ++ '<' :: rest))).mode = mode' at reads
      cases reads
      assumption
    cases mode with
    | content => exact readContent_over_run alike text beyond
    | embeddedContent =>
      obtain ⟨tag, own, -⟩ := body rfl
      exact absurd text (readEmbeddedContent_kind_ne own some_ahead)
    | _ => cases between
  · exact readToken_blanks_over_run alike some_run run length
  · have embedded : mode = .embeddedContent := by
      rw [opaque_body] at reads
      generalize (readToken v pseudoClose mode m (before ++ (blanks ++ '<' :: rest))).mode = mode' at reads
      cases reads
      rfl
    subst embedded
    obtain ⟨tag, own, name, ends⟩ := body rfl
    exact readEmbeddedContent_over_run alike some_run name own opaque_body length (ends opaque_body)

end reindenting

end MarkupAnalysis
