import Mathlib.Data.Set.Card
import MarkupAnalysis.Proofs.Text.Boundary
import MarkupAnalysis.Proofs.Text.Lines

/-! # Line terminators

A line ends with a carriage return and a line feed behind it, which count once, or with one of the two alone.
Each terminator starts one more line, so the line of an offset counts the terminators that end no later.

* **`Text.IsTerminator`**, **`Text.IsTerminator.eq_of_stop_eq`** — what ends a line.
* **`Text.exists_endsLine_iff`** — where a terminator ends is told by the characters around the place.
* **`Lines.mem_startsBehind_zero_iff`** — lines start where terminators end.
* **`Lines.encard_terminators`** — the line of an offset as a number of terminators.
* **`Lines.of_exact`** — lines and offsets. -/

namespace MarkupAnalysis

namespace Text

variable {t before terminator front after : Text}

/-! ## What ends a line -/

/-- **What ends a line** between two texts: both characters in their order, or one of them without the other
one beside it. -/
inductive EndsLine : (before terminator after : Text) → Prop
  /-- Both characters count once. -/
  | both (before after : Text) : EndsLine before ['\r', '\n'] after
  /-- A carriage return without a line feed behind it. -/
  | carriageReturn {before after : Text} (alone : after.head? ≠ some '\n') : EndsLine before ['\r'] after
  /-- A line feed without a carriage return before it. -/
  | lineFeed {before after : Text} (alone : before.getLast? ≠ some '\r') : EndsLine before ['\n'] after

/-- **The line terminators** of a text, by their spans. -/
def IsTerminator (t : Text) (s : Span) : Prop :=
  ∃ before terminator after, t = before ++ terminator ++ after ∧ EndsLine before terminator after ∧
    s = ⟨byteLength before, byteLength (before ++ terminator)⟩

/-- **At each place one terminator ends at most.** -/
theorem EndsLine.unique {before' terminator' : Text} (ends : EndsLine before terminator after)
    (ends' : EndsLine before' terminator' after) (same : before ++ terminator = before' ++ terminator') :
    before = before' ∧ terminator = terminator' := by
  have both_or_feed {before before' : Text} (alone : before'.getLast? ≠ some '\r') :
      before ++ ['\r', '\n'] ≠ before' ++ ['\n'] := by
    intro same
    rw [List.append_cons] at same
    exact alone (by rw [← (List.append_inj' same rfl).1, List.getLast?_concat])
  have last := congrArg List.getLast? same
  cases ends with
  | both =>
    cases ends' with
    | both => exact List.append_inj' same rfl
    | carriageReturn => simp at last
    | lineFeed alone => exact absurd same (both_or_feed alone)
  | carriageReturn =>
    cases ends' with
    | both => simp at last
    | carriageReturn => exact List.append_inj' same rfl
    | lineFeed => simp at last
  | lineFeed alone =>
    cases ends' with
    | both => exact absurd same.symm (both_or_feed alone)
    | carriageReturn => simp at last
    | lineFeed => exact List.append_inj' same rfl

/-- A terminator is known by where it ends. -/
theorem IsTerminator.eq_of_stop_eq {s s' : Span} (h : t.IsTerminator s) (h' : t.IsTerminator s')
    (same : s.stop = s'.stop) : s = s' := by
  obtain ⟨before, terminator, after, rfl, ends, rfl⟩ := h
  obtain ⟨before', terminator', after', split, ends', rfl⟩ := h'
  obtain ⟨whole, rfl⟩ := append_left_inj_of_byteLength split same
  obtain ⟨rfl, rfl⟩ := ends.unique ends' whole
  rfl

/-! ## Where a line ends -/

/-- A line ends between two texts. -/
def LineEndsBetween (front after : Text) : Prop :=
  front.getLast? = some '\n' ∨ front.getLast? = some '\r' ∧ after.head? ≠ some '\n'

/-- **Where a terminator ends** is told by the characters around the place. -/
theorem exists_endsLine_iff :
    (∃ before terminator, front = before ++ terminator ∧ EndsLine before terminator after) ↔
      LineEndsBetween front after := by
  constructor
  · rintro ⟨before, terminator, rfl, ends⟩
    cases ends with
    | both => exact .inl (by simp)
    | carriageReturn alone => exact .inr ⟨List.getLast?_concat, alone⟩
    | lineFeed alone => exact .inl List.getLast?_concat
  · rintro (feed | ⟨carriage_return, alone⟩)
    · obtain ⟨front, rfl⟩ := List.getLast?_eq_some_iff.mp feed
      by_cases beside : front.getLast? = some '\r'
      · obtain ⟨before, rfl⟩ := List.getLast?_eq_some_iff.mp beside
        exact ⟨before, ['\r', '\n'], by simp, .both before after⟩
      · exact ⟨front, ['\n'], rfl, .lineFeed beside⟩
    · obtain ⟨before, rfl⟩ := List.getLast?_eq_some_iff.mp carriage_return
      exact ⟨before, ['\r'], rfl, .carriageReturn alone⟩

/-- The first place at which a line may end is behind the first character. -/
theorem exists_lineEndsBetween_cons {c : Char} {cs : Text} {offset place : Nat} :
    (∃ front after, c :: cs = front ++ after ∧ LineEndsBetween front after ∧
      place = offset + byteLength front) ↔
    (LineEndsBetween [c] cs ∧ place = offset + c.utf8Size) ∨
      ∃ front after, cs = front ++ after ∧ LineEndsBetween front after ∧
        place = offset + c.utf8Size + byteLength front := by
  have further (d : Char) (front after : Text) :
      LineEndsBetween (c :: d :: front) after ↔ LineEndsBetween (d :: front) after := by
    rw [LineEndsBetween, LineEndsBetween, List.getLast?_cons_cons]
  constructor
  · rintro ⟨front, after, split, ends, rfl⟩
    match front with
    | [] => simp [LineEndsBetween] at ends
    | [d] =>
      obtain ⟨rfl, rfl⟩ := List.cons.inj split
      exact .inl ⟨ends, by simp⟩
    | d :: e :: front =>
      obtain ⟨rfl, split'⟩ := List.cons.inj split
      exact .inr ⟨e :: front, after, split', (further e front after).mp ends, by simp [Nat.add_assoc]⟩
  · rintro (⟨ends, rfl⟩ | ⟨front, after, rfl, ends, rfl⟩)
    · exact ⟨[c], cs, rfl, ends, by simp⟩
    · cases front with
      | nil => simp [LineEndsBetween] at ends
      | cons d front =>
        exact ⟨c :: d :: front, after, rfl, (further d front after).mpr ends, by simp [Nat.add_assoc]⟩

/-- One character ends a line unless both stand together. -/
theorem lineEndsBetween_singleton_iff {c : Char} {cs : Text}
    (not_both : ∀ cs', c = '\r' → cs = '\n' :: cs' → False) :
    LineEndsBetween [c] cs ↔ (c = '\r' || c = '\n') = true := by
  have alone : c = '\r' → cs.head? ≠ some '\n' := by
    intro carriage_return first
    obtain ⟨cs', rfl⟩ := List.head?_eq_some_iff.mp first
    exact not_both cs' carriage_return rfl
  simp only [LineEndsBetween, List.getLast?_singleton, Option.some.injEq, Bool.or_eq_true,
    decide_eq_true_eq]
  tauto

end Text

namespace Lines

open Text

/-- The search finds the places at which a line ends. -/
theorem mem_startsBehind_iff {offset start : Nat} {t : Text} : start ∈ startsBehind offset t ↔
    ∃ front after, t = front ++ after ∧ LineEndsBetween front after ∧
      start = offset + byteLength front := by
  -- The recursion of the search: no text, both characters that end a line, one of them, any other one.
  induction offset, t using startsBehind.induct with
  | case1 offset =>
    refine iff_of_false List.not_mem_nil ?_
    rintro ⟨front, after, split, ends, -⟩
    obtain ⟨rfl, rfl⟩ := List.append_eq_nil_iff.mp split.symm
    simp [LineEndsBetween] at ends
  | case2 offset cs ih =>
    have first : ¬ LineEndsBetween ['\r'] ('\n' :: cs) := by simp [LineEndsBetween]
    have second : LineEndsBetween ['\n'] cs := .inl rfl
    rw [startsBehind, List.mem_cons, ih, exists_lineEndsBetween_cons, exists_lineEndsBetween_cons]
    simp [first, second, Char.utf8Size]
  | case3 offset c cs not_both next ends ih =>
    rw [startsBehind, if_pos ends, List.mem_cons, ih, exists_lineEndsBetween_cons,
      lineEndsBetween_singleton_iff not_both, and_iff_right ends]
    exact not_both
  | case4 offset c cs not_both next goes_on ih =>
    rw [startsBehind, if_neg goes_on, ih, exists_lineEndsBetween_cons,
      lineEndsBetween_singleton_iff not_both, or_iff_right fun h => goes_on h.1]
    exact not_both

/-- **Lines start where terminators end**, the first one apart. -/
theorem mem_startsBehind_zero_iff {t : Text} {start : Nat} :
    start ∈ startsBehind 0 t ↔ ∃ s, t.IsTerminator s ∧ s.stop = start := by
  rw [mem_startsBehind_iff]
  constructor
  · rintro ⟨front, after, rfl, here, rfl⟩
    obtain ⟨before, terminator, rfl, ends⟩ := exists_endsLine_iff.mpr here
    exact ⟨_, ⟨before, terminator, after, rfl, ends, rfl⟩, (Nat.zero_add _).symm⟩
  · rintro ⟨_, ⟨before, terminator, after, rfl, ends, rfl⟩, rfl⟩
    exact ⟨_, after, rfl, exists_endsLine_iff.mp ⟨before, terminator, rfl, ends⟩, (Nat.zero_add _).symm⟩

/-- **The line of an offset counts the terminators** that end at the offset or before it. -/
theorem encard_terminators (t : Text) (offset : Nat) :
    {s | t.IsTerminator s ∧ s.stop ≤ offset}.encard = (of t).lineOf offset := by
  -- Terminators are counted by where they end.
  have distinct : Set.InjOn Span.stop {s | t.IsTerminator s ∧ s.stop ≤ offset} :=
    fun _ h _ h' same => h.1.eq_of_stop_eq h'.1 same
  have stops : Span.stop '' {s | t.IsTerminator s ∧ s.stop ≤ offset} =
      ((startsBehind 0 t).filter (· ≤ offset)).toFinset := by
    ext stop
    simp only [Set.mem_image, Set.mem_ofPred_eq, List.coe_toFinset, List.mem_filter, decide_eq_true_eq,
      mem_startsBehind_zero_iff]
    constructor
    · rintro ⟨s, ⟨ends, reached⟩, rfl⟩
      exact ⟨⟨s, ends, rfl⟩, reached⟩
    · rintro ⟨⟨s, ends, rfl⟩, reached⟩
      exact ⟨s, ⟨ends, reached⟩, rfl⟩
  have ordered : (startsBehind 0 t).Nodup :=
    (List.pairwise_cons.mp (startsBehind_pairwise 0 t)).2.imp Nat.ne_of_lt
  have count : (of t).lineOf offset = (startsBehind 0 t).countP (· ≤ offset) := by
    have line := lineOf_add_one t offset
    rw [of, List.toList_toArray, List.countP_cons_of_pos (by simp)] at line
    exact Nat.succ.inj line
  rw [← distinct.encard_image, stops, Set.encard_coe_eq_coe_finsetCard,
    List.toFinset_card_of_nodup (ordered.filter _), ← List.countP_eq_length_filter, count]

/-- An offset is in the last line that starts at it or before it. -/
theorem exists_lineStart? (t : Text) (offset : Nat) :
    ∃ start, (of t).lineStart? ((of t).lineOf offset) = some start ∧ start ≤ offset ∧
      ∀ next, (of t).lineStart? ((of t).lineOf offset + 1) = some next → offset < next := by
  obtain ⟨first, later, split, line, -, reached, behind⟩ := exists_split_lineOf t offset
  have inside : (of t).lineOf offset < first.length := by omega
  have lines (line : Nat) : (of t).lineStart? line = (first ++ later)[line]? := by
    rw [lineStart?, ← Array.getElem?_toList, split]
  refine ⟨first[(of t).lineOf offset], ?_, reached _ (List.getElem_mem _), fun next found => ?_⟩
  · rw [lines, List.getElem?_append_left inside, List.getElem?_eq_getElem inside]
  · rw [lines, line, List.getElem?_append_right (Nat.le_refl _)] at found
    exact behind next (List.mem_of_getElem? found)

/-- **Lines and offsets.** The line of an offset is the number of terminators that end no later, so nothing is
taken from zero and later offsets are in no earlier lines. Lines start one behind the other, the first one
with the text and all of them within it. An offset is in the last line that starts at it or before it. -/
theorem of_exact (t : Text) :
    (∀ offset, bisect (fun start => start ≤ offset) (of t).starts = (of t).lineOf offset + 1 ∧
      {s | t.IsTerminator s ∧ s.stop ≤ offset}.encard = (of t).lineOf offset) ∧
    Monotone (of t).lineOf ∧
    (of t).starts.toList.Pairwise (· < ·) ∧ (of t).lineStart? 0 = some 0 ∧
    (∀ start ∈ (of t).starts, start ≤ byteLength t) ∧
    ∀ offset, ∃ start, (of t).lineStart? ((of t).lineOf offset) = some start ∧ start ≤ offset ∧
      ∀ next, (of t).lineStart? ((of t).lineOf offset + 1) = some next → offset < next := by
  refine ⟨fun offset => ⟨?_, encard_terminators t offset⟩, fun _ _ => lineOf_mono t, starts_pairwise t, rfl,
    fun start mem => ?_, exists_lineStart? t⟩
  · obtain ⟨first, later, -, line, count, -, -⟩ := exists_split_lineOf t offset
    rw [count, line]
  · rcases List.mem_cons.mp (Array.mem_toList_iff.mpr mem) with rfl | behind
    · exact Nat.zero_le _
    · obtain ⟨front, after, rfl, -, rfl⟩ := mem_startsBehind_iff.mp behind
      simp

/-- A carriage return, and both characters behind it. -/
theorem of_exact_mixed : (of "é\r\r\nb".toList).lineOf 4 = 1 ∧
    (of "é\r\r\nb".toList).lineStart? 2 = some 5 ∧ 4 < 5 := by
  obtain ⟨start, -, -, next⟩ := (of_exact "é\r\r\nb".toList).2.2.2.2.2 4
  have line : (of "é\r\r\nb".toList).lineOf 4 = 1 := by decide +kernel
  have found : (of "é\r\r\nb".toList).lineStart? 2 = some 5 := by decide +kernel
  exact ⟨line, found, next 5 (by rw [line, found])⟩

end Lines

end MarkupAnalysis
