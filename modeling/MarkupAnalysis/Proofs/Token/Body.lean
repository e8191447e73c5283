import MarkupAnalysis.Proofs.Text.Prefix
import MarkupAnalysis.Token.EmbeddedBody

/-! # Where embedded bodies end

A body that ends before the text does is ended by an end tag of its element, and ends there whatever
follows the text. What marks a script body needs a few characters only, and the end tag has them.

* **`embeddedBodyLength_le`** — a body stays in the text.
* **`ScriptMarker.read?_append`** — a marker with characters behind it is the same in a longer text.
* **`scriptBodyLength_append`**, **`embeddedBodyLength_append`** — a body that has ended. -/

namespace MarkupAnalysis

open Text

variable {tag t : Text}

/-! ## Bodies stay in the text -/

theorem scriptBodyLength_le (tag : Text) (hidden : ScriptEscape) (skip : Nat) (t : Text) :
    scriptBodyLength tag hidden skip t ≤ t.length := by
  -- The recursion of the body: the end, a character of a marker, none, the last marker, another one.
  induction hidden, skip, t using scriptBodyLength.induct tag with
  | case1 => simp [scriptBodyLength]
  | case2 hidden skip c cs ih => simpa [scriptBodyLength] using ih
  | case3 hidden c cs none_here ih => simpa [scriptBodyLength, none_here] using ih
  | case4 hidden c cs marker length here last => simp [scriptBodyLength, here, last]
  | case5 hidden c cs marker length here hidden' further ih =>
    simpa [scriptBodyLength, here, further] using ih

/-- A body stays in the text. -/
theorem embeddedBodyLength_le (tag : Option Text) (t : Text) : embeddedBodyLength tag t ≤ t.length := by
  unfold embeddedBodyLength
  dsimp only
  split
  · exact scriptBodyLength_le _ _ _ t
  · exact lengthUntil_le _ t

/-! ## Bodies that are no scripts -/

/-- An end tag has to have its name. -/
theorem bounded_isEndTagOf (tag : Text) : Bounded (tag.length + 2) (isEndTagOf tag) := by
  have bounded := bounded_startsWithIgnoringCase tag
  refine ⟨fun t found => ?_, fun t u reaches => ?_⟩
  · unfold isEndTagOf at found
    split at found
    · have := bounded.size_le _ found
      simp only [List.length_cons]
      omega
    · simp at found
  · match t with
    | [] => simp at reaches
    | [c] => simp at reaches
    | c :: d :: name =>
      have same : startsWithIgnoringCase tag (name ++ u) = startsWithIgnoringCase tag name :=
        bounded.append name u (by simpa using reaches)
      by_cases opens : c = '<' ∧ d = '/'
      · obtain ⟨rfl, rfl⟩ := opens
        exact same
      · unfold isEndTagOf
        split <;> split <;> simp_all

/-! ## Script bodies -/

/-- The blanks are part of what follows the name in a marker. -/
theorem blanks_le_tagTailLength (t : Text) : lengthWhile isAsciiBlank t ≤ tagTailLength t := by
  unfold tagTailLength
  dsimp only
  split <;> omega

/-- What follows the name in a marker, when characters follow it. -/
theorem tagTailLength_append (u : Text) (inside : tagTailLength t < t.length) :
    tagTailLength (t ++ u) = tagTailLength t := by
  have blanks := Nat.lt_of_le_of_lt (blanks_le_tagTailLength t) inside
  have same : lengthWhile isAsciiBlank (t ++ u) = lengthWhile isAsciiBlank t := by
    have := lengthWhile_congr (t := []) u (by rwa [List.append_nil])
    rwa [List.append_nil] at this
  have left : (t.drop (lengthWhile isAsciiBlank t)).length = t.length - lengthWhile isAsciiBlank t :=
    List.length_drop
  unfold tagTailLength at inside ⊢
  dsimp only at inside ⊢
  rw [same, List.drop_append_of_le_length (Nat.le_of_lt blanks)]
  generalize t.drop (lengthWhile isAsciiBlank t) = behind at left inside ⊢
  match behind with
  | [] =>
    rw [List.length_nil] at left
    omega
  | [c] =>
    by_cases slash : c = '/'
    · -- The bracket after the slash may be still to come.
      subst slash
      simp only [List.length_singleton] at left inside
      omega
    · by_cases bracket : c = '>' <;> simp [bracket, slash]
  | c :: d :: rest =>
    by_cases slash : c = '/'
    · subst slash
      by_cases bracket : d = '>' <;> simp [bracket]
    · by_cases bracket : c = '>' <;> simp [bracket, slash]

/-- Whether a tag marker comes next is settled by its name, and how long it is by a character behind. -/
theorem tagMarker?_append (marker : ScriptMarker) (opening : Nat) (name u : Text)
    (reaches : tag.length ≤ name.length) :
    (tagMarker? tag marker opening (name ++ u)).map Prod.fst =
        (tagMarker? tag marker opening name).map Prod.fst ∧
      ∀ m size, tagMarker? tag marker opening name = some (m, size) → size < opening + name.length →
        tagMarker? tag marker opening (name ++ u) = some (m, size) := by
  have same := (bounded_startsWithIgnoringCase tag).append name u reaches
  unfold tagMarker?
  rw [same, List.drop_append_of_le_length reaches]
  split
  · refine ⟨rfl, fun m size here inside => ?_⟩
    obtain ⟨rfl, rfl⟩ := Prod.mk.inj (Option.some.inj here)
    rw [tagTailLength_append]
    rw [List.length_drop]
    omega
  · exact ⟨rfl, fun m size here => by simp at here⟩

/-- The markers, when there are enough characters for any of them. -/
theorem ScriptMarker.read?_cons (tag : Text) (c d e f : Char) (rest : Text) :
    read? tag (c :: d :: e :: f :: rest) =
      if c = '<' then
        if d = '!' ∧ e = '-' ∧ f = '-' then some (.commentOpen, 4)
        else if d = '/' then tagMarker? tag .endTag 2 (e :: f :: rest)
        else tagMarker? tag .startTag 1 (d :: e :: f :: rest)
      else if c = '-' ∧ d = '-' ∧ e = '>' then some (.commentClose, 3)
      else none := by
  by_cases opens : c = '<'
  · subst opens
    rw [if_pos rfl]
    by_cases comment : d = '!' ∧ e = '-' ∧ f = '-'
    · obtain ⟨rfl, rfl, rfl⟩ := comment
      rfl
    · rw [if_neg comment]
      by_cases slash : d = '/'
      · subst slash
        rfl
      · rw [if_neg slash, read?]
        · exact fun _ same => comment (by simp_all)
        · exact fun _ same => slash (List.cons.inj same).1
  · rw [if_neg opens]
    by_cases closes : c = '-' ∧ d = '-' ∧ e = '>'
    · obtain ⟨rfl, rfl, rfl⟩ := closes
      rfl
    · rw [if_neg closes]
      unfold read?
      split <;> simp_all

/-- **A marker in a longer text.** Where there are enough characters for an end tag, the same marker
comes next, and it has the same length if a character follows it. -/
theorem ScriptMarker.read?_append (some_name : 3 ≤ tag.length) (reaches : tag.length + 2 ≤ t.length)
    (u : Text) :
    (read? tag (t ++ u)).map Prod.fst = (read? tag t).map Prod.fst ∧
      ∀ m size, read? tag t = some (m, size) → size < t.length →
        read? tag (t ++ u) = some (m, size) := by
  match t with
  | [] | [_] | [_, _] | [_, _, _] =>
    simp only [List.length_cons, List.length_nil] at reaches
    omega
  | c :: d :: e :: f :: rest =>
    simp only [List.length_cons] at reaches
    simp only [List.cons_append, read?_cons]
    split_ifs
    · exact ⟨rfl, fun _ _ here _ => here⟩
    · have reaches' : tag.length ≤ (e :: f :: rest).length := by
        simp only [List.length_cons]
        omega
      have further := tagMarker?_append .endTag 2 (e :: f :: rest) u reaches'
      refine ⟨further.1, fun m size here inside => further.2 m size here ?_⟩
      simp only [List.length_cons] at inside ⊢
      omega
    · have reaches' : tag.length ≤ (d :: e :: f :: rest).length := by
        simp only [List.length_cons]
        omega
      have further := tagMarker?_append .startTag 1 (d :: e :: f :: rest) u reaches'
      refine ⟨further.1, fun m size here inside => further.2 m size here ?_⟩
      simp only [List.length_cons] at inside ⊢
      omega
    · exact ⟨rfl, fun _ _ here _ => here⟩
    · exact ⟨rfl, fun _ _ here _ => here⟩

/-- A marker that ends the body is an end tag, and its name is there. -/
theorem ScriptMarker.reaches_of_last {hidden : ScriptEscape} {marker : ScriptMarker} {size : Nat}
    (here : read? tag t = some (marker, size)) (last : hidden.after? marker = none) :
    tag.length + 2 ≤ t.length := by
  have closes : marker = .endTag := by
    cases hidden <;> cases marker <;> simp [ScriptEscape.after?] at last ⊢
  subst closes
  unfold read? at here
  split at here
  · simp at here
  · unfold tagMarker? at here
    split at here
    · rename_i named
      have := (bounded_startsWithIgnoringCase tag).size_le _ named
      simp only [List.length_cons]
      omega
    · simp at here
  · unfold tagMarker? at here
    split at here <;> simp at here
  · simp at here
  · simp at here

/-- The characters of a marker belong to the body. -/
theorem lt_length_of_scriptBodyLength {hidden : ScriptEscape} {skip : Nat}
    (inside : scriptBodyLength tag hidden skip t < t.length) : skip < t.length := by
  induction t generalizing skip with
  | nil => simp at inside
  | cons c t ih =>
    cases skip with
    | zero => exact Nat.succ_pos _
    | succ skip =>
      rw [scriptBodyLength, List.length_cons] at inside
      exact Nat.succ_lt_succ (ih (Nat.lt_of_succ_lt_succ inside))

/-- **A script body that has ended** ends there in every longer text, since the end tag is there. -/
theorem scriptBodyLength_append (some_name : 3 ≤ tag.length) {hidden : ScriptEscape} {skip : Nat}
    (inside : scriptBodyLength tag hidden skip t < t.length) (u : Text) :
    scriptBodyLength tag hidden skip (t ++ u) = scriptBodyLength tag hidden skip t ∧
      tag.length + 2 ≤ t.length := by
  induction hidden, skip, t using scriptBodyLength.induct tag with
  | case1 => simp at inside
  | case2 hidden skip c cs ih =>
    rw [scriptBodyLength, List.length_cons] at inside
    obtain ⟨same, reaches⟩ := ih (Nat.lt_of_succ_lt_succ inside)
    refine ⟨?_, Nat.le_succ_of_le reaches⟩
    rw [List.cons_append, scriptBodyLength, scriptBodyLength, same]
  | case3 hidden c cs none_here ih =>
    simp only [scriptBodyLength, none_here, List.length_cons] at inside
    obtain ⟨same, reaches⟩ := ih (Nat.lt_of_succ_lt_succ inside)
    have reaches' : tag.length + 2 ≤ (c :: cs).length := Nat.le_succ_of_le reaches
    have still_none : ScriptMarker.read? tag (c :: (cs ++ u)) = none := by
      have := (ScriptMarker.read?_append some_name reaches' u).1
      rwa [none_here, Option.map_none, Option.map_eq_none_iff] at this
    refine ⟨?_, reaches'⟩
    simp only [List.cons_append, scriptBodyLength, none_here, still_none, same]
  | case4 hidden c cs marker size here last =>
    have reaches := ScriptMarker.reaches_of_last here last
    refine ⟨?_, reaches⟩
    -- The end tag may have further blanks in the longer text, but it ends the body all the same.
    have still : (ScriptMarker.read? tag (c :: (cs ++ u))).map Prod.fst = some marker := by
      have := (ScriptMarker.read?_append some_name reaches u).1
      rwa [here] at this
    obtain ⟨⟨marker', size'⟩, here', rfl⟩ := Option.map_eq_some_iff.mp still
    simp only [List.cons_append, scriptBodyLength, here, here', last]
  | case5 hidden c cs marker size here hidden' further ih =>
    simp only [scriptBodyLength, here, further, List.length_cons] at inside
    have rest_inside := Nat.lt_of_succ_lt_succ inside
    obtain ⟨same, reaches⟩ := ih rest_inside
    have reaches' : tag.length + 2 ≤ (c :: cs).length := Nat.le_succ_of_le reaches
    -- The marker ends before the body does.
    have size_lt : size < (c :: cs).length := by
      have := lt_length_of_scriptBodyLength rest_inside
      rw [List.length_cons]
      omega
    have still := (ScriptMarker.read?_append some_name reaches' u).2 marker size here size_lt
    rw [List.cons_append] at still
    refine ⟨?_, reaches'⟩
    simp only [List.cons_append, scriptBodyLength, here, still, further, same]

/-! ## Any body -/

/-- **A body that has ended** ends there in every longer text. -/
theorem embeddedBodyLength_append {tag : Option Text} (inside : embeddedBodyLength tag t < t.length)
    (u : Text) : embeddedBodyLength tag (t ++ u) = embeddedBodyLength tag t := by
  unfold embeddedBodyLength at inside ⊢
  dsimp only at inside ⊢
  split
  · rename_i script
    rw [if_pos script] at inside
    refine (scriptBodyLength_append ?_ inside u).1
    have same_length := congrArg List.length (eq_of_beq script)
    rw [length_lower, length_lower] at same_length
    rw [same_length]
    decide
  · rename_i other
    rw [if_neg other] at inside
    exact (lengthUntil_append_of_bounded (bounded_isEndTagOf _) u inside).1

end MarkupAnalysis
