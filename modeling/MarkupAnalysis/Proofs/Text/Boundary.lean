import Mathlib.Tactic.Common
import MarkupAnalysis.Text.Span

/-! # Character boundaries

An offset is a character boundary exactly when it is the byte length of a first part of the text.

* **`Text.dropBytes?_eq_some_iff`** — cutting at an offset splits the text there.
* **`Text.isBoundary_iff`** — the boundaries of a text.
* **`Text.slice?_eq_some_iff`**, **`Text.slice?_join`** — a slice is a part of the text.
* **`Text.stop_le_of_slice?`** — a slice without a certain character.
* **`Text.length_le_byteLength`** — a text has no more characters than bytes. -/

namespace MarkupAnalysis.Text

/-- Cutting at an offset splits the text into a part of that many bytes and the answer. -/
theorem dropBytes?_eq_some_iff {t ahead : Text} {offset : Nat} :
    t.dropBytes? offset = some ahead ↔ ∃ before, t = before ++ ahead ∧ byteLength before = offset := by
  constructor
  · intro h
    -- The recursion of the cut: nothing to cut, no text left, a character cut off, or one cut apart.
    induction t, offset using dropBytes?.induct with
    | case1 cs =>
      simp only [dropBytes?, Option.some.injEq] at h
      exact ⟨[], h, rfl⟩
    | case2 n => simp [dropBytes?] at h
    | case3 c cs n fits ih =>
      simp only [dropBytes?, fits, if_true] at h
      obtain ⟨before, rfl, same⟩ := ih h
      exact ⟨c :: before, rfl, by simp only [byteLength_cons]; omega⟩
    | case4 c cs n too_long => simp [dropBytes?, too_long] at h
  · rintro ⟨before, rfl, rfl⟩
    exact dropBytes?_append before ahead

/-- The text before an offset is a first part of that many bytes. -/
theorem takeBytes?_eq_some_iff {t before : Text} {offset : Nat} :
    t.takeBytes? offset = some before ↔
      ∃ ahead, t = before ++ ahead ∧ byteLength before = offset := by
  constructor
  · intro h
    -- As for cutting: nothing to take, no text left, a character taken, or one cut apart.
    induction t, offset using takeBytes?.induct generalizing before with
    | case1 cs =>
      simp only [takeBytes?, Option.some.injEq] at h
      exact ⟨cs, by simp [← h], by simp [← h]⟩
    | case2 n => simp [takeBytes?] at h
    | case3 c cs n fits ih =>
      simp only [takeBytes?, fits, if_true, Option.map_eq_some_iff] at h
      obtain ⟨before, taken, rfl⟩ := h
      obtain ⟨ahead, rfl, same⟩ := ih taken
      exact ⟨ahead, rfl, by simp only [byteLength_cons]; omega⟩
    | case4 c cs n too_long => simp [takeBytes?, too_long] at h
  · rintro ⟨ahead, rfl, rfl⟩
    exact takeBytes?_append before ahead

/-- First parts with as many bytes are the same. -/
theorem append_left_inj_of_byteLength {before before' ahead ahead' : Text}
    (split : before ++ ahead = before' ++ ahead') (same : byteLength before = byteLength before') :
    before = before' ∧ ahead = ahead' := by
  have first := takeBytes?_append before ahead
  rw [split, same, takeBytes?_append] at first
  obtain rfl := Option.some.inj first
  exact ⟨rfl, List.append_cancel_left split⟩

/-- A slice is a part of the text. -/
theorem slice?_eq_some_iff {t middle : Text} {start stop : Nat} :
    t.slice? ⟨start, stop⟩ = some middle ↔ ∃ before behind, t = before ++ middle ++ behind ∧
      byteLength before = start ∧ start + byteLength middle = stop := by
  unfold slice?
  dsimp only
  constructor
  · intro h
    split at h
    · rename_i forward
      obtain ⟨ahead, dropped, taken⟩ := Option.bind_eq_some_iff.mp h
      obtain ⟨before, rfl, rfl⟩ := dropBytes?_eq_some_iff.mp dropped
      obtain ⟨behind, rfl, same⟩ := takeBytes?_eq_some_iff.mp taken
      exact ⟨before, behind, by rw [List.append_assoc], rfl, by omega⟩
    · cases h
  · rintro ⟨before, behind, rfl, rfl, rfl⟩
    rw [List.append_assoc]
    exact slice?_append before middle behind

/-- Slices that meet are one slice. -/
theorem slice?_join {t first second : Text} {start middle stop : Nat}
    (left : t.slice? ⟨start, middle⟩ = some first) (right : t.slice? ⟨middle, stop⟩ = some second) :
    t.slice? ⟨start, stop⟩ = some (first ++ second) := by
  obtain ⟨before, behind, split, rfl, rfl⟩ := slice?_eq_some_iff.mp left
  obtain ⟨before', behind', split', same, rfl⟩ := slice?_eq_some_iff.mp right
  rw [split] at split'
  -- What comes before the second one is what comes before the first one, and the first one.
  obtain ⟨rfl, rfl⟩ : before ++ first = before' ∧ behind = second ++ behind' := by
    rw [List.append_assoc before'] at split'
    exact append_left_inj_of_byteLength split' (by rw [byteLength_append, same])
  exact slice?_eq_some_iff.mpr ⟨before, behind', by rw [split]; simp, rfl, by simp [Nat.add_assoc]⟩

/-- The boundaries are the byte lengths of first parts. -/
theorem isBoundary_iff {t : Text} {offset : Nat} :
    t.isBoundary offset = true ↔ ∃ before ahead, t = before ++ ahead ∧ byteLength before = offset := by
  rw [isBoundary, Option.isSome_iff_exists, exists_comm]
  exact exists_congr fun _ => dropBytes?_eq_some_iff

/-- The parts of a slice are slices. -/
theorem slice?_split {t first second : Text} {start stop : Nat}
    (whole : t.slice? ⟨start, stop⟩ = some (first ++ second)) :
    t.slice? ⟨start, start + byteLength first⟩ = some first ∧
      t.slice? ⟨start + byteLength first, stop⟩ = some second := by
  obtain ⟨before, behind, split, rfl, rfl⟩ := slice?_eq_some_iff.mp whole
  constructor
  · exact slice?_eq_some_iff.mpr ⟨before, second ++ behind, by rw [split]; simp, rfl, rfl⟩
  · exact slice?_eq_some_iff.mpr
      ⟨before ++ first, behind, by rw [split]; simp, by simp, by simp [Nat.add_assoc]⟩

/-- A slice between a boundary and itself is empty. -/
theorem slice?_empty {t : Text} {offset : Nat} (boundary : t.isBoundary offset = true) :
    t.slice? ⟨offset, offset⟩ = some [] := by
  obtain ⟨before, ahead, split, same⟩ := isBoundary_iff.mp boundary
  exact slice?_eq_some_iff.mpr ⟨before, ahead, by rw [List.append_nil]; exact split, same, rfl⟩

/-- Every character has a byte. -/
theorem length_le_byteLength (t : Text) : t.length ≤ byteLength t := by
  induction t with
  | nil => simp
  | cons c cs ih =>
    have := c.utf8Size_pos
    simp only [List.length_cons, byteLength_cons]
    omega

/-- Only the empty text has no bytes. -/
theorem byteLength_eq_zero_iff {t : Text} : byteLength t = 0 ↔ t = [] := by
  constructor
  · intro h
    have := length_le_byteLength t
    exact List.length_eq_zero_iff.mp (by omega)
  · rintro rfl
    rfl

/-- **A part of a text without a certain character** ends before the next one of them. -/
theorem stop_le_of_slice? {t part before rest : Text} {c : Char} {start stop : Nat}
    (slice : t.slice? ⟨start, stop⟩ = some part) (split : t = before ++ c :: rest)
    (starts : start ≤ byteLength before) (absent : c ∉ part) : stop ≤ byteLength before := by
  obtain ⟨outer, behind, whole, rfl, rfl⟩ := slice?_eq_some_iff.mp slice
  rw [split, List.append_assoc] at whole
  rcases List.append_eq_append_iff.mp whole with ⟨more, rfl, tail⟩ | ⟨more, rfl, tail⟩
  · -- The part starts at the character or behind it.
    have nothing : more = [] := by
      rw [byteLength_append] at starts
      exact byteLength_eq_zero_iff.mp (by omega)
    subst nothing
    rw [List.append_nil]
    cases part with
    | nil => exact Nat.le_refl _
    | cons d part =>
      obtain ⟨rfl, -⟩ := List.cons_eq_cons.mp tail
      exact absurd List.mem_cons_self absent
  · rcases List.append_eq_append_iff.mp tail with ⟨inside, rfl, -⟩ | ⟨inside, rfl, own⟩
    · rw [byteLength_append, byteLength_append]
      omega
    · cases inside with
      | nil =>
        rw [byteLength_append, byteLength_append]
        exact Nat.le_refl _
      | cons d inside =>
        obtain ⟨rfl, -⟩ := List.cons_eq_cons.mp own
        exact absurd (by simp) absent

end MarkupAnalysis.Text
