import Mathlib.Tactic.Common
import MarkupAnalysis.Text.Basic

/-! # Spellings

Texts that are the same in lower case are spellings of each other. Whatever asks for no letter, or for
letters in any case, finds the same in all of them.

* **`Text.toLower_of_capitals`**, **`Text.toLower_eq_iff`** — characters and their lower case.
* **`Text.lower_lower`**, **`Text.lower_of_no_upper`** — texts that are their own lower case.
* **`Text.equalsIgnoringCase_iff`**, **`Text.equalsIgnoringCase_congr`** — the case rule cannot tell
  spellings apart.
* **`Text.lengthWhile_lower`**, **`Text.lengthUntil_of_lower`**, **`Text.startsWith_lower`** — looking
  ahead in lower case. -/

namespace MarkupAnalysis.Text

/-! ## Characters -/

/-- The letters that have another lower case. -/
def capitals : List Char := (List.range 26).map fun i => Char.ofNat ('A'.toNat + i)

/-- Only capital letters have another lower case. -/
theorem mem_capitals {c : Char} (changed : c.toLower ≠ c) : c ∈ capitals := by
  obtain ⟨lowest, highest⟩ : 65 ≤ c.toNat ∧ c.toNat ≤ 90 := by
    by_contra outside
    exact changed (dif_neg outside)
  have letter_a : 'A'.toNat = 65 := rfl
  refine List.mem_map.mpr ⟨c.toNat - 65, List.mem_range.mpr (by omega), ?_⟩
  rw [letter_a, Nat.add_sub_cancel' lowest, Char.ofNat_toNat]

/-- What holds alike of each capital letter and its lower case holds alike of any character and its lower
case. -/
theorem toLower_of_capitals {α : Type} [DecidableEq α] {f : Char → α}
    (same : (capitals.all fun c => f c.toLower == f c) = true) (c : Char) : f c.toLower = f c := by
  by_cases unchanged : c.toLower = c
  · rw [unchanged]
  · exact beq_iff_eq.mp (List.all_eq_true.mp same c (mem_capitals unchanged))

/-- A character that is no capital letter is its own lower case. -/
theorem toLower_of_not_upper {c : Char} (no_upper : c.isUpper = false) : c.toLower = c := by
  by_contra changed
  have upper : capitals.all Char.isUpper = true := by decide
  rw [List.all_eq_true.mp upper c (mem_capitals changed)] at no_upper
  cases no_upper

/-- Only letters have other spellings. -/
theorem toLower_eq_iff {c d : Char} (no_letter : d.isAlpha = false) : c.toLower = d ↔ c = d := by
  have unchanged {e : Char} (no_letter : e.isAlpha = false) : e.toLower = e :=
    toLower_of_not_upper (Bool.or_eq_false_iff.mp no_letter).1
  constructor
  · rintro rfl
    have same : c.toLower.isAlpha = c.isAlpha := toLower_of_capitals (by decide) c
    rw [same] at no_letter
    exact (unchanged no_letter).symm
  · rintro rfl
    exact unchanged no_letter

/-! ## Texts -/

variable {s s' t t' : Text}

@[simp] theorem lower_nil : lower [] = [] := rfl

@[simp] theorem lower_cons (c : Char) (t : Text) : lower (c :: t) = c.toLower :: lower t := rfl

theorem lower_take (t : Text) (n : Nat) : lower (t.take n) = (lower t).take n := List.map_take

theorem lower_drop (t : Text) (n : Nat) : lower (t.drop n) = (lower t).drop n := List.map_drop

/-- What is in lower case already stays. -/
@[simp] theorem lower_lower (t : Text) : lower (lower t) = lower t := by
  have twice (c : Char) : c.toLower.toLower = c.toLower := toLower_of_capitals (by decide) c
  simp only [lower, List.map_map, Function.comp_def, twice]

/-- A text without upper-case letters is in lower case. -/
theorem lower_of_no_upper (none_upper : t.any Char.isUpper = false) : lower t = t := by
  refine (List.map_congr_left fun c mem => ?_).trans t.map_id
  exact toLower_of_not_upper (Bool.eq_false_iff.mpr (List.any_eq_false.mp none_upper c mem))

/-- Spellings are equally long. -/
theorem length_eq_of_lower (same : lower s = lower t) : s.length = t.length := by
  rw [← length_lower s, same, length_lower]

/-- Two spellings without their first `n` characters are spellings of each other. -/
theorem drop_of_lower (same : lower s = lower t) (n : Nat) : lower (s.drop n) = lower (t.drop n) := by
  rw [lower_drop, same, lower_drop]

/-- The first `n` characters of two spellings are spellings of each other. -/
theorem take_of_lower (same : lower s = lower t) (n : Nat) : lower (s.take n) = lower (t.take n) := by
  rw [lower_take, same, lower_take]

/-- Only the empty text is a spelling of the empty text. -/
theorem isEmpty_of_lower (same : lower s = lower t) : s.isEmpty = t.isEmpty := by
  rw [Bool.eq_iff_iff, List.isEmpty_iff_length_eq_zero, List.isEmpty_iff_length_eq_zero,
    length_eq_of_lower same]

/-! ## The case rule -/

/-- Texts are equal up to case if they are the same in lower case. -/
theorem equalsIgnoringCase_iff : equalsIgnoringCase s t = true ↔ lower s = lower t := beq_iff_eq

/-- The case rule cannot tell spellings apart. -/
theorem equalsIgnoringCase_congr (left : lower s = lower s') (right : lower t = lower t') :
    equalsIgnoringCase s t = equalsIgnoringCase s' t' := by
  rw [equalsIgnoringCase, equalsIgnoringCase, left, right]

/-! ## Looking ahead -/

/-- What answers the same for a text and its lower case answers the same for all its spellings. -/
theorem congr_of_lower {α : Type} {f : Text → α} (lowered : ∀ t, f (lower t) = f t)
    (same : lower s = lower t) : f s = f t := by
  rw [← lowered s, same, lowered t]

/-- A run of characters in any case. -/
theorem lengthWhile_lower {accepts : Char → Bool} (h : ∀ c, accepts c.toLower = accepts c) (t : Text) :
    lengthWhile accepts (lower t) = lengthWhile accepts t := by
  have composed : accepts ∘ Char.toLower = accepts := funext h
  rw [lengthWhile, lower, List.takeWhile_map, List.length_map, composed, lengthWhile]

/-- What is found in any spelling is found at the same place. -/
theorem lengthUntil_of_lower {found found' : Text → Bool}
    (h : ∀ {t t'}, lower t = lower t' → found t = found' t') (same : lower t = lower t') :
    lengthUntil found t = lengthUntil found' t' := by
  induction t generalizing t' with
  | nil =>
    obtain rfl : t' = [] := List.map_eq_nil_iff.mp same.symm
    rfl
  | cons c t ih =>
    cases t' with
    | nil => simp at same
    | cons c' t' => rw [lengthUntil, lengthUntil, h same, ih (List.cons.inj same).2]

/-- A literal without letters. -/
theorem startsWith_lower (literal : Text) (no_letters : literal.all (!·.isAlpha) = true) (t : Text) :
    startsWith literal (lower t) = startsWith literal t := by
  induction literal generalizing t with
  | nil => rfl
  | cons l literal ih =>
    cases t with
    | nil => rfl
    | cons c t =>
      simp only [List.all_cons, Bool.and_eq_true, Bool.not_eq_true'] at no_letters
      have further := ih no_letters.2 t
      have first : (l == c.toLower) = (l == c) := by
        rw [Bool.eq_iff_iff, beq_iff_eq, beq_iff_eq, eq_comm, toLower_eq_iff no_letters.1, eq_comm]
      rw [startsWith, startsWith] at further ⊢
      rw [lower_cons, List.isPrefixOf_cons_cons, List.isPrefixOf_cons_cons, further, first]

/-- Spellings start with the same literals without letters. -/
theorem startsWith_of_lower (literal : Text) (no_letters : literal.all (!·.isAlpha) = true)
    (same : lower t = lower t') : startsWith literal t = startsWith literal t' :=
  congr_of_lower (startsWith_lower literal no_letters) same

/-- A literal without letters is found at the same place in all spellings. -/
theorem lengthUntil_startsWith_of_lower (literal : Text) (no_letters : literal.all (!·.isAlpha) = true)
    (same : lower t = lower t') :
    lengthUntil (startsWith literal) t = lengthUntil (startsWith literal) t' :=
  lengthUntil_of_lower (startsWith_of_lower literal no_letters) same

/-- Spellings start with the same words in some case. -/
theorem startsWithIgnoringCase_of_lower {word word' : Text} (words : lower word = lower word')
    (same : lower t = lower t') : startsWithIgnoringCase word t = startsWithIgnoringCase word' t' := by
  rw [startsWithIgnoringCase, startsWithIgnoringCase, lower_take, lower_take, words, same,
    length_eq_of_lower words]

/-- A word comes first in some case if it does so in lower case. -/
theorem startsWithIgnoringCase_iff {word : Text} :
    startsWithIgnoringCase word t = true ↔ lower word <+: lower t := by
  rw [startsWithIgnoringCase, List.isPrefixOf_iff_prefix, lower_take, List.prefix_take_iff, length_lower]
  exact and_iff_left (Nat.le_refl _)

end MarkupAnalysis.Text
