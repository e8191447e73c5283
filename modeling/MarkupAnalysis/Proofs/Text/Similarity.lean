import Mathlib.Analysis.Real.Sqrt
import Mathlib.Data.Nat.Sqrt
import Mathlib.Tactic.Linarith
import Mathlib.Tactic.Positivity
import Mathlib.Tactic.Ring
import MarkupAnalysis.Proofs.Text.CommonSubsequence

/-! # Scores as numbers

A score stands for a real number, the length of a longest common subsequence less a square root. Both its order
and its decimals are found in whole numbers: what is compared is squared until no root is left, and the root of
a million millionths is taken to the nearest whole number.

* **`Similarity.value`** — the number that a score stands for.
* **`Similarity.less_iff`** — scores are in the order of their numbers.
* **`Similarity.abs_value_sub_millionths_le`** — the decimals are those of the number.
* **`Similarity.of_commonSubsequence`** — the score of two names. -/

namespace MarkupAnalysis.Similarity

/-- **The number that a score stands for.** -/
noncomputable def value (x : Similarity) : ℝ := x.common - √x.gap

/-! ## Order -/

/-- A multiple of a root as a root. -/
theorem twice_mul_root {m : ℤ} (nonneg : 0 ≤ m) (c : ℕ) :
    2 * (m : ℝ) * √c = √((4 * m * m * c : ℤ) : ℝ) := by
  have square : ((4 * m * m * c : ℤ) : ℝ) = (2 * (m : ℝ)) ^ 2 * c := by
    push_cast
    ring
  have nonneg' : 0 ≤ 2 * (m : ℝ) := by
    have : (0 : ℝ) ≤ m := Int.cast_nonneg nonneg
    positivity
  rw [square, Real.sqrt_mul (sq_nonneg _), Real.sqrt_sq nonneg']

/-- A multiple of a root is below a whole number. -/
theorem twice_mul_root_lt_iff {m : ℤ} (nonneg : 0 ≤ m) (c : ℕ) (z : ℤ) :
    2 * (m : ℝ) * √c < z ↔ 0 < z ∧ 4 * m * m * c < z * z := by
  rw [twice_mul_root nonneg]
  by_cases positive : 0 < z
  · rw [Real.sqrt_lt' (Int.cast_pos.mpr positive), and_iff_right positive, pow_two]
    norm_cast
  · refine iff_of_false ?_ fun h => positive h.1
    have below : (z : ℝ) ≤ 0 := Int.cast_nonpos.mpr (Int.not_lt.mp positive)
    exact not_lt.mpr (below.trans (Real.sqrt_nonneg _))

/-- A whole number is below a multiple of a root. -/
theorem lt_twice_mul_root_iff {m : ℤ} (nonneg : 0 ≤ m) (c : ℕ) (z : ℤ) :
    (z : ℝ) < 2 * m * √c ↔ z < 0 ∨ z * z < 4 * m * m * c := by
  rw [twice_mul_root nonneg]
  by_cases negative : z < 0
  · refine iff_of_true ?_ (.inl negative)
    exact (Int.cast_lt_zero.mpr negative).trans_le (Real.sqrt_nonneg _)
  · rw [Real.lt_sqrt (Int.cast_nonneg (Int.not_lt.mp negative)), or_iff_right negative, pow_two]
    norm_cast

/-- **Roots are compared by squaring.** -/
theorem rootsLess_iff (k : ℤ) (a b : ℕ) : rootsLess k a b = true ↔ (k : ℝ) + √a < √b := by
  have square_a : √(a : ℝ) ^ 2 = a := Real.sq_sqrt (Nat.cast_nonneg a)
  have square_b : √(b : ℝ) ^ 2 = b := Real.sq_sqrt (Nat.cast_nonneg b)
  have root_a := Real.sqrt_nonneg (a : ℝ)
  have root_b := Real.sqrt_nonneg (b : ℝ)
  unfold rootsLess
  split_ifs with nonneg
  · -- Both sides are squared; the root of `a` that is left is compared as a multiple.
    have left : 0 ≤ (k : ℝ) + √a := add_nonneg (Int.cast_nonneg nonneg) root_a
    rw [Real.lt_sqrt left, Bool.and_eq_true, decide_eq_true_eq, decide_eq_true_eq,
      ← twice_mul_root_lt_iff nonneg]
    push_cast
    constructor <;> intro h <;> nlinarith only [h, square_a]
  · -- `k` goes to the other side, where it counts positive; there the root of `b` is left.
    have negative : k < 0 := Int.not_le.mp nonneg
    have right : 0 < √(b : ℝ) - k := by
      have : (k : ℝ) < 0 := Int.cast_lt_zero.mpr negative
      linarith
    have moved : (k : ℝ) + √a < √b ↔ √(a : ℝ) < √b - k := by
      constructor <;> intro h <;> linarith only [h]
    have signs : 4 * k * k * (b : ℤ) = 4 * -k * -k * b := by ring
    rw [moved, Real.sqrt_lt' right, Bool.or_eq_true, decide_eq_true_eq, decide_eq_true_eq, signs,
      ← lt_twice_mul_root_iff (Int.neg_nonneg.mpr negative.le)]
    push_cast
    constructor <;> intro h <;> nlinarith only [h, square_b]

/-- **Scores are in the order of their numbers.** -/
theorem less_iff (x y : Similarity) : x.less y = true ↔ x.value < y.value := by
  rw [less, rootsLess_iff, value, value]
  push_cast
  constructor <;> intro h <;> linarith only [h]

/-! ## Decimals -/

/-- The whole part of the root is found from that of the fourth part. -/
theorem wholeRoot_eq (n : ℕ) : wholeRoot n = n.sqrt := by
  rw [Nat.eq_sqrt]
  induction n using wholeRoot.induct with
  | case1 => simp [wholeRoot]
  | case2 n some root fits ih =>
    have above : n < 4 * (n / 4 + 1) := Nat.lt_mul_div_succ n (by decide)
    rw [wholeRoot, dif_neg some]
    dsimp only
    rw [if_pos fits]
    exact ⟨fits, by nlinarith only [ih.2, above]⟩
  | case3 n some root exceeds ih =>
    have below : 4 * (n / 4) ≤ n := Nat.mul_div_le n 4
    rw [wholeRoot, dif_neg some]
    dsimp only
    rw [if_neg exceeds]
    exact ⟨by nlinarith only [ih.1, below], Nat.not_le.mp exceeds⟩

/-- **The nearest root** is no further than one half from the root. -/
theorem abs_root_sub_nearestRoot_le (n : ℕ) : |√(n : ℝ) - nearestRoot n| ≤ 1 / 2 := by
  have root_nonneg : (0 : ℝ) ≤ n.sqrt := Nat.cast_nonneg _
  have whole_le : (n.sqrt : ℝ) ≤ √n := Real.nat_sqrt_le_real_sqrt
  have lt_whole : √(n : ℝ) < n.sqrt + 1 := Real.real_sqrt_lt_nat_sqrt_succ
  unfold nearestRoot
  rw [wholeRoot_eq]
  dsimp only
  -- The root lies between two whole numbers; past the middle the upper one is nearer.
  split_ifs with beyond
  · have beyond : (n.sqrt : ℝ) * n.sqrt + n.sqrt + 1 ≤ n := by exact_mod_cast beyond
    have half_le : (n.sqrt : ℝ) + 1 / 2 ≤ √n := Real.le_sqrt_of_sq_le (by nlinarith only [beyond])
    rw [abs_le]
    push_cast
    constructor <;> linarith only [half_le, lt_whole]
  · have within : (n : ℝ) ≤ n.sqrt * n.sqrt + n.sqrt := by exact_mod_cast Nat.not_lt.mp beyond
    have le_half : √(n : ℝ) ≤ n.sqrt + 1 / 2 :=
      Real.sqrt_le_iff.mpr ⟨by positivity, by nlinarith only [within]⟩
    rw [abs_le]
    constructor <;> linarith only [whole_le, le_half]

/-- **The decimals are those of the number**, to the nearest millionth. -/
theorem abs_value_sub_millionths_le (x : Similarity) : |x.value * 1000000 - x.millionths| ≤ 1 / 2 := by
  have root : √((x.gap * Nat.pow 10 12 : ℕ) : ℝ) = √x.gap * 1000000 := by
    have square : ((x.gap * Nat.pow 10 12 : ℕ) : ℝ) = x.gap * 1000000 ^ 2 := by norm_num
    rw [square, Real.sqrt_mul (Nat.cast_nonneg _), Real.sqrt_sq (by norm_num)]
  have near := abs_root_sub_nearestRoot_le (x.gap * Nat.pow 10 12)
  rw [root, abs_sub_comm] at near
  have parts : x.value * 1000000 - x.millionths =
      nearestRoot (x.gap * Nat.pow 10 12) - √x.gap * 1000000 := by
    rw [value, millionths]
    push_cast
    ring
  rwa [parts]

/-! ## Names -/

/-- **The score of two names** is zero if their lengths differ too much. Otherwise it is the greatest length of
a common subsequence less the root of the difference. That length does not mind which name comes first; it is
no greater than the length of the shorter name, and as great exactly if that one is a subsequence of the longer
one. -/
theorem of_commonSubsequence (largestGap : ℕ) (s t : Text) :
    let gap := ((s.length : ℤ) - t.length).natAbs
    let common := Text.commonLength s t
    let score := of largestGap s t
    score.value = (if largestGap < gap then 0 else common - √gap) ∧
      (∀ other, score.less other = true ↔ score.value < other.value) ∧
      |score.value * 1000000 - score.millionths| ≤ 1 / 2 ∧
      IsGreatest {n | ∃ u : Text, u.Sublist s ∧ u.Sublist t ∧ u.length = n} common ∧
      Text.commonLength t s = common ∧ common ≤ min s.length t.length ∧
      (common = min s.length t.length ↔ if s.length ≤ t.length then s.Sublist t else t.Sublist s) := by
  intro gap common score
  have gap_eq : (s.length - t.length) + (t.length - s.length) = gap := by omega
  have score_eq : score = if largestGap < gap then ⟨0, 0⟩ else ⟨common, gap⟩ := by
    rw [← gap_eq]
    rfl
  refine ⟨?_, less_iff score, abs_value_sub_millionths_le score, Text.isGreatest_commonLength s t,
    Text.commonLength_comm t s, ?_, Text.commonLength_eq_min_iff s t⟩
  · rw [score_eq]
    split_ifs
    · simp [value]
    · rfl
  · refine Nat.le_min.mpr ⟨Text.commonLength_le_left s t, ?_⟩
    exact (Text.commonLength_comm s t).trans_le (Text.commonLength_le_left t s)

end MarkupAnalysis.Similarity
