/-! # Bisection

Where a property holds of the first elements of an array and of no later one, halving the array finds
the place at which it stops. -/

namespace MarkupAnalysis

/-- The search between `low`, before which the property holds, and `high`, from which it does not. -/
def bisectBetween {α : Type} (holds : α → Bool) (xs : Array α) (low high : Nat) (bound : high ≤ xs.size) :
    Nat :=
  if inside : low < high then
    let middle := (low + high) / 2
    if holds xs[middle] then bisectBetween holds xs (middle + 1) high bound
    else bisectBetween holds xs low middle (by omega)
  else low
termination_by high - low

/-- The number of leading elements of which the property holds, where it holds of no later one. -/
def bisect {α : Type} (holds : α → Bool) (xs : Array α) : Nat :=
  bisectBetween holds xs 0 xs.size (Nat.le_refl _)

/-- Bisection finds the border: the property holds before it and nowhere from it on. -/
theorem bisectBetween_eq {α : Type} {holds : α → Bool} {xs : Array α} {border : Nat}
    (before : ∀ i (h : i < xs.size), i < border → holds xs[i] = true)
    (behind : ∀ i (h : i < xs.size), border ≤ i → holds xs[i] = false)
    (low high : Nat) (bound : high ≤ xs.size) (lower : low ≤ border) (upper : border ≤ high) :
    bisectBetween holds xs low high bound = border := by
  fun_induction bisectBetween holds xs low high bound with
  | case1 low high bound inside middle holdsThere ih =>
    have : middle < border := by
      apply Nat.lt_of_not_le
      intro h
      rw [behind middle (by omega) h] at holdsThere
      cases holdsThere
    exact ih (by omega) upper
  | case2 low high bound inside middle failsThere ih =>
    have : border ≤ middle := by
      apply Nat.le_of_not_lt
      intro h
      exact failsThere (before middle (by omega) h)
    exact ih lower this
  | case3 low high bound outside => omega

/-- The border that `bisect` answers, for any border there is. -/
theorem bisect_eq {α : Type} {holds : α → Bool} {xs : Array α} {border : Nat}
    (before : ∀ i (h : i < xs.size), i < border → holds xs[i] = true)
    (behind : ∀ i (h : i < xs.size), border ≤ i → holds xs[i] = false) (inside : border ≤ xs.size) :
    bisect holds xs = border :=
  bisectBetween_eq before behind 0 xs.size _ (Nat.zero_le _) inside

/-- Where the elements are split at the border, bisection counts those before it. -/
theorem bisect_eq_length {α : Type} {holds : α → Bool} {xs : Array α} {first later : List α}
    (split : xs.toList = first ++ later) (before : ∀ x ∈ first, holds x = true)
    (behind : ∀ x ∈ later, holds x = false) : bisect holds xs = first.length := by
  have size : xs.size = first.length + later.length := by
    simpa using congrArg List.length split
  have length : (first ++ later).length = xs.size := by rw [List.length_append, size]
  have element (i : Nat) (h : i < xs.size) (h' : i < (first ++ later).length) :
      xs[i] = (first ++ later)[i] := by
    simp [← split]
  refine bisect_eq ?_ ?_ (by omega)
  · intro i h inside
    rw [element i h (by rw [length]; exact h), List.getElem_append_left inside]
    exact before _ (List.getElem_mem inside)
  · intro i h outside
    rw [element i h (by rw [length]; exact h), List.getElem_append_right outside]
    exact behind _ (List.getElem_mem _)

/-- **The border of an array in order.** Where the property holds of whatever comes before an element of which
it holds, bisection counts all elements of which it holds. -/
theorem exists_split_bisect {α : Type} {holds : α → Bool} {xs : Array α}
    (ordered : xs.toList.Pairwise fun x y => holds y = true → holds x = true) :
    ∃ first later, xs.toList = first ++ later ∧ bisect holds xs = first.length ∧
      (∀ x ∈ first, holds x = true) ∧ ∀ x ∈ later, holds x = false := by
  have split : xs.toList = xs.toList.takeWhile holds ++ xs.toList.dropWhile holds :=
    List.takeWhile_append_dropWhile.symm
  have before : ∀ x ∈ xs.toList.takeWhile holds, holds x = true :=
    List.all_eq_true.mp List.all_takeWhile
  have behind : ∀ x ∈ xs.toList.dropWhile holds, holds x = false := by
    have ordered := ordered.sublist (List.dropWhile_sublist holds)
    have stopped := List.head?_dropWhile_not holds xs.toList
    cases dropped : xs.toList.dropWhile holds with
    | nil => simp
    | cons border rest =>
      rw [dropped] at ordered stopped
      have stopped : holds border = false := by simpa using stopped
      refine List.forall_mem_cons.mpr ⟨stopped, fun x later => ?_⟩
      -- If it held of a later element, it would hold of the border.
      rw [← Bool.not_eq_true] at stopped ⊢
      exact mt (List.rel_of_pairwise_cons ordered later) stopped
  exact ⟨_, _, split, bisect_eq_length split before behind, before, behind⟩

end MarkupAnalysis
