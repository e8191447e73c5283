import MarkupAnalysis.Proofs.Document.Order
import MarkupAnalysis.Proofs.Document.Steps

/-! # The history of a node

What is known of a node of the whole text has come up with some token, and what every later token keeps is
so at the end.

* **`Document.exists_nodeStep`** — the token with which something has become so.
* **`Document.node_parse_of_keeps`** — what every later token keeps. -/

namespace MarkupAnalysis

/-- No token takes nodes away. -/
theorem Builder.size_le_take (v : Vocabulary) (length : Nat) (b : Builder) (token : Token) :
    b.nodes.size ≤ (b.take v length token).nodes.size := by
  have grown := congrArg List.length (starts_foldl (b := b) v length [token])
  rw [List.length_append, starts_eq, starts_eq, List.length_map, List.length_map, Array.length_toList,
    Array.length_toList] at grown
  exact Nat.le.intro grown.symm

namespace Document

variable {v : Vocabulary} {t : Text} {s : Tokenizer} {passed : List Token} {id : NodeId} {P : Node → Prop}

/-- What is so after some tokens, and not before all of them, has become so with one of them. -/
theorem exists_nodeStep_built (h : (scanner v t).Passes passed s)
    (not_first : ∀ id, ¬ P ((blank t).node id)) (holds : P ((built v t passed).node id)) :
    ∃ before s' n, (scanner v t).Passes before s' ∧ s'.ahead ≠ [] ∧
      (built v t before).NodeStep v t.byteLength s'.token id n ∧ P n ∧
      ¬ P ((built v t before).node id) := by
  refine h.along (P := fun passed _ => P ((built v t passed).node id) → ∃ before s' n,
    (scanner v t).Passes before s' ∧ s'.ahead ≠ [] ∧
      (built v t before).NodeStep v t.byteLength s'.token id n ∧ P n ∧
      ¬ P ((built v t before).node id)) ?_ ?_ holds
  -- On the tokens: it has been so before the latest one, or that one has made it so.
  · intro holds
    exact absurd holds (not_first id)
  · intro passed s passes some_ahead so_far holds
    by_cases before : P ((built v t passed).node id)
    · exact so_far before
    · refine ⟨passed, s, _, passes, some_ahead, ?_, holds, before⟩
      obtain ⟨frontier, -, nested⟩ := (stands_built passes).exists_nested
      rw [built_concat] at holds ⊢
      refine Builder.nodeStep_take nested v s.token ?_
      -- What is no node yet is like what comes behind the root before the first token.
      by_contra outside
      rw [Builder.node, Array.getElem?_eq_none (Nat.le_of_not_lt outside)] at holds
      exact not_first 1 holds

/-- **The token with which something has become so** that is so of a node of the text, and that the end of
the text does not bring about. -/
theorem exists_nodeStep (not_first : ∀ id, ¬ P ((blank t).node id))
    (not_last : ∀ n, P (Builder.cut t.byteLength n) → P n) (holds : P ((parse v t).node id)) :
    ∃ before s n, (scanner v t).Passes before s ∧ s.ahead ≠ [] ∧
      (built v t before).NodeStep v t.byteLength s.token id n ∧ P n ∧
      ¬ P ((built v t before).node id) := by
  obtain ⟨passed, s, passes, ended, -⟩ := (scanner v t).exists_passes
  refine exists_nodeStep_built passes not_first ?_
  rw [node_parse_of_ended passes ended] at holds
  split_ifs at holds with still_open
  · exact not_last _ holds
  · exact holds

/-- **What every later token keeps**, and the end of the text as well, is so of the node of the text. -/
theorem node_parse_of_keeps (h : (scanner v t).Passes passed s) (known : id < (built v t passed).nodes.size)
    (first : P ((built v t passed).node id))
    (keeps : ∀ before s' n, (scanner v t).Passes before s' → s'.ahead ≠ [] →
      s.position ≤ s'.position → id < (built v t before).nodes.size →
      (built v t before).NodeStep v t.byteLength s'.token id n →
      P ((built v t before).node id) → P n)
    (last : ∀ before s', (scanner v t).Passes before s' → id ∈ (built v t before).openElements →
      P ((built v t before).node id) → P (Builder.cut t.byteLength ((built v t before).node id))) :
    P ((parse v t).node id) := by
  obtain ⟨more, s', further, ended, -⟩ := s.exists_passes
  -- On the tokens that are left, together with what a step has to know of where it is.
  have kept : s.position ≤ s'.position ∧ id < (built v t (passed ++ more)).nodes.size ∧
      P ((built v t (passed ++ more)).node id) := by
    refine further.along (P := fun more s' => s.position ≤ s'.position ∧
      id < (built v t (passed ++ more)).nodes.size ∧ P ((built v t (passed ++ more)).node id)) ?_ ?_
    · rw [List.append_nil]
      exact ⟨Nat.le_refl _, known, first⟩
    · intro more s' between some_ahead kept
      obtain ⟨behind, inside, so_far⟩ := kept
      have passes := h.trans between
      obtain ⟨frontier, -, nested⟩ := (stands_built passes).exists_nested
      rw [← List.append_assoc, built_concat]
      have inside' := Nat.lt_of_lt_of_le inside
        (Builder.size_le_take v t.byteLength _ s'.token)
      exact ⟨Nat.le_trans behind Tokenizer.position_le_rest, inside', keeps _ s' _ passes some_ahead behind
        inside (Builder.nodeStep_take nested v s'.token inside') so_far⟩
  rw [node_parse_of_ended (h.trans further) ended]
  split_ifs with still_open
  · exact last _ s' (h.trans further) still_open kept.2.2
  · exact kept.2.2

end Document

end MarkupAnalysis
