import MarkupAnalysis.Proofs.Document.Marks
import MarkupAnalysis.Proofs.Token.Names

/-! # Names of elements

The name of an element is that of its start tag: it is given once, and it stays.

* **`Builder.name_take`** — where names come from.
* **`Document.exists_startTag`** — the start tag that has given an element its name.
* **`Document.name_parse`** — a name that has been given stays. -/

namespace MarkupAnalysis

open Document

namespace Builder

variable {b : Builder} {length frontier : Nat}

/-- The name of a start tag names its element. -/
theorem name_nameElement (nested : b.Nested length frontier) (v : Vocabulary) (token : Token)
    (j : NodeId) :
    ((b.nameElement v token).node j).name =
      if b.startTag = some j then some ⟨token.text, token.span⟩ else (b.node j).name := by
  unfold nameElement
  cases reading : b.startTag with
  | none => rfl
  | some id =>
    have inside := (nested.reading id reading).1
    have named {b' : Builder} (nodes : b'.nodes = (b.modify id fun n =>
        { n with
          name := some ⟨token.text, token.span⟩
          closed := n.closed || v.isVoid token.text }).nodes) :
        (b'.node j).name = if some id = some j then some ⟨token.text, token.span⟩
          else (b.node j).name := by
      rw [node_congr nodes, node_modify inside]
      by_cases same : j = id
      · rw [if_pos same, if_pos (congrArg some same.symm)]
      · rw [if_neg same, if_neg fun h => same (Option.some.inj h).symm]
    dsimp only
    split
    · exact named (nodes_leave _)
    · exact named rfl

/-- **Where names come from**: the name of a start tag is that of the element whose start tag is being read,
and no other token names an element. -/
theorem name_take (nested : b.Nested length frontier) (v : Vocabulary) (token : Token) (j : NodeId) :
    ((b.take v length token).node j).name = (b.node j).name ∨
      token.kind = .startTag ∧ b.startTag = some j ∧
        ((b.take v length token).node j).name = some ⟨token.text, token.span⟩ := by
  have modify (b : Builder) (id : NodeId) (change : Node → Node)
      (keeps : ∀ n, (change n).name = n.name) :
      ((b.modify id change).node j).name = (b.node j).name := node_modify_keeps Node.name keeps id j
  unfold take
  cases token.kind with
  | startTagOpen => exact .inl (node_openElement_keeps Node.name rfl (fun _ _ => rfl) j)
  | startTag =>
    by_cases own : b.startTag = some j
    · exact .inr ⟨rfl, own, (name_nameElement nested v token j).trans (if_pos own)⟩
    · exact .inl ((name_nameElement nested v token j).trans (if_neg own))
  | startTagClose =>
    left
    dsimp only [closeStartTag]
    split
    · rfl
    · split_ifs
      · rw [node_congr (nodes_leave _)]
        exact modify _ _ _ fun _ => rfl
      · rw [node_congr (nodes_leave _)]
        exact modify _ _ _ fun _ => rfl
      · exact modify _ _ _ fun _ => rfl
  | startTagSelfClose =>
    left
    dsimp only [selfCloseElement]
    split
    · rfl
    · rw [node_congr (nodes_leave _)]
      exact modify _ _ _ fun _ => rfl
  | attributeName | attributeValue =>
    left
    dsimp only [addAttribute, addValue]
    split
    · rfl
    · exact modify _ _ _ fun _ => rfl
  | endTag =>
    left
    -- Elements are closed and cut off without touching their names.
    rcases endElement_cases v b token with stray | ⟨start, inner, id, outer, -, -, taken⟩
    · rw [stray]
    · dsimp only
      rw [taken]
      exact (modify (b.cutOff inner start) id (closeWith start token.span) fun _ => rfl).trans
        (node_cutOff_keeps Node.name (fun _ => rfl) inner j)
  | endTagClose =>
    left
    dsimp only [closeEndTag]
    split
    · rfl
    · exact modify _ _ _ fun _ => rfl
  | endComment | eof =>
    left
    dsimp only
    rw [node_congr (nodes_endComment _ _)]
  | _ => exact .inl rfl

end Builder

namespace Document

variable {v : Vocabulary} {t : Text} {s s' : Tokenizer} {passed more before before' : List Token}
  {token token' : Token} {id : NodeId} {name : TagName}

/-- **The start tag that has given an element its name** is among the tokens. -/
theorem exists_startTag (h : (scanner v t).Passes passed s)
    (named : ((built v t passed).node id).name = some name) :
    ∃ before token, before ++ [token] <+: passed ∧ token.kind = .startTag ∧
      name = ⟨token.text, token.span⟩ ∧ (built v t before).startTag = some id := by
  refine h.along (P := fun passed _ => ((built v t passed).node id).name = some name →
    ∃ before token, before ++ [token] <+: passed ∧ token.kind = .startTag ∧
      name = ⟨token.text, token.span⟩ ∧ (built v t before).startTag = some id) ?_ ?_ named
  · intro named
    have nameless : ((blank t).node id).name = none := by cases id <;> rfl
    exact absurd (nameless.symm.trans named) (by simp)
  · intro passed s passes _ so_far named
    obtain ⟨frontier, -, nested⟩ := (stands_built passes).exists_nested
    rw [built_concat] at named
    -- The element has the name from before, or the token gives it.
    rcases Builder.name_take nested v s.token id with kept | ⟨kind, reading, given⟩
    · obtain ⟨before, token, next, rest⟩ := so_far (kept.symm.trans named)
      exact ⟨before, token, next.trans (List.prefix_append _ _), rest⟩
    · exact ⟨passed, s.token, List.prefix_rfl, kind, Option.some.inj (named.symm.trans given), reading⟩

/-- A name that has been given stays with every token. -/
theorem name_built_concat (h : (scanner v t).Passes passed s)
    (named : ((built v t passed).node id).name = some name) :
    ((built v t (passed ++ [s.token])).node id).name = some name := by
  obtain ⟨frontier, -, nested⟩ := (stands_built h).exists_nested
  rw [built_concat]
  rcases Builder.name_take nested v s.token id with kept | ⟨kind, reading, -⟩
  · rw [kept]
    exact named
  · -- A start tag whose name comes has none yet.
    have nameless := ((marked_built h).reading id reading).2 (Tokenizer.mode_of_startTag kind)
    exact absurd (nameless.symm.trans named) (by simp)

/-- **A name that has been given stays** along a scan. -/
theorem name_built (h : (scanner v t).Passes passed s) (further : s.Passes more s')
    (named : ((built v t passed).node id).name = some name) :
    ((built v t (passed ++ more)).node id).name = some name := by
  refine further.along (P := fun more _ => ((built v t (passed ++ more)).node id).name = some name) ?_ ?_
  · rwa [List.append_nil]
  · intro more s' behind _ so_far
    rw [← List.append_assoc]
    exact name_built_concat (h.trans behind) so_far

/-- At the end of the text no name changes. -/
theorem name_parse_of_ended (h : (scanner v t).Passes passed s) (ended : s.ahead = []) (id : NodeId) :
    ((parse v t).node id).name = ((built v t passed).node id).name := by
  have final : ((parse v t).node id).name = ((built v t (tokensOf v t)).node id).name :=
    Builder.node_cutOff_keeps Node.name (fun _ => rfl) _ id
  rw [final, node_built_of_ended h ended]

/-- A name that has been given is in the tree. -/
theorem name_parse (h : (scanner v t).Passes passed s)
    (named : ((built v t passed).node id).name = some name) :
    ((parse v t).node id).name = some name := by
  obtain ⟨more, s', further, ended, -⟩ := s.exists_passes
  rw [name_parse_of_ended (h.trans further) ended]
  exact name_built h further named

/-- The start tag of a name in the tree is among the tokens of the text. -/
theorem exists_startTag_of_parse (named : ((parse v t).node id).name = some name) :
    ∃ before token, before ++ [token] <+: tokensOf v t ∧ token.kind = .startTag ∧
      name = ⟨token.text, token.span⟩ ∧ (built v t before).startTag = some id := by
  obtain ⟨passed, s, passes, ended, all⟩ := (scanner v t).exists_passes
  rw [name_parse_of_ended passes ended] at named
  obtain ⟨before, token, next, rest⟩ := exists_startTag passes named
  exact ⟨before, token, next.trans ⟨[s.token], all.symm⟩, rest⟩

/-- The start tag that is being read gives its element the name. -/
theorem name_built_of_startTag (h : (scanner v t).Passes passed s) (kind : s.token.kind = .startTag)
    (reading : (built v t passed).startTag = some id) :
    ((built v t (passed ++ [s.token])).node id).name = some ⟨s.token.text, s.token.span⟩ := by
  obtain ⟨frontier, -, nested⟩ := (stands_built h).exists_nested
  rw [built_concat, Builder.take, kind]
  exact (Builder.name_nameElement nested v s.token id).trans (if_pos reading)

/-- The name of the start tag that is being read is the name of its element in the tree. -/
theorem name_of_startTag (h : (scanner v t).Passes passed s) (kind : s.token.kind = .startTag)
    (reading : (built v t passed).startTag = some id) :
    ((parse v t).node id).name = some ⟨s.token.text, s.token.span⟩ :=
  name_parse (h.concat (Tokenizer.ahead_ne_nil kind (by decide))) (name_built_of_startTag h kind reading)

end Document

end MarkupAnalysis
