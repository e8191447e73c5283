import MarkupAnalysis.Proofs.Document.Attributes
import MarkupAnalysis.Proofs.Document.Marks

/-! # Attributes stand between brackets

The attributes of an element start behind the `<` of its start tag, and where the tag ends in `/>` they end
before the slash. The root has no start tag.

* **`Node.BetweenBrackets`** — the attributes of an element are between its brackets.
* **`Node.Tagless`** — a node has no start tag.
* **`Builder.betweenBrackets_of_nodeStep`**, **`Builder.tagless_root_of_nodeStep`** — no token changes that.
* **`Document.betweenBrackets_parse`**, **`Document.tagless_root_parse`** — the nodes of every text. -/

namespace MarkupAnalysis

open Document

/-- **The attributes of an element are between its brackets.** -/
structure Node.BetweenBrackets (n : Node) : Prop where
  /-- They start behind the first one. -/
  opening : ∀ a ∈ n.attributes, n.start < a.span.start
  /-- In front of `/>` they end before the slash. -/
  closing : n.selfClosing = true →
    ∃ stop, n.startTagEnd = some stop ∧ ∀ a ∈ n.attributes, a.span.stop + 2 ≤ stop

/-- **A node without a start tag** has neither its end nor attributes. -/
structure Node.Tagless (n : Node) : Prop where
  /-- No start tag ends. -/
  startTagEnd : n.startTagEnd = none
  /-- There are no attributes. -/
  attributes : n.attributes = #[]

namespace Builder

variable {v : Vocabulary} {t : Text} {b : Builder} {s : Tokenizer} {id : NodeId} {n : Node}

/-- **Every way of changing a node** keeps its attributes between its brackets. -/
theorem betweenBrackets_of_nodeStep (so_far : ∀ id < b.nodes.size, (b.node id).BetweenBrackets)
    (attributes : b.AttributesStandIn t s) (marked : b.Marked v s.mode)
    (stands : b.Stands t.byteLength s.mode s.position)
    (step : b.NodeStep v t.byteLength s.token id n) : n.BetweenBrackets := by
  obtain ⟨frontier, reached, nested⟩ := stands.exists_nested
  have started (reading : b.startTag = some id) : (b.node id).start < s.position := by
    obtain ⟨inside, off_root, -⟩ := nested.reading id reading
    exact Nat.lt_of_lt_of_le (nested.starts id inside off_root) reached
  have of_reading (reading : b.startTag = some id) : (b.node id).BetweenBrackets :=
    so_far id (nested.reading id reading).1
  have not_selfClosing (reading : b.startTag = some id) : (b.node id).selfClosing ≠ true := by
    rw [(marked.reading id reading).1]
    exact Bool.false_ne_true
  cases step with
  | keeps known => exact so_far id known
  | adopts _ known => exact ⟨(so_far id known).opening, (so_far id known).closing⟩
  | opens => exact ⟨by simp [opened], nofun⟩
  | names _ reading | interrupts _ reading =>
    exact ⟨(of_reading reading).opening, (of_reading reading).closing⟩
  | endsStartTag _ reading =>
    exact ⟨(of_reading reading).opening, fun selfClosing => absurd selfClosing (not_selfClosing reading)⟩
  | selfCloses kind reading =>
    have two_bytes : s.token.text.byteLength = 2 := by
      rw [Tokenizer.text_of_startTagSelfClose kind]
      rfl
    have stop : s.token.span.stop = s.position + 2 := congrArg (s.position + ·) two_bytes
    refine ⟨(of_reading reading).opening, fun _ => ⟨s.token.span.stop, rfl, fun a mem => ?_⟩⟩
    -- The attributes end before `/>` starts.
    have := (attributes.reached id reading).attributes a mem
    omega
  | addsAttribute _ reading =>
    refine ⟨fun a mem => ?_, fun selfClosing => absurd selfClosing (not_selfClosing reading)⟩
    rcases Array.mem_push.mp mem with before | rfl
    · exact (of_reading reading).opening a before
    · exact started reading
  | addsValue kind reading =>
    refine ⟨fun a mem => ?_, fun selfClosing => absurd selfClosing (not_selfClosing reading)⟩
    obtain ⟨others, latest, split, no_value, -⟩ :=
      attributes.assigned (Tokenizer.mode_of_attributeValue kind) id reading
    have opening := (of_reading reading).opening
    dsimp only at mem
    rw [split, modify_giveValue no_value] at mem
    rw [split] at opening
    rcases Array.mem_push.mp mem with before | rfl
    · exact opening a (Array.mem_push_of_mem latest before)
    · -- The value does not move the name.
      exact opening latest Array.mem_push_self
  | cutsOff _ _ mem | closes _ _ mem =>
    have known := so_far id (nested.lt_size mem)
    exact ⟨known.opening, known.closing⟩
  | endsEndTag kind ended =>
    obtain ⟨-, just_ended⟩ := stands.justEnded_of_endTagClose kind ended
    have known := so_far id just_ended.inside
    exact ⟨known.opening, known.closing⟩

/-- **No token gives the root a start tag.** -/
theorem tagless_root_of_nodeStep (so_far : (b.node root).Tagless)
    (stands : b.Stands t.byteLength s.mode s.position)
    (step : b.NodeStep v t.byteLength s.token root n) : n.Tagless := by
  obtain ⟨frontier, -, nested⟩ := stands.exists_nested
  have not_reading (reading : b.startTag = some root) : False := (nested.reading root reading).2.1 rfl
  cases step with
  | keeps => exact so_far
  | adopts | cutsOff | closes | endsEndTag => exact ⟨so_far.startTagEnd, so_far.attributes⟩
  | opens => exact ⟨rfl, rfl⟩
  | names _ reading | interrupts _ reading | endsStartTag _ reading | selfCloses _ reading
  | addsAttribute _ reading | addsValue _ reading => exact (not_reading reading).elim

end Builder

namespace Document

variable {v : Vocabulary} {t : Text} {s : Tokenizer} {passed : List Token}

/-- The brackets of the nodes after some of the tokens of a text. -/
theorem betweenBrackets_built (h : (scanner v t).Passes passed s) :
    ∀ id < (built v t passed).nodes.size, ((built v t passed).node id).BetweenBrackets := by
  refine h.along (P := fun passed _ =>
    ∀ id < (built v t passed).nodes.size, ((built v t passed).node id).BetweenBrackets) ?_ ?_
  · intro id inside
    obtain rfl := Nat.lt_one_iff.mp inside
    exact ⟨by simp [built, blank, Builder.start, Builder.node], nofun⟩
  · intro passed s passes _ so_far id inside
    obtain ⟨frontier, -, nested⟩ := (stands_built passes).exists_nested
    rw [built_concat] at inside ⊢
    exact Builder.betweenBrackets_of_nodeStep so_far (attributesStand_built passes)
      (marked_built passes) (stands_built passes) (Builder.nodeStep_take nested v s.token inside)

/-- The root has no start tag after any of the tokens of a text. -/
theorem tagless_root_built (h : (scanner v t).Passes passed s) :
    ((built v t passed).node root).Tagless := by
  refine h.along (P := fun passed _ => ((built v t passed).node root).Tagless) ⟨rfl, rfl⟩ ?_
  intro passed s passes some_ahead so_far
  obtain ⟨frontier, -, nested⟩ := (stands_built passes).exists_nested
  obtain ⟨frontier', -, nested'⟩ := (stands_built (passes.concat some_ahead)).exists_nested
  have known := nested'.root.1
  rw [built_concat] at known ⊢
  exact Builder.tagless_root_of_nodeStep so_far (stands_built passes)
    (Builder.nodeStep_take nested v s.token known)

/-- **The attributes of every text are between the brackets** of their elements. -/
theorem betweenBrackets_parse {id : NodeId} (inside : id < (parse v t).nodes.size) :
    ((parse v t).node id).BetweenBrackets := by
  obtain ⟨passed, s, passes, ended, -⟩ := (scanner v t).exists_passes
  rw [size_parse_of_ended passes ended] at inside
  have known := betweenBrackets_built passes id inside
  rw [node_parse_of_ended passes ended]
  split
  · exact ⟨known.opening, known.closing⟩
  · exact known

/-- **The root of every text has no start tag.** -/
theorem tagless_root_parse (v : Vocabulary) (t : Text) : ((parse v t).node root).Tagless := by
  obtain ⟨passed, s, passes, ended, -⟩ := (scanner v t).exists_passes
  have known := tagless_root_built passes
  rw [node_parse_of_ended passes ended]
  split
  · exact ⟨known.startTagEnd, known.attributes⟩
  · exact known

end Document

end MarkupAnalysis
