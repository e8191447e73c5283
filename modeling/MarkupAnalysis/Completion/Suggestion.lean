import MarkupAnalysis.Text.Similarity
import MarkupAnalysis.Text.Span

/-! # Suggestions

What completion proposes, and how proposals are ranked against what has been typed.

* **`Suggestion`** — a proposal.
* **`Candidate`** — a proposal before it is ranked.
* **`rank`** — pinned proposals first, then those that go on from what is typed, then the others; within
  each tier the most similar ones first, and by label where they are equally similar. -/

namespace MarkupAnalysis

/-- What a suggestion proposes. -/
inductive SuggestionKind where
  /-- A tag name. -/
  | tag
  /-- An end tag. -/
  | closeTag
  /-- The name of an attribute. -/
  | attributeName
  /-- The name of an attribute that holds an event handler. -/
  | handler
  /-- The value of an attribute. -/
  | value
deriving DecidableEq, Repr

/-- The kind's name as it is written in answers. -/
def SuggestionKind.name : SuggestionKind → String
  | tag => "Tag"
  | closeTag => "CloseTag"
  | attributeName => "Attribute"
  | handler => "Handler"
  | value => "Value"

/-- A proposal to replace a span of the text. -/
structure Suggestion where
  /-- What is shown. -/
  label : Text
  /-- What is inserted; a snippet may hold tab stops such as `$0`. -/
  insertText : Text
  /-- What is proposed. -/
  kind : SuggestionKind
  /-- How similar the proposal is to what has been typed. -/
  score : Similarity := ⟨0, 0⟩
  /-- What is replaced. -/
  replace : Span
  /-- What the typed text is compared with, if not the label. -/
  filterText : Option Text := none
  /-- Whether the inserted text holds tab stops. -/
  isSnippet : Bool := false
deriving DecidableEq, Repr

/-- What the typed text is compared with. -/
def Suggestion.key (s : Suggestion) : Text := s.filterText.getD s.label

/-- A proposal before it is ranked. -/
structure Candidate where
  /-- The proposal. -/
  suggestion : Suggestion
  /-- Whether it comes before all that are not pinned. -/
  isPinned : Bool := false
deriving DecidableEq, Repr

/-! ## Ranking -/

/-- Names whose lengths differ by more are not similar at all. -/
def largestGap : Nat := 4

/-- A proposal with its tier, of which lower ones come first. -/
structure Ranked where
  /-- The tier. -/
  tier : Nat
  /-- The proposal with its score. -/
  suggestion : Suggestion
deriving DecidableEq, Repr

namespace Ranked

/-- The rank of a candidate against the text before the cursor that it would replace. -/
def ofCandidate (t : Text) (offset : Nat) (c : Candidate) : Ranked :=
  let s := c.suggestion
  let typed := (t.slice? ⟨s.replace.start, offset⟩).getD []
  { tier := if c.isPinned then 0 else if Text.startsWithIgnoringCase typed s.key then 1 else 2
    suggestion :=
      { s with score := if typed.isEmpty then ⟨0, 0⟩ else Similarity.of largestGap typed s.key } }

/-- Whether a proposal may come before another one. -/
def notAfter (a b : Ranked) : Bool :=
  a.tier < b.tier || (a.tier = b.tier
    && (b.suggestion.score.less a.suggestion.score
      || (!a.suggestion.score.less b.suggestion.score
        && !decide (b.suggestion.label < a.suggestion.label))))

end Ranked

/-- The candidates, best first. -/
def rank (t : Text) (offset : Nat) (candidates : List Candidate) : List Suggestion :=
  ((candidates.map (Ranked.ofCandidate t offset)).mergeSort Ranked.notAfter).map (·.suggestion)

end MarkupAnalysis
