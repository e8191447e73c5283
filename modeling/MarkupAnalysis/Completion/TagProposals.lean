import MarkupAnalysis.Completion.Suggestion
import MarkupAnalysis.Configuration.Basic
import MarkupAnalysis.Document.Position
import MarkupAnalysis.Token.Tokenizer

/-! # Proposals of tags

Start tags that the content model of the element around admits, end tags of all known tags, and first of
all the end tag of the nearest open element.

* **`CompletionRequest`** — what proposals depend on.
* **`openTagCandidates`** — names for a start tag.
* **`closeTagCandidates`** — end tags. An end tag that would stand on a line of its own is aligned with
  its start tag.
* **`autoCloseCandidates`** — the end tag right behind a start tag. -/

namespace MarkupAnalysis

open Text

/-- A document names an offset that is no character boundary of the text it is used with. -/
structure StaleDocument where
  /-- The offset. -/
  offset : Nat
deriving DecidableEq, Repr

/-- What proposals depend on. -/
structure CompletionRequest where
  /-- The text. -/
  text : Text
  /-- The tree, which may be that of another text. -/
  document : Document
  /-- The cursor. -/
  offset : Nat
  /-- The vocabulary. -/
  vocabulary : Vocabulary
  /-- The settings. -/
  options : CompletionOptions
  /-- The node before the cursor. -/
  node : NodeId

namespace CompletionRequest

/-- The span as far as the cursor. -/
def replacing (r : CompletionRequest) (s : Span) : Span := ⟨min s.start r.offset, max s.stop r.offset⟩

/-- Whether the first token from an offset on that is not blank is of a kind. -/
def isFollowedBy (r : CompletionRequest) (offset : Nat) (mode : Mode) (kind : TokenKind) : Bool :=
  let tokens := ((Tokenizer.start r.vocabulary r.text offset).withMode mode).tokens
  (tokens.find? (·.kind ≠ .whitespace)).any (·.kind = kind)

/-! ## Start tags -/

/-- The element around a start tag whose `<` is at an offset. -/
def parentAt (r : CompletionRequest) (bracket : Nat) : Option NodeId :=
  let n := r.document.node r.node
  if n.start = bracket then n.parent else some r.node

/-- Names for the start tag whose `<` is at an offset. -/
def openTagCandidates (r : CompletionRequest) (name : Span) (bracket : Nat) : List Candidate :=
  let parent := (r.parentAt bracket).bind fun id => (r.document.node id).tag
  let allowed := r.vocabulary.tags.filter fun tag => parent.all (r.vocabulary.allowsChild · tag)
  allowed.map fun tag =>
    { suggestion := { label := tag, insertText := tag, kind := .tag, replace := r.replacing name } }

/-! ## End tags -/

/-- The text from the start of the line to an offset if it is all blank; an offset that is no character
boundary belongs to another text. -/
def blankLineStart (t : Text) (offset : Nat) : Except StaleDocument (Option Text) :=
  match t.takeBytes? offset with
  | none => .error ⟨offset⟩
  | some before =>
    let line := (before.reverse.takeWhile fun c => c ≠ '\n' && c ≠ '\r').reverse
    .ok (if line.all isAsciiBlank then some line else none)

/-- Whether the element has not ended at the cursor. -/
def isOpenAt (offset : Nat) (n : Node) : Bool := !n.closed || n.endTagStart.any (offset < ·)

/-- The tag and the start of the nearest element that has not ended at the cursor. In a start tag the
search begins outside of it. -/
def openAncestor? (r : CompletionRequest) (inStartTag : Bool) : Option (Text × Nat) :=
  let ancestors := r.document.ancestors r.node
  (if inStartTag then ancestors else r.node :: ancestors).findSome? fun id =>
    let n := r.document.node id
    if isOpenAt r.offset n then n.tag.map (·, n.start) else none

/-- The proposal to end an element, aligned with its start tag where both stand first on their lines. The
name is taken from its slash on. -/
def closeCandidate (r : CompletionRequest) (name : Span) (close tag : Text) (start : Nat) :
    Except StaleDocument Candidate := do
  let startIndent ← blankLineStart r.text start
  let endIndent ← blankLineStart r.text (name.start - 1)
  let plain : Suggestion :=
    { label := '/' :: tag
      insertText := '/' :: tag ++ close
      kind := .closeTag
      replace := r.replacing name
      filterText := some ('/' :: tag) }
  let suggestion : Suggestion :=
    match startIndent, endIndent with
    | some startIndent, some endIndent =>
      if startIndent = endIndent then plain
      else
        { plain with
          insertText := startIndent ++ '<' :: '/' :: tag ++ close
          replace := r.replacing ⟨name.start - 1 - endIndent.byteLength, r.offset⟩
          filterText := some (endIndent ++ '<' :: '/' :: tag) }
    | _, _ => plain
  pure { suggestion, isPinned := true }

/-- The end tags of all known tags except one. -/
def otherCloseCandidates (r : CompletionRequest) (name : Span) (close : Text) (except : Option Text) :
    List Candidate :=
  let others := r.vocabulary.tags.filter fun tag => !except.any (r.vocabulary.tagNamesMatch · tag)
  others.map fun tag =>
    { suggestion :=
        { label := '/' :: tag
          insertText := '/' :: tag ++ close
          kind := .closeTag
          replace := r.replacing name
          filterText := some ('/' :: tag ++ close) } }

/-- End tags: that of the nearest open element, pinned, and outside of start tags those of all other
known tags. The bracket is added unless it is there. -/
def closeTagCandidates (r : CompletionRequest) (name : Span) (inStartTag : Bool) :
    Except StaleDocument (List Candidate) := do
  let close := if r.isFollowedBy name.stop .endTag .endTagClose then [] else ['>']
  let ancestor := r.openAncestor? inStartTag
  let pinned ← match ancestor with
    | some (tag, start) => (r.closeCandidate name close tag start).map ([·])
    | none => pure []
  let others := if inStartTag then [] else r.otherCloseCandidates name close (ancestor.map (·.1))
  pure (pinned ++ others)

/-- The end tag right behind the `>` of a start tag, unless the tag is void or the proposal is hidden. -/
def autoCloseCandidates (r : CompletionRequest) (tag : Text) (stop : Nat) : List Candidate :=
  if r.options.hideAutoClose || r.vocabulary.isVoid tag then []
  else
    let endTag := '<' :: '/' :: tag ++ ['>']
    [{ suggestion :=
        { label := endTag
          insertText := "$0".toList ++ endTag
          kind := .closeTag
          replace := ⟨stop, stop⟩
          filterText := some endTag
          isSnippet := true }
       isPinned := true }]

end CompletionRequest

end MarkupAnalysis
