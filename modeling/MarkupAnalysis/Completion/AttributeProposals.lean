import MarkupAnalysis.Completion.TagProposals

/-! # Proposals of attributes and values

Names of attributes that the element does not have yet, and values of the attribute before the cursor.

* **`attributeCandidates`** — names: those of the vocabulary, and those starting in `data-` that the
  document uses elsewhere.
* **`valueCandidates`** — values: inside quotes the word at the cursor is replaced, elsewhere the whole
  value together with new quotes. -/

namespace MarkupAnalysis.CompletionRequest

open Text

/-! ## Names -/

/-- What follows the name of a new attribute. -/
def valueSnippet : DefaultValue → Text
  | .doubleQuotes => "=\"$0\"".toList
  | .singleQuotes => "='$0'".toList
  | .empty => "=$0".toList

/-- The attributes of a list, each name once up to ASCII case and none that is taken. -/
def freshAttributes (taken : List Text) : List AttributeInfo → List AttributeInfo
  | [] => []
  | info :: infos =>
    if taken.contains (lower info.name) then freshAttributes taken infos
    else info :: freshAttributes (lower info.name :: taken) infos

/-- The proposal of an attribute of the vocabulary, with the start of a value if it takes one. -/
def attributeCandidate (replace : Span) (value : Text) (info : AttributeInfo) : Candidate where
  suggestion :=
    { label := info.name
      insertText := if info.isValueless then info.name else info.name ++ value
      kind := if info.isHandler then .handler else .attributeName
      replace
      isSnippet := true }

/-- What the names of free attributes start with. -/
def dataLead : Text := "data-".toList

/-- The proposal to start the name of a free attribute. -/
def newDataCandidate (replace : Span) : Candidate where
  suggestion :=
    { label := dataLead
      insertText := "data-$1=\"$2\"".toList
      kind := .attributeName
      replace
      isSnippet := true }

/-- The proposal of a free attribute that is used elsewhere. -/
def dataCandidate (replace : Span) (name : Text) : Candidate where
  suggestion :=
    { label := name
      insertText := name ++ "=\"$1\"".toList
      kind := .attributeName
      replace
      isSnippet := true }

/-- Whether the name is that of a free attribute. -/
def isDataName (name : Text) : Bool :=
  startsWith dataLead name && dataLead.length < name.length

/-- The names of all attributes in the order in which they are written. -/
def attributeNames (d : Document) : List Text :=
  d.elements.flatMap fun id => (d.node id).attributes.toList.map (·.name)

/-- The free attributes of a document, each spelling once, apart from the name being typed and those that
are taken. -/
def usedDataNames (d : Document) (current : Text) (taken : List Text) : List Text :=
  ((attributeNames d).filter fun name =>
    isDataName name && name ≠ current && !taken.contains (lower name)).eraseDups

/-- Names for the attribute at the cursor. -/
def attributeCandidates (r : CompletionRequest) (tag : Option Text) (name : Span) : List Candidate :=
  let current := (r.text.slice? name).getD []
  let replace := r.replacing name
  let value :=
    if r.isFollowedBy name.stop .attributeName .delimiterAssign then []
    else valueSnippet r.options.defaultValue
  let others := (r.document.node r.node).attributes.toList.filter (·.name ≠ current)
  let taken := others.map fun a => lower a.name
  let fresh := freshAttributes taken (r.vocabulary.attributesFor (tag.getD []))
  let taken := taken ++ fresh.map fun info => lower info.name
  fresh.map (attributeCandidate replace value) ++ [newDataCandidate replace]
    ++ (usedDataNames r.document current taken).map (dataCandidate replace)

/-! ## Values -/

/-- The start of the word that ends at an offset, not before `limit`. -/
def wordStart (t : Text) (offset limit : Nat) : Nat :=
  let word := ((t.slice? ⟨limit, offset⟩).getD []).reverse.takeWhile (!isAsciiBlank ·)
  offset - byteLength word

/-- The end of the word that starts at an offset, not behind `limit`. -/
def wordStop (t : Text) (offset limit : Nat) : Nat :=
  offset + byteLength (((t.slice? ⟨offset, limit⟩).getD []).takeWhile (!isAsciiBlank ·))

/-- The quote that the value opens with. -/
def quoteOf? (t : Text) (value : Span) : Option Char :=
  ((t.dropBytes? value.start).bind List.head?).filter isQuote

/-- The end of a quoted value without the closing quote. -/
def unquotedStop (t : Text) (value : Span) (quote : Char) : Nat :=
  let content := (t.slice? ⟨value.start + 1, value.stop⟩).getD []
  if content.getLast? = some quote then value.stop - 1 else value.stop

/-- What a value replaces, and whether it brings its own quotes. -/
def valueReplacement (r : CompletionRequest) (value : Span) : Span × Bool :=
  match quoteOf? r.text value with
  | some quote =>
    if value.start < r.offset && r.offset ≤ value.stop then
      let start := wordStart r.text r.offset (value.start + 1)
      let stop := wordStop r.text r.offset (unquotedStop r.text value quote)
      (r.replacing ⟨start, stop⟩, false)
    else (r.replacing value, true)
  | none => (r.replacing value, true)

/-- The quotes for values that have none. -/
def quoteChar : DefaultValue → Char
  | .singleQuotes => '\''
  | _ => '\x22'

/-- Values for the attribute at the cursor. -/
def valueCandidates (r : CompletionRequest) (tag name : Option Text) (value : Span) : List Candidate :=
  let (replace, addsQuotes) := r.valueReplacement value
  let quote := quoteChar r.options.defaultValue
  (r.vocabulary.valuesFor (tag.getD []) (name.getD [])).map fun value =>
    let insertText := if addsQuotes then quote :: value ++ [quote] else value
    { suggestion :=
        { label := value, insertText, kind := .value, replace, filterText := some insertText } }

end MarkupAnalysis.CompletionRequest
