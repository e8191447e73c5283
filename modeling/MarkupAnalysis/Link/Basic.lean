import MarkupAnalysis.Document.Walk
import MarkupAnalysis.Link.Uri
import MarkupAnalysis.Vocabulary.Basic

/-! # Links

The attribute values of a document that locate something: another resource, or an element of the same
document. How relative references are resolved is up to a context.

* **`LinkContext`** — the document's URI and the resolution of references; `LinkContext.ofUri` joins URIs.
* **`Link`**, **`Link.of?`** — a link, and the link that an attribute value is.
* **`Document.links`** — the links of a document in order. The first `base` element with a usable `href`
  changes what the links after it are resolved against. -/

namespace MarkupAnalysis

open Text

/-- Where links are resolved from. -/
structure LinkContext where
  /-- The URI of the document. -/
  uri : Text
  /-- The URI of a reference against a base; none when it cannot be resolved. -/
  resolve : (reference base : Text) → Option Text

/-- The context that joins references onto URIs. -/
def LinkContext.ofUri [WordClass] (uri : Text) : LinkContext :=
  ⟨uri, fun reference base => Uri.join base reference⟩

/-- What a link leads to. -/
inductive LinkTarget where
  /-- Another resource. -/
  | uri (value : Text)
  /-- The element of this document that starts at the offset. -/
  | offset (value : Nat)
deriving DecidableEq, Repr

/-- A link. -/
structure Link where
  /-- The reference without its quotes. -/
  span : Span
  /-- What it leads to. -/
  target : LinkTarget
deriving DecidableEq, Repr

/-! ## References -/

/-- The value without its quotes, if the same quote stands at both ends. -/
def stripMatchingQuotes : Text → Text
  | [] => []
  | c :: cs => if isQuote c && cs.getLast? = some c then cs.dropLast else c :: cs

/-- Whether a character is a letter of a literal in lower case, in either case; the long s is a small s
of its own. -/
def isLetter (letter c : Char) : Bool := c.toLower = letter || (letter = 's' && c = 'ſ')

/-- Whether the text starts with the letters, in either case. -/
def startsWithLetters : (letters : Text) → Text → Bool
  | [], _ => true
  | _ :: _, [] => false
  | letter :: letters, c :: cs => isLetter letter c && startsWithLetters letters cs

/-- Whether a reference is a script and not a place. -/
def isScriptReference (reference : Text) : Bool :=
  startsWithLetters "javascript:".toList (trimStart reference)

/-- Whether a reference can be a link at all: one line, not blank, and no script. -/
def isUsable (reference : Text) : Bool :=
  !reference.all isBlank && !isScriptReference reference
    && !reference.any fun c => c = '\n' || c = '\r'

/-- The part of a URI before its query. -/
def withoutQuery (uri : Text) : Text := uri.takeWhile (· ≠ '?')

/-! ## Targets -/

/-- What a reference with a scheme leads to; unknown schemes lead nowhere. -/
def schemeTarget (scheme reference : Text) : Option LinkTarget :=
  let scheme := lower scheme
  if scheme = "http".toList || scheme = "https".toList then some (.uri reference)
  else if scheme = "file".toList then some (.uri (withoutQuery reference))
  else none

/-- The scheme for references that leave it out: that of the document if it is `https`. -/
def sharedScheme (uri : Text) : Text :=
  if startsWith "https://".toList uri then "https:".toList else "http:".toList

/-- What a reference without leading blanks leads to. -/
def targetOf [WordClass] (d : Document) (context : LinkContext) (base : Option Text) (reference : Text) :
    Option LinkTarget :=
  match Uri.scheme? reference, reference with
  | some scheme, reference => schemeTarget scheme reference
  | none, '#' :: fragment => (d.findById fragment).map fun id => .offset (d.node id).start
  | none, '/' :: '/' :: rest => some (.uri (sharedScheme context.uri ++ '/' :: '/' :: rest))
  | none, reference => (context.resolve reference (base.getD context.uri)).map .uri

/-- The span of a value's reference: the value, or what stands between its quotes. -/
def referenceSpan (value : AttributeValue) : Span :=
  if (stripMatchingQuotes value.text).length < value.text.length then
    ⟨value.span.start + 1, value.span.stop - 1⟩
  else value.span

/-- The link that an attribute value is. -/
def Link.of? [WordClass] (d : Document) (context : LinkContext) (base : Option Text)
    (value : AttributeValue) : Option Link :=
  let reference := stripMatchingQuotes value.text
  if isUsable reference then
    (targetOf d context base (trimStart reference)).map (⟨referenceSpan value, ·⟩)
  else none

/-! ## All links -/

/-- The values of an element's attributes that are references. -/
def Node.references (v : Vocabulary) (n : Node) : List AttributeValue :=
  match n.tag with
  | none => []
  | some tag =>
    n.attributes.toList.filterMap fun a =>
      if v.isReferenceAttribute tag a.name then a.value else none

/-- The base after a `base` element whose first reference is given; an empty one changes nothing. -/
def baseAfter (context : LinkContext) (value : AttributeValue) : Option Text :=
  let reference := stripMatchingQuotes value.text
  if reference.isEmpty then none else context.resolve reference context.uri

namespace Document

/-- The links of some elements, given the base that is in force. -/
def linksOf [WordClass] (d : Document) (v : Vocabulary) (context : LinkContext) :
    (base : Option Text) → List NodeId → List Link
  | _, [] => []
  | base, id :: ids =>
    let n := d.node id
    match base, n.tag.any (equalsIgnoringCase · "base".toList), n.references v with
    | none, true, value :: values =>
      let base := baseAfter context value
      values.filterMap (Link.of? d context base) ++ linksOf d v context base ids
    | base, _, values => values.filterMap (Link.of? d context base) ++ linksOf d v context base ids

/-- The links of a document, in the order of its elements; none when the text is not the document's. -/
def links [WordClass] (d : Document) (t : Text) (v : Vocabulary) (context : LinkContext) : List Link :=
  if t.byteLength = d.textLength then d.linksOf v context none d.elements else []

end Document

end MarkupAnalysis
