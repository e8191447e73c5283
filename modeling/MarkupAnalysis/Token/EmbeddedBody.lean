import MarkupAnalysis.Text.WhiteSpace

/-! # Bodies of embedded elements

The body of an element such as `style` or `script` is opaque: it runs up to the element's own end tag. A
script body may also hide that end tag: after `<!--`, a `<script` makes the next `</script` part of the
body.

* **`isEndTagOf`** — whether `</` and a tag's name come next.
* **`ScriptMarker.read?`** — the marker of a script body that comes next.
* **`scriptBodyLength`** — the number of characters of a script body.
* **`embeddedBodyLength`** — the number of characters of any embedded body. -/

namespace MarkupAnalysis

open Text

/-- Whether the text starts with `</` and the tag's name, up to ASCII case. -/
def isEndTagOf (tag : Text) : Text → Bool
  | '<' :: '/' :: name => startsWithIgnoringCase tag name
  | _ => false

/-! ## Script bodies -/

/-- How deep the place in a script body is hidden. -/
inductive ScriptEscape where
  /-- Outside of any comment: the next end tag ends the body. -/
  | normal
  /-- After `<!--`: the next end tag still ends the body. -/
  | escaped
  /-- After `<!--` and a start tag: the next end tag belongs to the body. -/
  | doubleEscaped
deriving DecidableEq, Repr

/-- What changes or ends the hiding in a script body. -/
inductive ScriptMarker where
  /-- The characters `<!--`. -/
  | commentOpen
  /-- The characters `-->`. -/
  | commentClose
  /-- A start tag of the element itself. -/
  | startTag
  /-- An end tag of the element itself. -/
  | endTag
deriving DecidableEq, Repr

/-- The number of characters of the blanks, the slash and the bracket that may follow a tag's name. -/
def tagTailLength (t : Text) : Nat :=
  let blanks := lengthWhile isAsciiBlank t
  match t.drop blanks with
  | '/' :: '>' :: _ => blanks + 2
  | '/' :: _ => blanks + 1
  | '>' :: _ => blanks + 1
  | _ => blanks

/-- The tag marker after a `<` and the number of its characters, bracket included. -/
def tagMarker? (tag : Text) (marker : ScriptMarker) (opening : Nat) (name : Text) :
    Option (ScriptMarker × Nat) :=
  if startsWithIgnoringCase tag name then
    some (marker, opening + tag.length + tagTailLength (name.drop tag.length))
  else
    none

/-- The marker that the text starts with and the number of its characters. -/
def ScriptMarker.read? (tag : Text) : Text → Option (ScriptMarker × Nat)
  | '<' :: '!' :: '-' :: '-' :: _ => some (commentOpen, 4)
  | '<' :: '/' :: name => tagMarker? tag endTag 2 name
  | '<' :: name => tagMarker? tag startTag 1 name
  | '-' :: '-' :: '>' :: _ => some (commentClose, 3)
  | _ => none

/-- The hiding after a marker; none when the marker ends the body. -/
def ScriptEscape.after? : ScriptEscape → ScriptMarker → Option ScriptEscape
  | normal, .commentOpen => some escaped
  | hidden, .commentOpen => some hidden
  | _, .commentClose => some normal
  | escaped, .startTag => some doubleEscaped
  | hidden, .startTag => some hidden
  | doubleEscaped, .endTag => some escaped
  | _, .endTag => none

/-- The number of characters of a script body, `skip` of which belong to a marker already read. -/
def scriptBodyLength (tag : Text) : ScriptEscape → (skip : Nat) → Text → Nat
  | _, _, [] => 0
  | hidden, skip + 1, _ :: cs => scriptBodyLength tag hidden skip cs + 1
  | hidden, 0, c :: cs =>
    match ScriptMarker.read? tag (c :: cs) with
    | none => scriptBodyLength tag hidden 0 cs + 1
    | some (marker, length) =>
      match hidden.after? marker with
      | none => 0
      | some hidden => scriptBodyLength tag hidden (length - 1) cs + 1

/-! ## Any body -/

/-- Whether the tag is that of scripts. -/
def isScript (tag : Text) : Bool := tag.equalsIgnoringCase "script".toList

/-- The number of characters of the embedded body of `tag`; without a tag, any end tag ends it. -/
def embeddedBodyLength (tag : Option Text) (t : Text) : Nat :=
  let tag := tag.getD []
  if isScript tag then scriptBodyLength tag .normal 0 t else lengthUntil (isEndTagOf tag) t

end MarkupAnalysis
