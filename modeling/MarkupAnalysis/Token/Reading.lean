import MarkupAnalysis.Token.Basic
import MarkupAnalysis.Token.EmbeddedBody
import MarkupAnalysis.Vocabulary.Basic

/-! # Reading one token

What the next token is, and how many characters it has, depends on the text ahead, on the *mode* of the
grammar that the place is in, and on a few things remembered from the tag being read.

* **`Mode`**, **`TagMemory`** — the mode, and what is remembered.
* **`Reading`** — what one step decides.
* **`readContent`**, **`readStartTag`**, … — one function for each mode.
* **`readToken`** — the reading of a non-empty text in any mode.

Where a mode finds nothing of its own it hands the text to one fixed other mode, so a reading takes no
loop. -/

namespace MarkupAnalysis

open Text

/-! ## Modes and what is remembered -/

/-- The place in the markup grammar. -/
inductive Mode where
  /-- Between tags. -/
  | content
  /-- After `<`. -/
  | startTagOpened
  /-- After `</`. -/
  | endTagOpened
  /-- In a `<!` declaration. -/
  | doctype
  /-- In the attribute list of a start tag. -/
  | startTag
  /-- After the name of an end tag. -/
  | endTag
  /-- In a comment. -/
  | comment
  /-- In the opaque body of an embedded element. -/
  | embeddedContent
  /-- After the name of an attribute. -/
  | attributeName
  /-- After the `=` of an attribute. -/
  | attributeValue
deriving DecidableEq, Repr

/-- What is remembered from the tag being read. -/
structure TagMemory where
  /-- The name of the latest start tag; empty when it has none. -/
  tag : Text := []
  /-- The name of the latest attribute. -/
  attributeName : Text := []
  /-- The value of the latest `type` attribute of this tag, without quotes. -/
  typeValue : Option Text := none
  /-- The tag whose embedded body comes next. -/
  embeddedTag : Option Text := none
  /-- Whether blanks were read since the latest name or value, so that an attribute may follow. -/
  blankBefore : Bool := false
deriving DecidableEq, Repr

/-- What one step decides: the token's kind and length, and what holds after it. -/
structure Reading where
  /-- The kind of the token. -/
  kind : TokenKind
  /-- The number of its characters. -/
  length : Nat
  /-- The mode after the token. -/
  mode : Mode
  /-- What is remembered after the token. -/
  memory : TagMemory
  /-- The problem met at the token. -/
  error : Option ScanError := none
deriving DecidableEq, Repr

/-! ## Names and values -/

/-- Whether a tag name may start with the character. -/
def isTagNameStart (c : Char) : Bool := c.isAlphanum || c = '_' || c = ':'

/-- Whether a tag name may go on with the character. -/
def isTagNameChar (c : Char) : Bool := isTagNameStart c || c = '-' || c = '.'

/-- The number of characters of the tag name that comes next; zero when none does. -/
def tagNameLength : Text → Nat
  | [] => 0
  | c :: cs => if isTagNameStart c then lengthWhile isTagNameChar cs + 1 else 0

/-- Whether the character may stand in an attribute's name. -/
def isAttributeNameChar (c : Char) : Bool :=
  !(isBlank c || c = '\x22' || c = '\'' || c = '>' || c = '<' || c = '/' || c = '='
    || c ≤ '\x0f' || ('\x7f' ≤ c && c ≤ '\u009f'))

/-- Whether the character may stand in a value without quotes. -/
def isUnquotedValueChar (c : Char) : Bool :=
  !(isBlank c || c = '\x22' || c = '\'' || c = '\x60' || c = '=' || c = '<' || c = '>')

/-- The number of characters of the unquoted value that comes next. A slash before the closing bracket
is not part of it: it belongs to the end of the tag. -/
def unquotedValueLength (t : Text) : Nat :=
  let length := lengthWhile isUnquotedValueChar t
  if (t.take length).getLast? = some '/' && (t.drop length).head? = some '>' then length - 1
  else length

/-! ## One function for each mode -/

section modes

variable (v : Vocabulary) (pseudoClose : Bool)

/-- Between tags: a comment, a declaration or a tag opens, or text runs up to the next `<`. -/
def readContent (memory : TagMemory) : Text → Reading
  | '<' :: '!' :: '-' :: '-' :: _ => ⟨.startComment, 4, .comment, memory, none⟩
  | '<' :: '!' :: name =>
    -- Any other `<!` opens a declaration without that word.
    let word := "doctype".toList
    ⟨.startDoctype, if startsWithIgnoringCase word name then 2 + word.length else 2, .doctype, memory,
      none⟩
  | '<' :: '/' :: _ => ⟨.endTagOpen, 2, .endTagOpened, memory, none⟩
  | '<' :: _ => ⟨.startTagOpen, 1, .startTagOpened, memory, none⟩
  | t => ⟨.content, lengthUntil (startsWith ['<']) t, .content, memory, none⟩

/-- In a comment: its end, or its text. -/
def readComment (memory : TagMemory) (t : Text) : Reading :=
  if startsWith "-->".toList t then ⟨.endComment, 3, .content, memory, none⟩
  else
    let length := lengthUntil (startsWith "-->".toList) t
    ⟨.comment, length, .comment, memory,
      if (t.drop length).isEmpty then some .unterminatedComment else none⟩

/-- In a declaration: its end, or its text. -/
def readDoctype (memory : TagMemory) (t : Text) : Reading :=
  if startsWith ['>'] t then ⟨.endDoctype, 1, .content, memory, none⟩
  else ⟨.doctype, lengthUntil (startsWith ['>']) t, .doctype, memory, none⟩

/-- After the name of an end tag: blanks and the bracket; anything else is given back to the content. -/
def readEndTag (memory : TagMemory) (t : Text) : Reading :=
  let blanks := lengthWhile isAsciiBlank t
  if 0 < blanks then ⟨.whitespace, blanks, .endTag, memory, none⟩
  else if startsWith ['>'] t then ⟨.endTagClose, 1, .content, memory, none⟩
  else if pseudoClose && startsWith ['<'] t then
    -- The `<` is left for the tag that it opens.
    ⟨.endTagClose, 0, .content, memory, some .closingBracketMissing⟩
  else ⟨.unknown, 1, .content, memory, some .closingBracketExpected⟩

/-- After `</`: the tag's name. -/
def readEndTagOpened (memory : TagMemory) (t : Text) : Reading :=
  let name := tagNameLength t
  if 0 < name then ⟨.endTag, name, .endTag, memory, none⟩
  else
    let blanks := lengthWhile isAsciiBlank t
    if 0 < blanks then ⟨.whitespace, blanks, .endTagOpened, memory, some .tagNameNotAdjacent⟩
    else
      let junk := lengthUntil (startsWith ['>']) t
      if 0 < junk then ⟨.unknown, junk, .endTag, memory, some .endTagNameExpected⟩
      else readEndTag pseudoClose memory t

/-- The `type` values of scripts whose body is markup all the same. -/
def markupScriptTypes : List Text := ["text/x-handlebars-template".toList, "text/html".toList]

/-- Whether the body of the tag that is being read is opaque. -/
def opensEmbeddedBody (memory : TagMemory) : Bool :=
  !memory.tag.isEmpty && v.isEmbeddedContent memory.tag
    && !(isScript memory.tag && memory.typeValue.any markupScriptTypes.contains)

/-- The bracket of a start tag: the body follows, opaque or not. -/
def closeStartTag (memory : TagMemory) : Reading :=
  if opensEmbeddedBody v memory then
    ⟨.startTagClose, 1, .embeddedContent, { memory with embeddedTag := some memory.tag }, none⟩
  else ⟨.startTagClose, 1, .content, memory, none⟩

/-- In the attribute list: blanks, a name after blanks, the end of the tag, or a stray character. -/
def readStartTag (memory : TagMemory) (t : Text) : Reading :=
  let blanks := lengthWhile isAsciiBlank t
  -- Without a blank before it, a name right after a value is not read as a name.
  let name := if memory.blankBefore then lengthWhile isAttributeNameChar t else 0
  if 0 < blanks then ⟨.whitespace, blanks, .startTag, { memory with blankBefore := true }, none⟩
  else if 0 < name then
    ⟨.attributeName, name, .attributeName,
      { memory with attributeName := t.take name, blankBefore := false }, none⟩
  else if startsWith "/>".toList t then ⟨.startTagSelfClose, 2, .content, memory, none⟩
  else if startsWith ['>'] t then closeStartTag v memory
  else if pseudoClose && startsWith ['<'] t then
    ⟨.startTagClose, 0, .content, memory, some .closingBracketMissing⟩
  else ⟨.unknown, 1, .startTag, memory, some .unexpectedCharacter⟩

/-- After `<`: the tag's name. -/
def readStartTagOpened (memory : TagMemory) (t : Text) : Reading :=
  let name := tagNameLength t
  let memory := { memory with tag := t.take name, typeValue := none, attributeName := [] }
  if 0 < name then ⟨.startTag, name, .startTag, { memory with blankBefore := false }, none⟩
  else
    let blanks := lengthWhile isAsciiBlank t
    if 0 < blanks then ⟨.whitespace, blanks, .startTagOpened, memory, some .tagNameNotAdjacent⟩
    else
      let junk := lengthUntil (startsWith ['>']) t
      if 0 < junk then ⟨.unknown, junk, .startTag, memory, some .startTagNameExpected⟩
      else readStartTag v pseudoClose memory t

/-- After an attribute's name: blanks, `=`, or whatever follows an attribute without a value. -/
def readAttributeName (memory : TagMemory) (t : Text) : Reading :=
  let blanks := lengthWhile isAsciiBlank t
  if 0 < blanks then
    ⟨.whitespace, blanks, .attributeName, { memory with blankBefore := true }, none⟩
  else if startsWith ['='] t then ⟨.delimiterAssign, 1, .attributeValue, memory, none⟩
  else readStartTag v pseudoClose memory t

/-- The value of a `type` attribute is remembered, that of others is not. -/
def TagMemory.noteValue (memory : TagMemory) (value : Text) : TagMemory :=
  if memory.attributeName.equalsIgnoringCase "type".toList then
    { memory with typeValue := some value }
  else memory

/-- A quoted value: up to the same quote, or to the end of the text. -/
def readQuotedValue (memory : TagMemory) (quote : Char) (t : Text) : Reading :=
  let length := lengthUntil (startsWith [quote]) t
  let memory := { memory.noteValue (t.take length) with blankBefore := false }
  if (t.drop length).isEmpty then
    ⟨.attributeValue, length + 1, .startTag, memory, some .unterminatedQuote⟩
  else ⟨.attributeValue, length + 2, .startTag, memory, none⟩

/-- After `=`: blanks or a value; without a value the tag goes on. -/
def readAttributeValue (memory : TagMemory) (t : Text) : Reading :=
  let blanks := lengthWhile isAsciiBlank t
  let run := lengthWhile isUnquotedValueChar t
  let value := unquotedValueLength t
  if 0 < blanks then ⟨.whitespace, blanks, .attributeValue, memory, none⟩
  else if 0 < run then
    let memory := { memory.noteValue (t.take value) with blankBefore := false }
    if 0 < value then ⟨.attributeValue, value, .startTag, memory, none⟩
    -- The run is the slash of `/>`.
    else readStartTag v pseudoClose memory t
  else
    match t with
    | '\x22' :: cs => readQuotedValue memory '\x22' cs
    | '\'' :: cs => readQuotedValue memory '\'' cs
    | t => readStartTag v pseudoClose { memory with blankBefore := false } t

/-- In an embedded body: all of it; an empty one gives no token. -/
def readEmbeddedContent (memory : TagMemory) (t : Text) : Reading :=
  let length := embeddedBodyLength memory.embeddedTag t
  if 0 < length then ⟨.embeddedContent, length, .content, memory, none⟩ else readContent memory t

/-! ## Any mode -/

/-- The reading of a non-empty text. -/
def readToken (mode : Mode) (memory : TagMemory) (t : Text) : Reading :=
  match mode with
  | .content => readContent memory t
  | .startTagOpened => readStartTagOpened v pseudoClose memory t
  | .endTagOpened => readEndTagOpened pseudoClose memory t
  | .doctype => readDoctype memory t
  | .startTag => readStartTag v pseudoClose memory t
  | .endTag => readEndTag pseudoClose memory t
  | .comment => readComment memory t
  | .embeddedContent => readEmbeddedContent memory t
  | .attributeName => readAttributeName v pseudoClose memory t
  | .attributeValue => readAttributeValue v pseudoClose memory t

end modes

end MarkupAnalysis
