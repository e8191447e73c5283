import MarkupAnalysis.Text.Span

/-! # Tokens

The pieces that a markup text is cut into, and the problems that are reported on them. A problem never
replaces a token: malformed input is cut into tokens like any other. -/

namespace MarkupAnalysis

/-- What a token is. -/
inductive TokenKind where
  /-- The `<` of a start tag. -/
  | startTagOpen
  /-- The name in a start tag. -/
  | startTag
  /-- The `>` of a start tag. -/
  | startTagClose
  /-- The `/>` of a start tag that is its whole element. -/
  | startTagSelfClose
  /-- The `</` of an end tag. -/
  | endTagOpen
  /-- The name in an end tag. -/
  | endTag
  /-- The `>` of an end tag. -/
  | endTagClose
  /-- The name of an attribute. -/
  | attributeName
  /-- The `=` between an attribute's name and its value. -/
  | delimiterAssign
  /-- The value of an attribute, with its quotes. -/
  | attributeValue
  /-- Text between tags. -/
  | content
  /-- Blanks inside a tag. -/
  | whitespace
  /-- The `<!--` of a comment. -/
  | startComment
  /-- The text of a comment. -/
  | comment
  /-- The `-->` of a comment. -/
  | endComment
  /-- The `<!` of a declaration, with the word `doctype` if it follows. -/
  | startDoctype
  /-- The text of a declaration. -/
  | doctype
  /-- The `>` of a declaration. -/
  | endDoctype
  /-- The opaque body of an element such as `script`. -/
  | embeddedContent
  /-- Text that fits nowhere. -/
  | unknown
  /-- The end of the text. -/
  | eof
deriving DecidableEq, Repr

/-- The kind's name as it is written in answers. -/
def TokenKind.name : TokenKind → String
  | startTagOpen => "StartTagOpen"
  | startTag => "StartTag"
  | startTagClose => "StartTagClose"
  | startTagSelfClose => "StartTagSelfClose"
  | endTagOpen => "EndTagOpen"
  | endTag => "EndTag"
  | endTagClose => "EndTagClose"
  | attributeName => "AttributeName"
  | delimiterAssign => "DelimiterAssign"
  | attributeValue => "AttributeValue"
  | content => "Content"
  | whitespace => "Whitespace"
  | startComment => "StartComment"
  | comment => "Comment"
  | endComment => "EndComment"
  | startDoctype => "StartDoctype"
  | doctype => "Doctype"
  | endDoctype => "EndDoctype"
  | embeddedContent => "EmbeddedContent"
  | unknown => "Unknown"
  | eof => "Eof"

/-- A problem that is reported on a token, or on the place to start from. -/
inductive ScanError where
  /-- Blanks stand between an opening bracket and the tag name. -/
  | tagNameNotAdjacent
  /-- A start tag has no name. -/
  | startTagNameExpected
  /-- An end tag has no name. -/
  | endTagNameExpected
  /-- A character fits nowhere in a start tag. -/
  | unexpectedCharacter
  /-- Something other than `>` follows the name of an end tag. -/
  | closingBracketExpected
  /-- The next tag opens before this one is closed. -/
  | closingBracketMissing
  /-- The text ends inside a quoted value. -/
  | unterminatedQuote
  /-- The text ends inside a comment. -/
  | unterminatedComment
  /-- The place to start from is outside the text or inside a character. -/
  | offsetOutOfBounds (offset length : Nat)
deriving DecidableEq, Repr

namespace ScanError

/-- The problem's name as it is written in answers. -/
def name : ScanError → String
  | tagNameNotAdjacent => "TagNameNotAdjacent"
  | startTagNameExpected => "StartTagNameExpected"
  | endTagNameExpected => "EndTagNameExpected"
  | unexpectedCharacter => "UnexpectedCharacter"
  | closingBracketExpected => "ClosingBracketExpected"
  | closingBracketMissing => "ClosingBracketMissing"
  | unterminatedQuote => "UnterminatedQuote"
  | unterminatedComment => "UnterminatedComment"
  | offsetOutOfBounds .. => "OffsetOutOfBounds"

/-- The sentence that is shown for the problem. -/
def message : ScanError → String
  | tagNameNotAdjacent => "Tag name must directly follow the open bracket."
  | startTagNameExpected => "Start tag name expected."
  | endTagNameExpected => "End tag name expected."
  | unexpectedCharacter => "Unexpected character in tag."
  | closingBracketExpected => "Closing bracket expected."
  | closingBracketMissing => "Closing bracket missing."
  | unterminatedQuote => "Unterminated quoted attribute value."
  | unterminatedComment => "Unterminated comment."
  | offsetOutOfBounds offset length =>
    s!"Scan offset {offset} is outside the input (length {length}) or not on a character boundary."

end ScanError

/-- A token: a piece of the text, where it stands and what it is. -/
structure Token where
  /-- What the token is. -/
  kind : TokenKind
  /-- Where the token stands. -/
  span : Span
  /-- The characters of the token. -/
  text : Text
  /-- The problem that was met at the token. -/
  error : Option ScanError
deriving DecidableEq, Repr

end MarkupAnalysis
