import MarkupAnalysis.Text.WhiteSpace
import MarkupAnalysis.Text.Word

/-! # Joining URIs

A reference is joined onto a base by replacing what follows the last slash of the base's path. Segments
`.` and `..` of the reference are resolved on the way.

* **`Uri.scheme?`** — the scheme that a reference starts with.
* **`Uri.split?`** — the origin and the path of a base.
* **`Uri.join`** — the joined URI. -/

namespace MarkupAnalysis.Uri

open Text

variable [WordClass]

/-! ## Parts -/

/-- Whether a scheme may go on with the character. -/
def isSchemeChar (c : Char) : Bool := isWord c || c = '+' || c = '.' || c = '-'

/-- The scheme that a reference starts with: a word character, then scheme characters, then a colon. -/
def scheme? (reference : Text) : Option Text :=
  let scheme := reference.takeWhile isSchemeChar
  if scheme.head?.any isWord && startsWith [':'] (reference.dropWhile isSchemeChar) then some scheme
  else none

/-- Whether the character opens a query or a fragment. -/
def opensSuffix (c : Char) : Bool := c = '?' || c = '#'

/-- What stands before the query and the fragment. -/
def withoutSuffix (t : Text) : Text := t.takeWhile (!opensSuffix ·)

/-- The query and the fragment with the character that opens them. -/
def suffix (t : Text) : Text := t.dropWhile (!opensSuffix ·)

/-- The origin and the path of a base: the path starts at the first slash behind `://`. A base without
`://` has neither. -/
def split? (base : Text) : Option (Text × Text) :=
  (cut? "://".toList base).map fun (scheme, rest) =>
    (scheme ++ "://".toList ++ rest.takeWhile (· ≠ '/'), rest.dropWhile (· ≠ '/'))

/-! ## Segments -/

/-- The segments of a path that are not empty. -/
def segments (path : Text) : List Text := runs (· = '/') path

/-- The segments of a path up to its last slash. -/
def directory (path : Text) : List Text :=
  segments ((path.reverse.dropWhile (· ≠ '/')).reverse)

/-- One segment of a reference: `.` stays, `..` goes up, any other goes down. The directory is given from
its last segment back. -/
def step (deepestFirst : List Text) (segment : Text) : List Text :=
  if segment = ['.'] then deepestFirst
  else if segment = ['.', '.'] then deepestFirst.tail
  else segment :: deepestFirst

/-- The segments that a path leads to from a directory. -/
def follow (start : List Text) (path : Text) : List Text :=
  ((segments path).foldl step start.reverse).reverse

/-- The URI of a reference against a base. A reference with a scheme stands for itself; a base without
`://` has no answer for others. -/
def join (base reference : Text) : Option Text :=
  if (scheme? reference).isSome then some reference
  else
    (split? base).map fun (origin, path) =>
      let target := withoutSuffix reference
      let start := if startsWith ['/'] target then [] else directory (withoutSuffix path)
      let segments := follow start target
      let trailing := if target.getLast? = some '/' && !segments.isEmpty then ['/'] else []
      origin ++ ['/'] ++ List.intercalate ['/'] segments ++ trailing ++ suffix reference

end MarkupAnalysis.Uri
