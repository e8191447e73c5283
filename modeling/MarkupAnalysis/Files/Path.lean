import MarkupAnalysis.Text.Basic

/-! # Paths

Paths are texts whose pieces are separated by slashes. They are joined and shortened as they are written,
without looking at files.

* **`Path.pieces`** — what stands between the slashes.
* **`Path.join`** — a path seen from a directory.
* **`Path.parent?`** — the path without its last name. -/

namespace MarkupAnalysis.Path

/-- What stands before, between and behind the slashes. -/
def pieces : Text → List Text
  | [] => [[]]
  | c :: cs =>
    match pieces cs with
    | piece :: rest => if c = '/' then [] :: piece :: rest else (c :: piece) :: rest
    | [] => []

/-- The path of pieces. -/
def ofPieces (pieces : List Text) : Text := List.intercalate ['/'] pieces

/-- Every path has a piece, if only an empty one. -/
theorem pieces_ne_nil (path : Text) : pieces path ≠ [] := by
  cases path with
  | nil => simp [pieces]
  | cons c cs => unfold pieces; split <;> (try split) <;> simp_all [pieces_ne_nil cs]

/-- The pieces of a path make up the path. -/
theorem ofPieces_pieces (path : Text) : ofPieces (pieces path) = path := by
  induction path with
  | nil => rfl
  | cons c cs ih =>
    rw [pieces]
    split
    · rename_i piece rest h
      rw [h] at ih
      subst ih
      by_cases slash : c = '/'
      · rw [if_pos slash, slash]
        rfl
      · rw [if_neg slash]
        cases rest <;> rfl
    · rename_i h
      exact absurd h (pieces_ne_nil cs)

/-- Whether the path starts at the root. -/
def isAbsolute (path : Text) : Bool := path.head? = some '/'

/-- A path seen from a directory. An absolute path does not depend on it. -/
def join (directory path : Text) : Text :=
  if isAbsolute path || directory.isEmpty then path
  else if directory.getLast? = some '/' then directory ++ path
  else directory ++ '/' :: path

/-- Whether the piece leads nowhere. -/
def isIdle (piece : Text) : Bool := piece.isEmpty || piece = ['.']

/-- The pieces without the last ones that lead nowhere. -/
def dropIdle (pieces : List Text) : List Text := (pieces.reverse.dropWhile isIdle).reverse

/-- The start that a path keeps: the slash of the root, or a dot for the working directory. -/
def anchor (path : Text) : Text :=
  match path with
  | '/' :: _ => ['/']
  | ['.'] => ['.']
  | '.' :: '/' :: _ => ['.']
  | _ => []

/-- The path without its last name. The dot of the working directory counts as a name; the root and the
empty path have none. -/
def parent? (path : Text) : Option Text :=
  let start := anchor path
  match dropIdle (pieces (path.drop start.length)) with
  | [] => if start = ['.'] then some [] else none
  | names => some (start ++ ofPieces (dropIdle names.dropLast))

end MarkupAnalysis.Path
