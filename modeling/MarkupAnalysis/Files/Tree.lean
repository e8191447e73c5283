import MarkupAnalysis.Files.Basic
import MarkupAnalysis.Files.Path

/-! # Trees of files

Files as a plain value: the content of each file under the names that lead to it from the root. Paths are
followed piece by piece.

* **`FileTree`** — the files and directories.
* **`FileTree.follow`** — where a path leads.
* **`FileTree.toFiles`** — the tree as files to be read. -/

namespace MarkupAnalysis

/-- Files and directories, each given by the names that lead to it from the root. -/
structure FileTree where
  /-- The contents of files. -/
  contents : List (List Text × Text) := []
  /-- Directories; those that lead to other things are there anyway. -/
  directories : List (List Text) := []
  /-- The directory that relative paths start from. -/
  workingDirectory : List Text := []

namespace FileTree

/-- The content of a file. -/
def content? (t : FileTree) (place : List Text) : Option Text := t.contents.lookup place

/-- Whether there is a file or a directory. -/
def holds (t : FileTree) (place : List Text) : Bool :=
  place.isEmpty || (t.contents.map Prod.fst ++ t.directories).any (place.isPrefixOf ·)

/-- The greatest number of bytes of a name. -/
def nameLimit : Nat := 255

/-- The number of bytes that is too long for a path. -/
def pathLimit : Nat := 4096

/-- Where the pieces of a path lead from a place. Each piece needs a directory that it starts from. -/
def walk (t : FileTree) : (place : List Text) → (pieces : List Text) → Except ReadError (List Text)
  | place, [] => .ok place
  | place, piece :: pieces =>
    if (t.content? place).isSome then .error .notDirectory
    else if Path.isIdle piece then t.walk place pieces
    else if piece = ['.', '.'] then t.walk place.dropLast pieces
    else if nameLimit < piece.byteLength then .error .nameTooLong
    else if t.holds (place ++ [piece]) then t.walk (place ++ [piece]) pieces
    else .error .notFound

/-- Where a path leads. -/
def follow (t : FileTree) (path : Text) : Except ReadError (List Text) :=
  if '\x00' ∈ path then .error .nulInPath
  else if path.isEmpty then .error .notFound
  else if pathLimit ≤ path.byteLength then .error .nameTooLong
  else t.walk (if Path.isAbsolute path then [] else t.workingDirectory) (Path.pieces path)

/-- The content of the file that a path leads to. -/
def read (t : FileTree) (path : Text) : Except ReadError Text := do
  match t.content? (← t.follow path) with
  | some content => .ok content
  | none => .error .isDirectory

/-- The absolute path of the place that a path leads to. -/
def canonical (t : FileTree) (path : Text) : Except ReadError Text :=
  (t.follow path).map fun place => '/' :: Path.ofPieces place

/-- The tree as files to be read. -/
def toFiles (t : FileTree) : Files Id := ⟨t.read, t.canonical⟩

end FileTree

end MarkupAnalysis
