import MarkupAnalysis.Text.Basic

/-! # Files

What the program asks of files. The questions are a structure of functions in some monad, so that the same
program runs on the files of a machine and on a tree of files that is a plain value.

* **`ReadError`** — why a file cannot be read.
* **`Files`** — the questions. -/

namespace MarkupAnalysis

/-- Why a file cannot be read. -/
inductive ReadError where
  /-- There is nothing under the path. -/
  | notFound
  /-- The path leads through a file. -/
  | notDirectory
  /-- The path leads to a directory. -/
  | isDirectory
  /-- A name or the whole path is too long. -/
  | nameTooLong
  /-- The path holds the character that ends paths. -/
  | nulInPath
  /-- The content is no UTF-8. -/
  | invalidText
  /-- Any other cause, in the words of the system. -/
  | other (message : String)
deriving DecidableEq, Repr

/-- The cause in words. -/
def ReadError.message : ReadError → String
  | notFound => "No such file or directory (os error 2)"
  | notDirectory => "Not a directory (os error 20)"
  | isDirectory => "Is a directory (os error 21)"
  | nameTooLong => "File name too long (os error 36)"
  | nulInPath => "file name contained an unexpected NUL byte"
  | invalidText => "stream did not contain valid UTF-8"
  | other message => message

/-- What is asked of files. -/
structure Files (m : Type → Type) where
  /-- The content of a file. -/
  read : Text → m (Except ReadError Text)
  /-- The absolute path without detours of something that exists. -/
  canonical : Text → m (Except ReadError Text)

end MarkupAnalysis
