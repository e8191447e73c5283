import MarkupAnalysis.Configuration.Format
import MarkupAnalysis.Files.Basic
import MarkupAnalysis.Files.Path
import MarkupAnalysis.Vocabulary.DataFormat
import MarkupAnalysis.Vocabulary.Html

/-! # Loading configurations

A configuration is read from a file, and the data sets that it names are read after it. Relative paths of
data sets are seen from the directory of the configuration.

* **`Configuration.load`** — the configuration of a file.
* **`VocabularyOptions.load`** — the dictionary that the settings of the vocabulary describe. -/

namespace MarkupAnalysis

/-- Why there is no configuration, or no vocabulary for it. -/
inductive LoadError where
  /-- The file cannot be read. -/
  | unreadable (path : Text) (cause : ReadError)
  /-- The text is not of the format. -/
  | malformed
deriving DecidableEq, Repr

namespace Configuration

/-- The error in words. -/
def loadMessage : LoadError → Text
  | .unreadable path cause =>
    "failed to read config ".toList ++ path ++ ": ".toList ++ cause.message.toList
  | .malformed => "invalid config".toList

/-- The configuration with the paths of its data sets seen from a directory. -/
def relocate (c : Configuration) (directory : Text) : Configuration :=
  { c with vocabulary.customData := c.vocabulary.customData.map (Path.join directory) }

/-- The configuration of a text in a file of the given path. -/
def ofFile? (path t : Text) : Option Configuration :=
  (read? t).map fun c => (Path.parent? path).elim c c.relocate

/-- Loads the configuration of a file. -/
def load {m : Type → Type} [Monad m] (files : Files m) (path : Text) :
    m (Except LoadError Configuration) := do
  match ← files.read path with
  | .error cause => pure (.error (.unreadable path cause))
  | .ok t => pure <| match ofFile? path t with
    | some c => .ok c
    | none => .error .malformed

end Configuration

namespace VocabularyOptions

/-- The error in words. -/
def loadMessage : LoadError → Text
  | .unreadable path cause =>
    "failed to read vocabulary data from ".toList ++ path ++ ": ".toList ++ cause.message.toList
  | .malformed => "invalid vocabulary data".toList

/-- The dictionary that custom data sets are merged into. -/
def base (o : VocabularyOptions) : Dictionary :=
  if o.useDefaultData then Html.dictionary else .empty

/-- Merges the data set of each file, in order. -/
def loadInto {m : Type → Type} [Monad m] (files : Files m) :
    Dictionary → (paths : List Text) → m (Except LoadError Dictionary)
  | d, [] => pure (.ok d)
  | d, path :: paths => do
    match ← files.read path with
    | .error cause => pure (.error (.unreadable path cause))
    | .ok t =>
      match DataSet.read? t with
      | some data => loadInto files (d.merge data) paths
      | none => pure (.error .malformed)

/-- Loads the dictionary. -/
def load {m : Type → Type} [Monad m] (files : Files m) (o : VocabularyOptions) :
    m (Except LoadError Dictionary) :=
  loadInto files o.base o.customData

end VocabularyOptions

end MarkupAnalysis
