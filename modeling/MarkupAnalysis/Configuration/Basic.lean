import MarkupAnalysis.Text.Basic

/-! # Configuration

The settings of the services, with their defaults. -/

namespace MarkupAnalysis

/-- What is inserted for the value of a new attribute. -/
inductive DefaultValue where
  /-- Double quotes. -/
  | doubleQuotes
  /-- Single quotes. -/
  | singleQuotes
  /-- No quotes. -/
  | empty
deriving DecidableEq, Repr

/-- The setting's name as it is written in configurations. -/
def DefaultValue.name : DefaultValue → String
  | doubleQuotes => "doublequotes"
  | singleQuotes => "singlequotes"
  | empty => "empty"

/-- The settings of completion. -/
structure CompletionOptions where
  /-- What is inserted for the value of a new attribute. -/
  defaultValue : DefaultValue := .doubleQuotes
  /-- Whether end tags are not proposed after start tags. -/
  hideAutoClose : Bool := false
deriving DecidableEq, Repr

/-- The settings of folding. -/
structure FoldingOptions where
  /-- The largest number of ranges. -/
  rangeLimit : Option Nat := none
deriving DecidableEq, Repr

/-- The settings of the vocabulary. -/
structure VocabularyOptions where
  /-- Whether the vocabulary of HTML comes first. -/
  useDefaultData : Bool := true
  /-- The paths of data sets that are merged after it. -/
  customData : List Text := []
deriving DecidableEq, Repr

/-- All settings. -/
structure Configuration where
  /-- The settings of completion. -/
  completion : CompletionOptions := {}
  /-- The settings of folding. -/
  folding : FoldingOptions := {}
  /-- The settings of the vocabulary. -/
  vocabulary : VocabularyOptions := {}
deriving DecidableEq, Repr

end MarkupAnalysis
