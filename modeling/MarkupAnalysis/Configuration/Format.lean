import MarkupAnalysis.Configuration.Basic
import MarkupAnalysis.Toml.Document

/-! # Configurations in TOML

The format of configurations. Each group of settings is a record: settings that are missing have their
defaults, and keys that are no settings are ignored.

* **`Toml.record?`** — the fields of a record.
* **`Configuration.ofToml?`** — the configuration of a table.
* **`Configuration.read?`** — the configuration of a text; none when it is no TOML or not of this format. -/

namespace MarkupAnalysis

namespace Toml

/-- The items of a value that is a list. -/
def items? : Toml → Option (List Toml)
  | array items => some items
  | tables elements => some elements
  | _ => none

/-- Whether the value is a list or a table without content. -/
def isVoid : Toml → Bool
  | array [] => true
  | table _ [] => true
  | tables [] => true
  | _ => false

/-- The text of a value that is a string. -/
def text? : Toml → Option Text
  | string text => some text
  | _ => none

/-- The truth value of a value that is one. -/
def bool? : Toml → Option Bool
  | boolean value => some value
  | _ => none

/-- The number of a value that is a whole number without a minus sign. -/
def nat? : Toml → Option Nat
  | integer (.ofNat n) => some n
  | _ => none

/-- The texts of a value that is a list of strings. -/
def texts? (t : Toml) : Option (List Text) := do (← t.items?).mapM text?

/-- The values of the named fields of a record. A record is a table, whose other keys do not matter, a
list of its fields in order, of which any number may be there, or a date, which has no fields. -/
def record? (names : List String) : Toml → Option (List (Option Toml))
  | table origin entries => some (names.map fun name => (table origin entries).get? name.toList)
  | dateTime _ => some (names.map fun _ => none)
  | t => do
    let items ← t.items?
    pure ((List.range names.length).map (items[·]?))

/-- The value of a field, read by `value?`; `absent` when the field is missing. -/
def valueOr {α : Type} (absent : α) (value? : Toml → Option α) (field : Option Toml) : Option α :=
  field.elim (some absent) value?

end Toml

open Toml

/-- The setting of a name. -/
def DefaultValue.ofName? (name : Text) : Option DefaultValue :=
  [doubleQuotes, singleQuotes, empty].find? (·.name.toList = name)

/-- The setting as a string, or as the only key of a table, with nothing in its value. -/
def DefaultValue.ofToml? : Toml → Option DefaultValue
  | .string name => ofName? name
  | .table _ [(name, value)] => if value.isVoid then ofName? name else none
  | _ => none

/-- The settings of completion. -/
def CompletionOptions.ofToml? (t : Toml) : Option CompletionOptions := do
  let [defaultValue, hideAutoClose] ←
    t.record? ["attribute_default_value", "hide_auto_complete_proposals"] | none
  pure
    { defaultValue := ← valueOr .doubleQuotes DefaultValue.ofToml? defaultValue
      hideAutoClose := ← valueOr false bool? hideAutoClose }

/-- The settings of folding. -/
def FoldingOptions.ofToml? (t : Toml) : Option FoldingOptions := do
  let [rangeLimit] ← t.record? ["range_limit"] | none
  pure { rangeLimit := ← valueOr none (fun t => t.nat?.map some) rangeLimit }

/-- The settings of the vocabulary. -/
def VocabularyOptions.ofToml? (t : Toml) : Option VocabularyOptions := do
  let [useDefaultData, customData] ← t.record? ["use_default_data", "custom_data"] | none
  pure
    { useDefaultData := ← valueOr true bool? useDefaultData
      customData := ← valueOr [] texts? customData }

namespace Configuration

/-- The configuration of a table. -/
def ofToml? (t : Toml) : Option Configuration := do
  let [completion, folding, vocabulary] ← t.record? ["completion", "folding", "vocabulary"] | none
  pure
    { completion := ← valueOr {} CompletionOptions.ofToml? completion
      folding := ← valueOr {} FoldingOptions.ofToml? folding
      vocabulary := ← valueOr {} VocabularyOptions.ofToml? vocabulary }

/-- The configuration of a text. -/
def read? (t : Text) : Option Configuration := (Toml.read? t).bind ofToml?

end Configuration

end MarkupAnalysis
