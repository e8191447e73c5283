import MarkupAnalysis.Json.Numeral
import MarkupAnalysis.Json.Reader
import MarkupAnalysis.Vocabulary.DataSet

/-! # Data sets in JSON

The format of data sets. Each declaration is a record: only names are required, and keys that say nothing
about a declaration, such as descriptions, are ignored.

* **`TagDeclaration.ofJson?`**, **`AttributeDeclaration.ofJson?`**, … — one record each.
* **`DataSet.read?`** — the data set of a text; none when it is no JSON or not of this format. -/

namespace MarkupAnalysis

open Json

/-- The value of a field, read by `value?`; `absent` when the field is missing. -/
def fieldOr {α : Type} (absent : α) (value? : Json → Option α) : Option Json → Option α
  | none => some absent
  | some value => value? value

/-- The names of a record's fields. -/
def fieldNames (names : List String) : List Text := names.map String.toList

/-- A value is a record of its name. -/
def valueOfJson? (json : Json) : Option Text := do
  let [name] ← record? (fieldNames ["name"]) json | none
  (← name).text?

/-- The declaration of an attribute. -/
def AttributeDeclaration.ofJson? (json : Json) : Option AttributeDeclaration := do
  let [name, valueSet, values, reference] ←
    record? (fieldNames ["name", "valueSet", "values", "reference"]) json | none
  pure
    { name := ← (← name).text?
      valueSet := ← fieldOr none (nullable? text?) valueSet
      values := ← fieldOr [] (list? valueOfJson?) values
      isReference := ← fieldOr false bool? reference }

/-- The declaration of a tag. -/
def TagDeclaration.ofJson? (json : Json) : Option TagDeclaration := do
  let [name, isVoid, isEmbedded, attributes, children] ←
    record? (fieldNames ["name", "void", "embedded", "attributes", "children"]) json | none
  pure
    { name := ← (← name).text?
      isVoid := ← fieldOr false bool? isVoid
      isEmbedded := ← fieldOr false bool? isEmbedded
      attributes := ← fieldOr [] (list? AttributeDeclaration.ofJson?) attributes
      children := ← fieldOr none (nullable? (list? text?)) children }

/-- A value set. -/
def ValueSet.ofJson? (json : Json) : Option ValueSet := do
  let [name, values] ← record? (fieldNames ["name", "values"]) json | none
  pure { name := ← (← name).text?, values := ← fieldOr [] (list? valueOfJson?) values }

namespace DataSet

/-- The version, a number. -/
def versionOfJson? : Json → Option Float
  | .number numeral => numeral.toFloat?
  | _ => none

/-- A data set. -/
def ofJson? (json : Json) : Option DataSet := do
  let [version, tags, globalAttributes, valueSets] ←
    record? (fieldNames ["version", "tags", "globalAttributes", "valueSets"]) json | none
  pure
    { version := ← fieldOr none (nullable? versionOfJson?) version
      tags := ← fieldOr [] (list? TagDeclaration.ofJson?) tags
      globalAttributes := ← fieldOr [] (list? AttributeDeclaration.ofJson?) globalAttributes
      valueSets := ← fieldOr [] (list? ValueSet.ofJson?) valueSets }

/-- The data set of a text. -/
def read? (t : Text) : Option DataSet := (Json.read? t).bind ofJson?

end DataSet

end MarkupAnalysis
