import MarkupAnalysis.Text.Basic

/-! # Vocabularies

A vocabulary answers what is known about tags, attributes and attribute values. Everything else in the
library talks to this structure of lookups only; `Vocabulary.Dictionary` builds one from data sets.
Lookups are permissive: an unknown name gets an empty answer, never a failure.

* **`AttributeInfo`** — what a vocabulary says about one attribute.
* **`Vocabulary`** — the lookups; the last three have defaults.
* **`Vocabulary.empty`** — the vocabulary that knows nothing. -/

namespace MarkupAnalysis

/-- An attribute that a vocabulary knows for some tag. -/
structure AttributeInfo where
  /-- The name as it was declared. -/
  name : Text
  /-- The name of the set that its values come from. -/
  valueSet : Option Text
deriving DecidableEq, Repr

namespace AttributeInfo

/-- The value set of attributes that are written without a value, such as `hidden`. -/
def valuelessSet : Text := "v".toList

/-- The value set of event handlers, such as `onclick`. -/
def handlerSet : Text := "handler".toList

/-- Whether the attribute is written without a value. -/
def isValueless (info : AttributeInfo) : Bool := info.valueSet == some valuelessSet

/-- Whether the attribute holds an event handler. -/
def isHandler (info : AttributeInfo) : Bool := info.valueSet == some handlerSet

end AttributeInfo

namespace Vocabulary

/-- `src` and `href` locate another resource on every tag. -/
def isLocator (name : Text) : Bool :=
  name.equalsIgnoringCase "src".toList || name.equalsIgnoringCase "href".toList

end Vocabulary

/-- The tables that guide tokens, trees and services. -/
structure Vocabulary where
  /-- All known tag names, in order of declaration. -/
  tags : List Text
  /-- Whether a tag is known. -/
  isKnownTag : (tag : Text) → Bool
  /-- The attributes of a tag: its own ones, then those that every tag has. -/
  attributesFor : (tag : Text) → List AttributeInfo
  /-- The values that an attribute may take on a tag; none when it is free-form or unknown. -/
  valuesFor : (tag name : Text) → List Text
  /-- Void tags have neither children nor an end tag. -/
  isVoid : (tag : Text) → Bool
  /-- The content of these tags is opaque text up to their own end tag. -/
  isEmbeddedContent : (tag : Text) → Bool
  /-- Whether the value of the attribute locates another resource. -/
  isReferenceAttribute : (tag name : Text) → Bool := fun _ name =>
    Vocabulary.isLocator name
  /-- Whether the content model of `parent` admits `child`. -/
  allowsChild : (parent child : Text) → Bool := fun _ _ => true
  /-- The case rule by which start tags and end tags are paired. -/
  tagNamesMatch : Text → Text → Bool := Text.equalsIgnoringCase

namespace Vocabulary

/-- The vocabulary that knows no tag and no attribute. -/
def empty : Vocabulary where
  tags := []
  isKnownTag _ := false
  attributesFor _ := []
  valuesFor _ _ := []
  isVoid _ := false
  isEmbeddedContent _ := false

instance : Inhabited Vocabulary := ⟨empty⟩

/-- The same vocabulary with the default rules for references, content models and tag-name case. -/
def withDefaultRules (v : Vocabulary) : Vocabulary where
  tags := v.tags
  isKnownTag := v.isKnownTag
  attributesFor := v.attributesFor
  valuesFor := v.valuesFor
  isVoid := v.isVoid
  isEmbeddedContent := v.isEmbeddedContent

/-- The same vocabulary with a case rule other than the default one: only tag names that are spelled
alike are paired, as where the case of names matters. -/
def withExactCase (v : Vocabulary) : Vocabulary := { v with tagNamesMatch := fun a b => a == b }

end Vocabulary

end MarkupAnalysis
