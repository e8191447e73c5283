import MarkupAnalysis.Text.Basic

/-! # Data sets

A data set declares tags, attributes and value sets. Dictionaries (`Vocabulary.Dictionary`) are built by
merging data sets in order. -/

namespace MarkupAnalysis

/-- The declaration of an attribute. -/
structure AttributeDeclaration where
  /-- The attribute's name. -/
  name : Text
  /-- The name of the set that its values come from. -/
  valueSet : Option Text := none
  /-- The values listed with the attribute itself. -/
  values : List Text := []
  /-- Whether the value locates another resource. -/
  isReference : Bool := false
deriving DecidableEq, Repr

/-- The declaration of a tag. -/
structure TagDeclaration where
  /-- The tag's name. -/
  name : Text
  /-- Whether the tag is void. -/
  isVoid : Bool := false
  /-- Whether the tag's content is opaque. -/
  isEmbedded : Bool := false
  /-- The attributes of the tag. -/
  attributes : List AttributeDeclaration := []
  /-- The tags that are allowed as children; all tags when there is no list. -/
  children : Option (List Text) := none
deriving DecidableEq, Repr

/-- A named set of attribute values. -/
structure ValueSet where
  /-- The set's name. -/
  name : Text
  /-- The values in order. -/
  values : List Text := []
deriving DecidableEq, Repr

/-- A set of declarations. -/
structure DataSet where
  /-- The version that the data claims to have; nothing depends on it. -/
  version : Option Float := none
  /-- The declared tags. -/
  tags : List TagDeclaration := []
  /-- The attributes that every tag has. -/
  globalAttributes : List AttributeDeclaration := []
  /-- The declared value sets. -/
  valueSets : List ValueSet := []

end MarkupAnalysis
