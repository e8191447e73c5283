import MarkupAnalysis.Vocabulary.Basic
import MarkupAnalysis.Vocabulary.DataSet

/-! # Dictionaries

A dictionary is a vocabulary made of data sets. Data sets are merged in the order they are added: the
first declaration of a tag, an attribute or a value set wins, and later ones contribute only what is
missing. Names are compared up to ASCII case, names of value sets exactly.

* **`Dictionary`** — the tags in order of declaration with an index of their positions.
* **`Dictionary.merge`** — adds a data set.
* **`Dictionary.markVoid`**, **`Dictionary.markEmbedded`**, **`Dictionary.markReferences`** — set one mark
  on named tags, which become known by it.
* **`Dictionary.toVocabulary`** — the lookups. -/

namespace MarkupAnalysis

open Text

/-- The declared tags, attributes and value sets. -/
structure Dictionary where
  /-- The tags in order of their first declaration. -/
  tags : Array TagDeclaration := #[]
  /-- The position of each tag under its name in lower case. -/
  index : List (Text × Nat) := []
  /-- The attributes that every tag has. -/
  globalAttributes : List AttributeDeclaration := []
  /-- The value sets, under their exact names. -/
  valueSets : List (Text × List Text) := []

namespace Dictionary

/-- The dictionary without declarations. -/
def empty : Dictionary := {}

/-! ## Finding tags and attributes -/

/-- The position of a tag. A name without upper-case letters is its own key in the index. -/
def position? (d : Dictionary) (name : Text) : Option Nat :=
  d.index.lookup (if name.any Char.isUpper then lower name else name)

/-- The declaration of a tag. -/
def tag? (d : Dictionary) (name : Text) : Option TagDeclaration :=
  (d.position? name).bind (d.tags[·]?)

/-- The first attribute of that name in a list of declarations. -/
def findAttribute? (attributes : List AttributeDeclaration) (name : Text) :
    Option AttributeDeclaration :=
  attributes.find? (·.name.equalsIgnoringCase name)

/-- The declaration of an attribute on a tag: the tag's own one, else that of all tags. -/
def attribute? (d : Dictionary) (tag name : Text) : Option AttributeDeclaration :=
  ((d.tag? tag).bind fun t => findAttribute? t.attributes name).or
    (findAttribute? d.globalAttributes name)

/-! ## Merging -/

/-- Adds the attributes whose names are not there yet. -/
def mergeAttributes (known added : List AttributeDeclaration) : List AttributeDeclaration :=
  added.foldl
    (fun known a => if known.any (·.name.equalsIgnoringCase a.name) then known else known ++ [a])
    known

/-- What two declarations of the same tag say together: marks add up, attributes and the content model
are taken from `later` where `first` has none. -/
def mergeTag (first later : TagDeclaration) : TagDeclaration where
  name := first.name
  isVoid := first.isVoid || later.isVoid
  isEmbedded := first.isEmbedded || later.isEmbedded
  attributes := mergeAttributes first.attributes later.attributes
  children := first.children.or later.children

/-- Adds a tag at the end. -/
def push (d : Dictionary) (t : TagDeclaration) : Dictionary :=
  { d with tags := d.tags.push t, index := d.index ++ [(lower t.name, d.tags.size)] }

/-- Adds the declaration of a tag: a new tag as it is, a known one merged into what is there. -/
def declare (d : Dictionary) (t : TagDeclaration) : Dictionary :=
  match d.index.lookup (lower t.name) with
  | some i => { d with tags := d.tags.modify i (mergeTag · t) }
  | none => d.push t

/-- Adds a value set unless there is one of the same name. -/
def declareValueSet (d : Dictionary) (s : ValueSet) : Dictionary :=
  match d.valueSets.lookup s.name with
  | some _ => d
  | none => { d with valueSets := d.valueSets ++ [(s.name, s.values)] }

/-- Adds a data set; what is declared already takes precedence. -/
def merge (d : Dictionary) (data : DataSet) : Dictionary :=
  let d := data.tags.foldl declare d
  let d := { d with globalAttributes := mergeAttributes d.globalAttributes data.globalAttributes }
  data.valueSets.foldl declareValueSet d

/-- The dictionary of one data set. -/
def ofDataSet (data : DataSet) : Dictionary := empty.merge data

/-! ## Marking -/

/-- Changes the declaration of a tag; an unknown tag is declared first. -/
def modifyTag (d : Dictionary) (name : Text) (change : TagDeclaration → TagDeclaration) : Dictionary :=
  match d.index.lookup (lower name) with
  | some i => { d with tags := d.tags.modify i change }
  | none => d.push (change { name })

/-- Marks tags as void. -/
def markVoid (d : Dictionary) (names : List Text) : Dictionary :=
  names.foldl (fun d name => d.modifyTag name ({ · with isVoid := true })) d

/-- Marks the content of tags as opaque. -/
def markEmbedded (d : Dictionary) (names : List Text) : Dictionary :=
  names.foldl (fun d name => d.modifyTag name ({ · with isEmbedded := true })) d

/-- Marks the first attribute of that name as a reference; an attribute that is not listed is added. -/
def markAttribute (name : Text) : List AttributeDeclaration → List AttributeDeclaration
  | [] => [{ name, isReference := true }]
  | a :: as =>
    if a.name.equalsIgnoringCase name then { a with isReference := true } :: as
    else a :: markAttribute name as

/-- Marks pairs of a tag and one of its attributes as references. -/
def markReferences (d : Dictionary) (pairs : List (Text × Text)) : Dictionary :=
  pairs.foldl
    (fun d (tag, name) =>
      d.modifyTag tag fun t => { t with attributes := markAttribute name t.attributes })
    d

/-! ## Lookups -/

/-- What is known about an attribute from its declaration. -/
def infoOf (a : AttributeDeclaration) : AttributeInfo := ⟨a.name, a.valueSet⟩

/-- The attributes of a tag: its own ones, then those of all tags. -/
def attributesFor (d : Dictionary) (tag : Text) : List AttributeInfo :=
  (((d.tag? tag).map (·.attributes)).getD [] ++ d.globalAttributes).map infoOf

/-- The values of an attribute: those listed with it, else those of its value set. -/
def valuesFor (d : Dictionary) (tag name : Text) : List Text :=
  match d.attribute? tag name with
  | none => []
  | some a =>
    if a.values.isEmpty then (a.valueSet.bind fun name => d.valueSets.lookup name).getD [] else a.values

/-- Whether an attribute locates another resource: by its name on every tag, or by a mark. -/
def isReferenceAttribute (d : Dictionary) (tag name : Text) : Bool :=
  Vocabulary.isLocator name || (d.tag? tag).any fun t =>
    t.attributes.any fun a => a.isReference && a.name.equalsIgnoringCase name

/-- Whether a tag's content model admits a child; without a content model everything is allowed. -/
def allowsChild (d : Dictionary) (parent child : Text) : Bool :=
  match (d.tag? parent).bind (·.children) with
  | some children => children.any (·.equalsIgnoringCase child)
  | none => true

/-- The vocabulary of the dictionary. -/
def toVocabulary (d : Dictionary) : Vocabulary where
  tags := d.tags.toList.map (·.name)
  isKnownTag name := (d.tag? name).isSome
  attributesFor := d.attributesFor
  valuesFor := d.valuesFor
  isVoid name := (d.tag? name).any (·.isVoid)
  isEmbeddedContent name := (d.tag? name).any (·.isEmbedded)
  isReferenceAttribute := d.isReferenceAttribute
  allowsChild := d.allowsChild

end Dictionary

end MarkupAnalysis
