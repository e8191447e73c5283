import MarkupAnalysis.Proofs.Vocabulary.Declarations

/-! # Marking tags and attributes

A mark on some tags makes these tags known and answers one question about them differently; nothing else
that is looked up changes. A reference has to be marked on an attribute of the tag itself, which is added
where the tag has none of that name. The new attribute has no values, and where there is a global attribute
of its name, it hides the values of that one.

* **`Vocabulary.knowing`** — a vocabulary with some more tags.
* **`Dictionary.Indexed.answer_modifyAll`** — any answer about a tag after some tags have been changed.
* **`Dictionary.markAttributes`** — references that are marked one after the other, and what is found then.
* **`Dictionary.hidesGlobal`** — where a reference hides a global attribute.
* **`Dictionary.ofChanges_marks`** — all lookups after each kind of mark, whatever the dictionary is. -/

namespace MarkupAnalysis

open Text

/-- The vocabulary that also knows tags of some names. -/
def Vocabulary.knowing (v : Vocabulary) (names : List Text) : Vocabulary :=
  { v with
    tags := v.tags ++ (Dictionary.firstSpellings names).filter (!v.isKnownTag ·)
    isKnownTag := fun tag => v.isKnownTag tag || names.any (·.equalsIgnoringCase tag) }

namespace Dictionary

variable {d : Dictionary} {declared names : List Text} {tag name other : Text}
  {attributes : List AttributeDeclaration} {α β : Type}

/-! ## Changing several tags -/

/-- Changes tags one after the other; an unknown tag is declared first. -/
def modifyAll (d : Dictionary) (nameOf : β → Text) (change : β → TagDeclaration → TagDeclaration)
    (bs : List β) : Dictionary :=
  bs.foldl (fun d b => d.modifyTag (nameOf b) (change b)) d

section ModifyAll

variable (nameOf : β → Text) (change : β → TagDeclaration → TagDeclaration)

/-- The tags of that name, or new ones, are known from then on. -/
theorem Indexed.modifyAll (h : Indexed d declared) (keeps : ∀ b t, (change b t).name = t.name)
    (bs : List β) : Indexed (d.modifyAll nameOf change bs) (declared ++ bs.map nameOf) :=
  h.foldl nameOf (fun _ _ b h => h.modifyTag (nameOf b) (change b) (keeps b)) bs

/-- **An answer about a tag** is changed by each change of that tag, in order, and by no other. -/
theorem Indexed.answer_modifyAll (h : Indexed d declared) (keeps : ∀ b t, (change b t).name = t.name)
    (answer : Option TagDeclaration → α) (effect : α → β → α)
    (one : ∀ (known : Option TagDeclaration) b,
      answer (some (change b (known.getD { name := nameOf b }))) = effect (answer known) b)
    (bs : List β) (tag : Text) :
    answer ((d.modifyAll nameOf change bs).tag? tag) =
      (bs.filter (nameOf · |>.equalsIgnoringCase tag)).foldl effect (answer (d.tag? tag)) := by
  induction bs generalizing d declared with
  | nil => rfl
  | cons b bs ih =>
    show answer (((d.modifyTag (nameOf b) (change b)).modifyAll nameOf change bs).tag? tag) = _
    rw [ih (h.modifyTag _ _ (keeps b)), h.tag?_modifyTag (keeps b)]
    by_cases same : (nameOf b).equalsIgnoringCase tag = true
    · rw [if_pos same, one, List.filter_cons_of_pos (by exact same)]
      rfl
    · rw [if_neg same, List.filter_cons_of_neg (by exact same)]

/-- An answer that no change touches stays. -/
theorem Indexed.answer_kept (h : Indexed d declared) (keeps : ∀ b t, (change b t).name = t.name)
    (answer : Option TagDeclaration → α)
    (one : ∀ (known : Option TagDeclaration) b,
      answer (some (change b (known.getD { name := nameOf b }))) = answer known)
    (bs : List β) (tag : Text) :
    answer ((d.modifyAll nameOf change bs).tag? tag) = answer (d.tag? tag) := by
  rw [h.answer_modifyAll nameOf change keeps answer (fun known _ => known) one]
  generalize answer (d.tag? tag) = known
  induction bs.filter (nameOf · |>.equalsIgnoringCase tag) with
  | nil => rfl
  | cons b bs ih => exact ih

/-- An answer that each change sets is set on the tags of these names. -/
theorem Indexed.answer_set (h : Indexed d declared) (keeps : ∀ b t, (change b t).name = t.name)
    (answer : Option TagDeclaration → Bool)
    (one : ∀ (known : Option TagDeclaration) b,
      answer (some (change b (known.getD { name := nameOf b }))) = true)
    (bs : List β) (tag : Text) :
    answer ((d.modifyAll nameOf change bs).tag? tag) =
      (answer (d.tag? tag) || (bs.map nameOf).any (·.equalsIgnoringCase tag)) := by
  rw [h.answer_modifyAll nameOf change keeps answer (fun _ _ => true) one, List.any_map]
  generalize answer (d.tag? tag) = known
  induction bs generalizing known with
  | nil => simp
  | cons b bs ih =>
    rw [List.filter_cons, List.any_cons]
    cases same : (nameOf b).equalsIgnoringCase tag with
    | false => simp [ih, same]
    | true => simp [ih, same]

/-- Changes of tags leave the rest alone. -/
theorem modifyAll_frame (d : Dictionary) (bs : List β) :
    (d.modifyAll nameOf change bs).globalAttributes = d.globalAttributes ∧
      (d.modifyAll nameOf change bs).valueSets = d.valueSets := by
  induction bs generalizing d with
  | nil => exact ⟨rfl, rfl⟩
  | cons b bs ih =>
    have one : (d.modifyTag (nameOf b) (change b)).globalAttributes = d.globalAttributes ∧
        (d.modifyTag (nameOf b) (change b)).valueSets = d.valueSets := by
      rw [modifyTag]
      split <;> exact ⟨rfl, rfl⟩
    obtain ⟨globals, valueSets⟩ := ih (d.modifyTag (nameOf b) (change b))
    exact ⟨globals.trans one.1, valueSets.trans one.2⟩

end ModifyAll

/-! ## What a mark changes -/

/-- A tag with the mark of void tags. -/
def asVoid (t : TagDeclaration) : TagDeclaration := { t with isVoid := true }

/-- A tag with the mark of opaque content. -/
def asEmbedded (t : TagDeclaration) : TagDeclaration := { t with isEmbedded := true }

/-- A tag whose attribute in a pair is marked as a reference. -/
def asReferring (pair : Text × Text) (t : TagDeclaration) : TagDeclaration :=
  { t with attributes := markAttribute pair.2 t.attributes }

/-- Void tags are marked one after the other. -/
theorem markVoid_eq (d : Dictionary) (names : List Text) :
    d.markVoid names = d.modifyAll id (fun _ => asVoid) names := rfl

/-- Tags with opaque content are marked one after the other. -/
theorem markEmbedded_eq (d : Dictionary) (names : List Text) :
    d.markEmbedded names = d.modifyAll id (fun _ => asEmbedded) names := rfl

/-- The attributes of tags are marked one after the other. -/
theorem markReferences_eq (d : Dictionary) (pairs : List (Text × Text)) :
    d.markReferences pairs = d.modifyAll Prod.fst asReferring pairs := rfl

/-! ## Answers about a tag -/

/-- The attributes that a tag has itself. -/
def ownAttributes (d : Dictionary) (tag : Text) : List AttributeDeclaration :=
  ((d.tag? tag).map (·.attributes)).getD []

/-- The values that are listed with an attribute, and the set that it names. -/
def sourcesOf (a : AttributeDeclaration) : List Text × Option Text := (a.values, a.valueSet)

/-- An attribute is looked up among the tag's own ones first. -/
theorem attribute?_eq (d : Dictionary) (tag name : Text) :
    d.attribute? tag name =
      (findAttribute? (d.ownAttributes tag) name).or (findAttribute? d.globalAttributes name) := by
  rw [attribute?, ownAttributes]
  cases d.tag? tag <;> rfl

/-- The values of an attribute depend on where they come from only. -/
theorem valuesFor_eq (d : Dictionary) (tag name : Text) :
    d.valuesFor tag name = ((d.attribute? tag name).map sourcesOf).elim [] fun sources =>
      if sources.1.isEmpty then (sources.2.bind fun set => d.valueSets.lookup set).getD []
      else sources.1 := by
  rw [valuesFor]
  cases d.attribute? tag name <;> rfl

/-- An attribute is a reference by its name or by a mark among the tag's own attributes. -/
theorem isReferenceAttribute_eq (d : Dictionary) (tag name : Text) :
    d.isReferenceAttribute tag name = (Vocabulary.isLocator name ||
      (d.ownAttributes tag).any fun a => a.isReference && a.name.equalsIgnoringCase name) := by
  rw [isReferenceAttribute, ownAttributes]
  cases d.tag? tag <;> rfl

/-- A tag is known if it is listed. -/
theorem Indexed.isKnownTag_eq (h : Indexed d declared) (tag : Text) :
    d.toVocabulary.isKnownTag tag = d.toVocabulary.tags.any (·.equalsIgnoringCase tag) := by
  show (d.tag? tag).isSome = _
  rw [h.tag?_eq_find?, List.isSome_find?]
  simp [toVocabulary]

/-- The tags that are listed once more tags have been declared. -/
theorem Indexed.tags_append {d' : Dictionary} (h : Indexed d declared)
    (h' : Indexed d' (declared ++ names)) :
    d'.toVocabulary.tags = (d.toVocabulary.knowing names).tags := by
  have known (name : Text) : d.toVocabulary.isKnownTag name =
      declared.any (·.equalsIgnoringCase name) := by
    have listed : lower name ∈ (firstSpellings declared).map lower ↔ lower name ∈ declared.map lower :=
      lower_mem_firstSpellings
    rw [h.isKnownTag_eq, h.tags, Bool.eq_iff_iff]
    simp only [List.any_eq_true, equalsIgnoringCase_iff]
    simpa only [List.mem_map] using listed
  rw [h'.tags, firstSpellings_append, ← h.tags]
  simp only [Vocabulary.knowing, known]

/-- The attributes of a tag are answered alike if its own and the global ones are the same. -/
theorem attributes_congr {d' : Dictionary} (own : ∀ tag, d'.ownAttributes tag = d.ownAttributes tag)
    (globals : d'.globalAttributes = d.globalAttributes) (valueSets : d'.valueSets = d.valueSets) :
    d'.attributesFor = d.attributesFor ∧ d'.valuesFor = d.valuesFor ∧
      d'.isReferenceAttribute = d.isReferenceAttribute := by
  refine ⟨?_, ?_, ?_⟩
  · funext tag
    show (d'.ownAttributes tag ++ d'.globalAttributes).map infoOf =
      (d.ownAttributes tag ++ d.globalAttributes).map infoOf
    rw [own, globals]
  · funext tag name
    rw [valuesFor_eq, valuesFor_eq, attribute?_eq, attribute?_eq, own, globals, valueSets]
  · funext tag name
    rw [isReferenceAttribute_eq, isReferenceAttribute_eq, own]

/-! ## Marks on tags -/

/-- **A change of tags** makes them known and leaves what it leaves in each declaration: here the content
model. -/
theorem Indexed.toVocabulary_modifyAll (h : Indexed d declared) (nameOf : β → Text)
    (change : β → TagDeclaration → TagDeclaration) (keeps : ∀ b t, (change b t).name = t.name)
    (children : ∀ b t, (change b t).children = t.children) (bs : List β) :
    (d.modifyAll nameOf change bs).toVocabulary =
      { (d.modifyAll nameOf change bs).toVocabulary with
        tags := (d.toVocabulary.knowing (bs.map nameOf)).tags
        isKnownTag := (d.toVocabulary.knowing (bs.map nameOf)).isKnownTag
        allowsChild := d.allowsChild } := by
  apply Vocabulary.ext
  case tags => exact h.tags_append (h.modifyAll nameOf change keeps bs)
  case isKnownTag =>
    funext tag
    exact h.answer_set nameOf change keeps Option.isSome (fun _ _ => rfl) bs tag
  case allowsChild =>
    funext parent child
    have kept := h.answer_kept nameOf change keeps (·.bind (·.children))
      (fun known b => by cases known <;> simp [children]) bs parent
    show allowsChild _ parent child = d.allowsChild parent child
    rw [allowsChild, allowsChild, kept]
  all_goals rfl

/-- **A mark on tags** leaves all that is known about attributes. -/
theorem Indexed.toVocabulary_mark (h : Indexed d declared) (mark : TagDeclaration → TagDeclaration)
    (keeps : ∀ t, (mark t).name = t.name ∧ (mark t).attributes = t.attributes ∧
      (mark t).children = t.children) (names : List Text) :
    (d.modifyAll id (fun _ => mark) names).toVocabulary =
      { d.toVocabulary.knowing names with
        isVoid := (d.modifyAll id (fun _ => mark) names).toVocabulary.isVoid
        isEmbeddedContent := (d.modifyAll id (fun _ => mark) names).toVocabulary.isEmbeddedContent } := by
  have name : ∀ (_ : Text) t, (mark t).name = t.name := fun _ t => (keeps t).1
  have own (tag : Text) : (d.modifyAll id (fun _ => mark) names).ownAttributes tag = d.ownAttributes tag :=
    h.answer_kept id (fun _ => mark) name
      (fun known => (known.map TagDeclaration.attributes).getD [])
      (fun known _ => by cases known <;> simp [keeps]) names tag
  obtain ⟨globals, valueSets⟩ := modifyAll_frame id (fun _ => mark) d names
  obtain ⟨attributes, values, references⟩ := attributes_congr own globals valueSets
  rw [h.toVocabulary_modifyAll id _ name (fun _ t => (keeps t).2.2), List.map_id]
  apply Vocabulary.ext
  case attributesFor => exact attributes
  case valuesFor => exact values
  case isReferenceAttribute => exact references
  all_goals rfl

/-- **Marking void tags** makes them known and void, and changes no other answer. -/
theorem Indexed.toVocabulary_markVoid (h : Indexed d declared) (names : List Text) :
    (d.markVoid names).toVocabulary =
      { d.toVocabulary.knowing names with
        isVoid := fun tag => d.toVocabulary.isVoid tag || names.any (·.equalsIgnoringCase tag) } := by
  rw [markVoid_eq, h.toVocabulary_mark asVoid fun _ => ⟨rfl, rfl, rfl⟩]
  apply Vocabulary.ext
  case isVoid =>
    funext tag
    have set :=
      h.answer_set id (fun _ => asVoid) (fun _ _ => rfl) (·.any (·.isVoid)) (fun _ _ => rfl) names tag
    rwa [List.map_id] at set
  case isEmbeddedContent =>
    funext tag
    exact h.answer_kept id (fun _ => asVoid) (fun _ _ => rfl) (·.any (·.isEmbedded))
      (fun known _ => by cases known <;> rfl) names tag
  all_goals rfl

/-- **Marking opaque content** makes the tags known and their content opaque, and changes no other answer. -/
theorem Indexed.toVocabulary_markEmbedded (h : Indexed d declared) (names : List Text) :
    (d.markEmbedded names).toVocabulary =
      { d.toVocabulary.knowing names with
        isEmbeddedContent := fun tag =>
          d.toVocabulary.isEmbeddedContent tag || names.any (·.equalsIgnoringCase tag) } := by
  rw [markEmbedded_eq, h.toVocabulary_mark asEmbedded fun _ => ⟨rfl, rfl, rfl⟩]
  apply Vocabulary.ext
  case isVoid =>
    funext tag
    exact h.answer_kept id (fun _ => asEmbedded) (fun _ _ => rfl) (·.any (·.isVoid))
      (fun known _ => by cases known <;> rfl) names tag
  case isEmbeddedContent =>
    funext tag
    have set :=
      h.answer_set id (fun _ => asEmbedded) (fun _ _ => rfl) (·.any (·.isEmbedded)) (fun _ _ => rfl) names tag
    rwa [List.map_id] at set
  all_goals rfl

/-! ## Marks on attributes -/

/-- Marks attributes of a tag as references, one after the other. -/
def markAttributes (names : List Text) (attributes : List AttributeDeclaration) :
    List AttributeDeclaration :=
  names.foldl (fun attributes name => markAttribute name attributes) attributes

theorem markAttributes_cons (name : Text) (names : List Text) (attributes : List AttributeDeclaration) :
    markAttributes (name :: names) attributes = markAttributes names (markAttribute name attributes) := rfl

/-- An attribute that is marked is listed, at the end if it is new. -/
theorem map_infoOf_markAttribute (name : Text) (attributes : List AttributeDeclaration) :
    (markAttribute name attributes).map infoOf = attributes.map infoOf ++
      if attributes.any (·.name.equalsIgnoringCase name) then [] else [⟨name, none⟩] := by
  induction attributes with
  | nil => rfl
  | cons a attributes ih =>
    rw [markAttribute, List.any_cons]
    cases same : a.name.equalsIgnoringCase name with
    | true => simp [infoOf]
    | false => simp [ih]

/-- The name of a marked attribute is found from then on. -/
theorem any_markAttribute (name other : Text) (attributes : List AttributeDeclaration) :
    (markAttribute name attributes).any (·.name.equalsIgnoringCase other) =
      (attributes.any (·.name.equalsIgnoringCase other) || name.equalsIgnoringCase other) := by
  induction attributes with
  | nil => simp [markAttribute]
  | cons a attributes ih =>
    rw [markAttribute]
    cases same : a.name.equalsIgnoringCase name with
    | true =>
      have alike : a.name.equalsIgnoringCase other = name.equalsIgnoringCase other :=
        equalsIgnoringCase_congr (equalsIgnoringCase_iff.mp same) rfl
      cases found : name.equalsIgnoringCase other <;> simp [alike, found]
    | false => simp [ih, Bool.or_assoc]

/-- A mark adds no values to an attribute that is there; a new attribute has none. -/
theorem sources_markAttribute (name other : Text) (attributes : List AttributeDeclaration) :
    (findAttribute? (markAttribute name attributes) other).map sourcesOf =
      ((findAttribute? attributes other).map sourcesOf).or
        (if name.equalsIgnoringCase other then some ([], none) else none) := by
  induction attributes with
  | nil =>
    cases found : name.equalsIgnoringCase other <;>
      simp [markAttribute, findAttribute?, found, sourcesOf]
  | cons a attributes ih =>
    simp only [findAttribute?] at ih
    rw [markAttribute]
    cases same : a.name.equalsIgnoringCase name with
    | true =>
      have alike : a.name.equalsIgnoringCase other = name.equalsIgnoringCase other :=
        equalsIgnoringCase_congr (equalsIgnoringCase_iff.mp same) rfl
      cases found : name.equalsIgnoringCase other <;>
        simp [findAttribute?, alike, found, sourcesOf]
    | false =>
      cases found : a.name.equalsIgnoringCase other with
      | true => simp [findAttribute?, found]
      | false => simp [findAttribute?, found, ih]

/-- A marked attribute is a reference, and no other attribute becomes one. -/
theorem references_markAttribute (name other : Text) (attributes : List AttributeDeclaration) :
    ((markAttribute name attributes).any fun a => a.isReference && a.name.equalsIgnoringCase other) =
      ((attributes.any fun a => a.isReference && a.name.equalsIgnoringCase other) ||
        name.equalsIgnoringCase other) := by
  induction attributes with
  | nil => simp [markAttribute]
  | cons a attributes ih =>
    rw [markAttribute]
    cases same : a.name.equalsIgnoringCase name with
    | true =>
      have alike : a.name.equalsIgnoringCase other = name.equalsIgnoringCase other :=
        equalsIgnoringCase_congr (equalsIgnoringCase_iff.mp same) rfl
      cases found : name.equalsIgnoringCase other <;> simp [alike, found]
    | false => simp [ih, Bool.or_assoc]

/-- **The attributes that several marks list**: those of new names, each in its first spelling. -/
theorem map_infoOf_markAttributes (names : List Text) (attributes : List AttributeDeclaration) :
    (markAttributes names attributes).map infoOf = attributes.map infoOf ++
      ((firstSpellings names).filter fun name =>
        !attributes.any (·.name.equalsIgnoringCase name)).map (⟨·, none⟩) := by
  induction names generalizing attributes with
  | nil => simp [markAttributes, firstSpellings]
  | cons name names ih =>
    -- A later spelling of the same name is not new.
    have later : (firstSpellings names).filter (fun other =>
        !(markAttribute name attributes).any (·.name.equalsIgnoringCase other)) =
        ((firstSpellings names).filter (!·.equalsIgnoringCase name)).filter fun other =>
          !attributes.any (·.name.equalsIgnoringCase other) := by
      rw [List.filter_filter]
      refine List.filter_congr fun other _ => ?_
      rw [any_markAttribute, Bool.not_or, equalsIgnoringCase_comm name]
    rw [markAttributes_cons, ih, map_infoOf_markAttribute, later, firstSpellings, List.filter_cons,
      List.append_assoc]
    cases attributes.any (·.name.equalsIgnoringCase name) <;> rfl

/-- What several marks leave of the values. -/
theorem sources_markAttributes (names : List Text) (attributes : List AttributeDeclaration) (other : Text) :
    (findAttribute? (markAttributes names attributes) other).map sourcesOf =
      ((findAttribute? attributes other).map sourcesOf).or
        (if names.any (·.equalsIgnoringCase other) then some ([], none) else none) := by
  induction names generalizing attributes with
  | nil => simp [markAttributes]
  | cons name names ih =>
    rw [markAttributes_cons, ih, sources_markAttribute, Option.or_assoc, List.any_cons]
    cases name.equalsIgnoringCase other <;> simp

/-- What several marks make references. -/
theorem references_markAttributes (names : List Text) (attributes : List AttributeDeclaration)
    (other : Text) :
    ((markAttributes names attributes).any fun a => a.isReference && a.name.equalsIgnoringCase other) =
      ((attributes.any fun a => a.isReference && a.name.equalsIgnoringCase other) ||
        names.any (·.equalsIgnoringCase other)) := by
  induction names generalizing attributes with
  | nil => simp [markAttributes]
  | cons name names ih =>
    rw [markAttributes_cons, ih, references_markAttribute, List.any_cons, Bool.or_assoc]

/-! ## References -/

/-- The attributes of a tag that some pairs name. -/
def namedOn (pairs : List (Text × Text)) (tag : Text) : List Text :=
  (pairs.filter (·.1.equalsIgnoringCase tag)).map Prod.snd

/-- An attribute is named on a tag if a pair names both. -/
theorem any_namedOn (pairs : List (Text × Text)) (tag name : Text) :
    (namedOn pairs tag).any (·.equalsIgnoringCase name) =
      pairs.any fun pair => pair.1.equalsIgnoringCase tag && pair.2.equalsIgnoringCase name := by
  rw [namedOn, List.any_map, List.any_filter]
  rfl

/-- The attributes that marks on some pairs list with a tag: those that it did not have itself. -/
def newlyListed (d : Dictionary) (pairs : List (Text × Text)) (tag : Text) : List AttributeInfo :=
  ((firstSpellings (namedOn pairs tag)).filter fun name =>
    !(d.ownAttributes tag).any (·.name.equalsIgnoringCase name)).map (⟨·, none⟩)

/-- Whether a mark on a pair **hides a global attribute**: there is one of that name, and none that the tag
has itself. -/
def hidesGlobal (d : Dictionary) (pairs : List (Text × Text)) (tag name : Text) : Bool :=
  (pairs.any fun pair => pair.1.equalsIgnoringCase tag && pair.2.equalsIgnoringCase name) &&
    (findAttribute? (d.ownAttributes tag) name).isNone &&
    (findAttribute? d.globalAttributes name).isSome

/-- The own attributes of a tag after marks on some pairs. -/
theorem Indexed.ownAttributes_markReferences (h : Indexed d declared) (pairs : List (Text × Text))
    (tag : Text) :
    (d.markReferences pairs).ownAttributes tag =
      markAttributes (namedOn pairs tag) (d.ownAttributes tag) := by
  rw [namedOn, markAttributes, List.foldl_map, markReferences_eq]
  exact h.answer_modifyAll Prod.fst asReferring (fun _ _ => rfl)
    (fun known => (known.map TagDeclaration.attributes).getD [])
    (fun attributes pair => markAttribute pair.2 attributes) (fun known _ => by cases known <;> rfl) pairs
    tag

/-- **Marking references** makes the tags and their attributes known, and hides the values of global attributes
that get an entry of their own. -/
theorem Indexed.toVocabulary_markReferences (h : Indexed d declared) (pairs : List (Text × Text)) :
    (d.markReferences pairs).toVocabulary =
      { d.toVocabulary.knowing (pairs.map Prod.fst) with
        isReferenceAttribute := fun tag name => d.toVocabulary.isReferenceAttribute tag name ||
          pairs.any fun pair => pair.1.equalsIgnoringCase tag && pair.2.equalsIgnoringCase name
        attributesFor := fun tag => (d.ownAttributes tag).map infoOf ++ d.newlyListed pairs tag ++
          d.globalAttributes.map infoOf
        valuesFor := fun tag name =>
          if d.hidesGlobal pairs tag name then [] else d.toVocabulary.valuesFor tag name } := by
  have own := h.ownAttributes_markReferences pairs
  obtain ⟨globals, valueSets⟩ : (d.markReferences pairs).globalAttributes = d.globalAttributes ∧
      (d.markReferences pairs).valueSets = d.valueSets := modifyAll_frame Prod.fst asReferring d pairs
  refine (h.toVocabulary_modifyAll Prod.fst asReferring (fun _ _ => rfl) (fun _ _ => rfl) pairs).trans ?_
  rw [← markReferences_eq]
  apply Vocabulary.ext
  case attributesFor =>
    funext tag
    show ((d.markReferences pairs).ownAttributes tag ++ (d.markReferences pairs).globalAttributes).map
      infoOf = _
    rw [own, globals, List.map_append, map_infoOf_markAttributes]
    rfl
  case valuesFor =>
    funext tag name
    show (d.markReferences pairs).valuesFor tag name =
      if d.hidesGlobal pairs tag name then [] else d.valuesFor tag name
    rw [valuesFor_eq, valuesFor_eq, attribute?_eq, attribute?_eq, own, Option.map_or, Option.map_or,
      sources_markAttributes, any_namedOn, hidesGlobal, globals, valueSets]
    -- An own attribute keeps its values. A new one hides those of a global attribute.
    cases findAttribute? (d.ownAttributes tag) name with
    | some a => simp
    | none =>
      cases pairs.any fun pair => pair.1.equalsIgnoringCase tag && pair.2.equalsIgnoringCase name with
      | false => simp
      | true => cases findAttribute? d.globalAttributes name <;> simp
  case isReferenceAttribute =>
    funext tag name
    show (d.markReferences pairs).isReferenceAttribute tag name =
      (d.isReferenceAttribute tag name || _)
    rw [isReferenceAttribute_eq, isReferenceAttribute_eq, own, references_markAttributes, any_namedOn,
      Bool.or_assoc]
  case isVoid =>
    funext tag
    exact h.answer_kept Prod.fst asReferring (fun _ _ => rfl) (·.any (·.isVoid))
      (fun known _ => by cases known <;> rfl) pairs tag
  case isEmbeddedContent =>
    funext tag
    exact h.answer_kept Prod.fst asReferring (fun _ _ => rfl) (·.any (·.isEmbedded))
      (fun known _ => by cases known <;> rfl) pairs tag
  all_goals rfl

/-! ## Any dictionary -/

/-- **What marks disturb**: after any changes of the empty dictionary, a mark makes the tags known that it
names and sets its own answer for them. A mark on references lists the attribute with its tag, too, and the
values are the same but for those of a global attribute that it hides. -/
theorem ofChanges_marks (changes : List Change) (names : List Text) (pairs : List (Text × Text)) :
    let d := ofChanges changes
    let v := d.toVocabulary
    (d.markVoid names).toVocabulary =
        { v.knowing names with
          isVoid := fun tag => v.isVoid tag || names.any (·.equalsIgnoringCase tag) } ∧
      (d.markEmbedded names).toVocabulary =
        { v.knowing names with
          isEmbeddedContent := fun tag =>
            v.isEmbeddedContent tag || names.any (·.equalsIgnoringCase tag) } ∧
      (d.markReferences pairs).toVocabulary =
        { v.knowing (pairs.map Prod.fst) with
          isReferenceAttribute := fun tag name => v.isReferenceAttribute tag name ||
            pairs.any fun pair => pair.1.equalsIgnoringCase tag && pair.2.equalsIgnoringCase name
          attributesFor := fun tag => (d.ownAttributes tag).map infoOf ++ d.newlyListed pairs tag ++
            d.globalAttributes.map infoOf
          valuesFor := fun tag name =>
            if d.hidesGlobal pairs tag name then [] else v.valuesFor tag name } := by
  have indexed := indexed_ofChanges changes
  exact ⟨indexed.toVocabulary_markVoid names, indexed.toVocabulary_markEmbedded names,
    indexed.toVocabulary_markReferences pairs⟩

/-- The values of a global attribute are gone once it is marked as a reference on a tag. -/
theorem markReferences_hides_values :
    let direction : AttributeDeclaration := { name := "dir".toList, values := ["ltr".toList] }
    let d := ofChanges [.merge { globalAttributes := [direction] }]
    d.toVocabulary.valuesFor "p".toList "dir".toList = ["ltr".toList] ∧
      (d.markReferences [("p".toList, "dir".toList)]).toVocabulary.valuesFor "p".toList "dir".toList
        = [] := by
  decide

end Dictionary

end MarkupAnalysis
