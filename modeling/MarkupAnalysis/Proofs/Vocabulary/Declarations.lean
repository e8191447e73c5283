import Mathlib.Data.List.Basic
import MarkupAnalysis.Proofs.Vocabulary.Index

/-! # Declarations in a dictionary

A dictionary changes tag by tag: a tag that is known is changed where it stands, an unknown one is added.
All that is looked up about a tag comes from its declaration, from the global attributes and from the value
sets, so it is enough to follow these.

* **`Dictionary.firstSpellings_append`** — the first spellings of two lists of names.
* **`Dictionary.Indexed.tag?_update`** — what is found of a tag after one tag has been changed or added.
* **`Dictionary.Indexed.tag?_declare`**, **`Dictionary.Indexed.tag?_modifyTag`** — the same for the two
  kinds of changes.
* **`Dictionary.toVocabulary_congr`** — what the lookups depend on.
* **`Dictionary.findAttribute?_mergeAttributes`**, **`Dictionary.mergeAttributes_eq_self`** — lists of
  attributes in which the first of each name counts. -/

namespace MarkupAnalysis.Dictionary

open Text

variable {d d' : Dictionary} {declared : List Text} {name other : Text} {t : TagDeclaration} {i : Nat}
  {change : TagDeclaration → TagDeclaration} {known added : List AttributeDeclaration}

/-! ## Names -/

/-- More names add those that have not been given in another spelling. -/
theorem firstSpellings_append (names names' : List Text) :
    firstSpellings (names ++ names') = firstSpellings names ++
      (firstSpellings names').filter fun name => !names.any (·.equalsIgnoringCase name) := by
  induction names with
  | nil => simp [firstSpellings]
  | cons first names ih =>
    simp only [List.cons_append, firstSpellings, ih, List.filter_append, List.filter_filter, List.any_cons,
      Bool.not_or, equalsIgnoringCase_comm first]

/-- Names that have all been given add none. -/
theorem firstSpellings_append_of_known {names names' : List Text}
    (all_known : ∀ name ∈ names', lower name ∈ names.map lower) :
    firstSpellings (names ++ names') = firstSpellings names := by
  rw [firstSpellings_append, List.filter_eq_nil_iff.mpr, List.append_nil]
  intro name mem
  obtain ⟨given, there, same⟩ := List.mem_map.mp (lower_mem_firstSpellings.mp (List.mem_map_of_mem mem))
  obtain ⟨earlier, before, same'⟩ := List.mem_map.mp (all_known given there)
  have found : names.any (·.equalsIgnoringCase name) = true :=
    List.any_eq_true.mpr ⟨earlier, before, equalsIgnoringCase_iff.mpr (same'.trans same)⟩
  simp [found]

/-! ## One tag -/

/-- A tag is found at its position. -/
theorem tag?_eq_bind (d : Dictionary) (name : Text) :
    d.tag? name = (d.index.lookup (lower name)).bind (d.tags[·]?) := by
  rw [tag?, position?_eq_lookup]

/-- A tag that is in the index is found. -/
theorem Indexed.exists_tag? (h : Indexed d declared) (there : d.index.lookup (lower name) = some i) :
    ∃ t, d.tags[i]? = some t ∧ d.tag? name = some t := by
  obtain ⟨tag, named, -⟩ := h.lookup_eq_some_iff.mp there
  rw [getElem?_toVocabulary_tags, Option.map_eq_some_iff] at named
  obtain ⟨t, here, -⟩ := named
  exact ⟨t, here, by rw [tag?_eq_bind, there]; exact here⟩

/-- Where the known tag of a name is changed, only that tag is. -/
theorem Indexed.tag?_modify (h : Indexed d declared) (there : d.index.lookup (lower name) = some i)
    (other : Text) :
    ({ d with tags := d.tags.modify i change } : Dictionary).tag? other =
      if name.equalsIgnoringCase other then (d.tag? other).map change else d.tag? other := by
  rw [tag?_eq_bind, tag?_eq_bind]
  show (d.index.lookup (lower other)).bind ((d.tags.modify i change)[·]?) = _
  by_cases same : name.equalsIgnoringCase other = true
  · rw [if_pos same, ← equalsIgnoringCase_iff.mp same, there]
    simp [Array.getElem?_modify]
  · rw [if_neg same]
    cases found : d.index.lookup (lower other) with
    | none => rfl
    | some j =>
      -- Two names with one position would be one name up to case.
      have elsewhere : i ≠ j := by
        rintro rfl
        obtain ⟨tag, here, named⟩ := h.lookup_eq_some_iff.mp there
        obtain ⟨tag', here', named'⟩ := h.lookup_eq_some_iff.mp found
        obtain rfl : tag = tag' := Option.some.inj (here.symm.trans here')
        exact same (equalsIgnoringCase_iff.mpr (named.symm.trans named'))
      simp [Array.getElem?_modify, elsewhere]

/-- Where a tag is added, only that tag is new. -/
theorem Indexed.tag?_push (h : Indexed d declared) (new : d.index.lookup (lower t.name) = none)
    (other : Text) :
    (d.push t).tag? other = if t.name.equalsIgnoringCase other then some t else d.tag? other := by
  rw [tag?_eq_bind, tag?_eq_bind]
  show ((d.index ++ [(lower t.name, d.tags.size)]).lookup (lower other)).bind ((d.tags.push t)[·]?) = _
  rw [List.lookup_append]
  by_cases same : t.name.equalsIgnoringCase other = true
  · rw [if_pos same, ← equalsIgnoringCase_iff.mp same, new]
    simp
  · have different : (lower other == lower t.name) = false := by
      rw [beq_eq_false_iff_ne]
      intro eq
      exact same (equalsIgnoringCase_iff.mpr eq.symm)
    rw [if_neg same]
    cases found : d.index.lookup (lower other) with
    | none => simp [List.lookup_cons, different]
    | some j =>
      obtain ⟨t', here, -⟩ := h.exists_tag? found
      have before : j < d.tags.size := (Array.getElem?_eq_some_iff.mp here).1
      simp [Array.getElem?_push, Nat.ne_of_lt before]

/-- **What is found after a tag has been changed or added**: under its own name the changed or the new
tag, under another name what was found before. -/
theorem Indexed.tag?_update (h : Indexed d declared) (t : TagDeclaration)
    (change : TagDeclaration → TagDeclaration) (other : Text) :
    (match d.index.lookup (lower t.name) with
      | some i => { d with tags := d.tags.modify i change }
      | none => d.push t : Dictionary).tag? other =
      if t.name.equalsIgnoringCase other then some ((d.tag? other).elim t change) else d.tag? other := by
  cases found : d.index.lookup (lower t.name) with
  | some i =>
    show ({ d with tags := d.tags.modify i change } : Dictionary).tag? other = _
    rw [h.tag?_modify found]
    split
    · rename_i same
      obtain ⟨t', -, there⟩ := h.exists_tag? found
      rw [tag?_congr (equalsIgnoringCase_iff.mp same)] at there
      rw [there]
      rfl
    · rfl
  | none =>
    show (d.push t).tag? other = _
    rw [h.tag?_push found]
    split
    · rename_i same
      rw [tag?_eq_bind, ← equalsIgnoringCase_iff.mp same, found]
      rfl
    · rfl

/-- The declaration of a tag is merged into what is known of it. -/
theorem Indexed.tag?_declare (h : Indexed d declared) (t : TagDeclaration) (other : Text) :
    (d.declare t).tag? other =
      if t.name.equalsIgnoringCase other then some ((d.tag? other).elim t (mergeTag · t))
      else d.tag? other :=
  h.tag?_update t (mergeTag · t) other

/-- A change of a tag's declaration applies to what is known of it, or to a new declaration. -/
theorem Indexed.tag?_modifyTag (h : Indexed d declared) (keeps : ∀ t, (change t).name = t.name)
    (name other : Text) :
    (d.modifyTag name change).tag? other =
      if name.equalsIgnoringCase other then some (change ((d.tag? other).getD { name }))
      else d.tag? other := by
  have updated := h.tag?_update (change { name }) change other
  rw [keeps { name }] at updated
  refine updated.trans ?_
  cases d.tag? other <;> rfl

/-! ## What the lookups depend on -/

attribute [ext] Vocabulary

/-- Dictionaries give the same answers if they have the same tags in the same order, the same global
attributes and the same value sets. -/
theorem toVocabulary_congr (tags : d'.toVocabulary.tags = d.toVocabulary.tags)
    (declarations : ∀ tag, d'.tag? tag = d.tag? tag)
    (globals : d'.globalAttributes = d.globalAttributes)
    (valueSets : ∀ name, d'.valueSets.lookup name = d.valueSets.lookup name) :
    d'.toVocabulary = d.toVocabulary := by
  apply Vocabulary.ext
  case tags => exact tags
  case tagNamesMatch => rfl
  -- Each of the other answers is computed from these four.
  all_goals
    simp only [toVocabulary]
    funext tag
  case valuesFor =>
    funext name
    simp only [valuesFor, attribute?, declarations, globals, valueSets]
  case isReferenceAttribute =>
    funext name
    simp only [isReferenceAttribute, declarations]
  case allowsChild =>
    funext child
    simp only [allowsChild, declarations]
  all_goals simp only [attributesFor, declarations, globals]

/-! ## Lists of attributes -/

/-- Attributes are added one after the other. -/
theorem mergeAttributes_cons (known : List AttributeDeclaration) (a : AttributeDeclaration)
    (added : List AttributeDeclaration) :
    mergeAttributes known (a :: added) =
      mergeAttributes (if known.any (·.name.equalsIgnoringCase a.name) then known else known ++ [a])
        added := rfl

/-- Attributes may be added at once or in two parts, with the same result. -/
theorem mergeAttributes_append (known added added' : List AttributeDeclaration) :
    mergeAttributes known (added ++ added') = mergeAttributes (mergeAttributes known added) added' :=
  List.foldl_append

/-- An attribute is known if its name is found. -/
theorem any_equalsIgnoringCase_eq (known : List AttributeDeclaration) (name : Text) :
    known.any (·.name.equalsIgnoringCase name) = (findAttribute? known name).isSome := by
  rw [findAttribute?, List.isSome_find?]

/-- In two lists one behind the other the first attribute of a name is that of the first list. -/
theorem findAttribute?_append (known added : List AttributeDeclaration) (name : Text) :
    findAttribute? (known ++ added) name = (findAttribute? known name).or (findAttribute? added name) :=
  List.find?_append

/-- **Attributes that are added** are found where no attribute of the name was known. -/
theorem findAttribute?_mergeAttributes (known added : List AttributeDeclaration) (name : Text) :
    findAttribute? (mergeAttributes known added) name =
      (findAttribute? known name).or (findAttribute? added name) := by
  induction added generalizing known with
  | nil => exact (Option.or_none).symm
  | cons a added ih =>
    have first : findAttribute? (a :: added) name =
        (findAttribute? [a] name).or (findAttribute? added name) := findAttribute?_append [a] added name
    rw [mergeAttributes_cons, ih, any_equalsIgnoringCase_eq, first, ← Option.or_assoc]
    split
    · rename_i there
      -- An attribute that is left out is not found, as there is one of its name already.
      by_cases same : a.name.equalsIgnoringCase name = true
      · rw [findAttribute?_congr known (equalsIgnoringCase_iff.mp same)] at there
        obtain ⟨earlier, found⟩ := Option.isSome_iff_exists.mp there
        rw [found]
        rfl
      · have missed : findAttribute? [a] name = none := by
          simp [findAttribute?, same]
        rw [missed, Option.or_none]
    · rw [findAttribute?_append]

/-- **Attributes whose names are known** add nothing. -/
theorem mergeAttributes_eq_self (all_known : ∀ a ∈ added, findAttribute? known a.name ≠ none) :
    mergeAttributes known added = known := by
  induction added with
  | nil => rfl
  | cons a added ih =>
    have here : known.any (·.name.equalsIgnoringCase a.name) = true := by
      rw [any_equalsIgnoringCase_eq, Option.isSome_iff_ne_none]
      exact all_known a List.mem_cons_self
    rw [mergeAttributes_cons, if_pos here]
    exact ih fun b mem => all_known b (List.mem_cons_of_mem a mem)

end MarkupAnalysis.Dictionary
