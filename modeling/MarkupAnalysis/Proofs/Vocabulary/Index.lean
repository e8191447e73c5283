import Mathlib.Data.List.Induction
import MarkupAnalysis.Proofs.Text.Case
import MarkupAnalysis.Vocabulary.Dictionary

/-! # The index of a dictionary

A dictionary finds its tags through an index of their positions. Whatever data sets have been merged into
it and whatever tags have been marked, the index knows each tag under its name in lower case and nothing
else, and no two tags have the same name up to case.

* **`Vocabulary.IgnoresCase`** — a vocabulary whose answers are the same for all spellings of a name.
* **`Vocabulary.not_ignoresCase_withExactCase`** — one that pairs equal names only is none.
* **`Dictionary.ignoresCase_toVocabulary`** — that of a dictionary is one.
* **`Dictionary.Change`**, **`Dictionary.ofChanges`** — the ways to change a dictionary.
* **`Dictionary.Indexed`** — what the index knows, kept by each declaration.
* **`Dictionary.ofChanges_wellIndexed`** — the dictionary after any changes. -/

namespace MarkupAnalysis

open Text

/-! ## Answers that ignore case -/

/-- **The answers are the same for all spellings** of tags and attributes. -/
structure Vocabulary.IgnoresCase (v : Vocabulary) : Prop where
  isKnownTag : ∀ {tag tag'}, lower tag = lower tag' → v.isKnownTag tag = v.isKnownTag tag'
  attributesFor : ∀ {tag tag'}, lower tag = lower tag' → v.attributesFor tag = v.attributesFor tag'
  valuesFor : ∀ {tag tag' name name'}, lower tag = lower tag' → lower name = lower name' →
    v.valuesFor tag name = v.valuesFor tag' name'
  isVoid : ∀ {tag tag'}, lower tag = lower tag' → v.isVoid tag = v.isVoid tag'
  isEmbeddedContent : ∀ {tag tag'}, lower tag = lower tag' →
    v.isEmbeddedContent tag = v.isEmbeddedContent tag'
  isReferenceAttribute : ∀ {tag tag' name name'}, lower tag = lower tag' → lower name = lower name' →
    v.isReferenceAttribute tag name = v.isReferenceAttribute tag' name'
  allowsChild : ∀ {parent parent' child child'}, lower parent = lower parent' →
    lower child = lower child' → v.allowsChild parent child = v.allowsChild parent' child'
  tagNamesMatch : ∀ {name name' endName endName'}, lower name = lower name' →
    lower endName = lower endName' → v.tagNamesMatch name endName = v.tagNamesMatch name' endName'

/-- A vocabulary that pairs equal names only does not ignore case, whatever else it answers. -/
theorem Vocabulary.not_ignoresCase_withExactCase (v : Vocabulary) : ¬ v.withExactCase.IgnoresCase := by
  intro ignores
  have same : v.withExactCase.tagNamesMatch ['a'] ['a'] = v.withExactCase.tagNamesMatch ['a'] ['A'] :=
    ignores.tagNamesMatch rfl (by decide)
  have equal : v.withExactCase.tagNamesMatch ['a'] ['a'] = true := beq_self_eq_true _
  have other : v.withExactCase.tagNamesMatch ['a'] ['A'] = false := by
    simp [withExactCase]
  rw [equal, other] at same
  cases same

namespace Dictionary

variable {d d' : Dictionary} {tag tag' name name' : Text}

/-- A tag is always looked up in lower case, also where its name is used as it is. -/
theorem position?_eq_lookup (d : Dictionary) (name : Text) :
    d.position? name = d.index.lookup (lower name) := by
  rw [position?]
  split
  · rfl
  · rename_i none_upper
    rw [lower_of_no_upper (by simpa using none_upper)]

/-- All spellings of a tag find the same declaration. -/
theorem tag?_congr (same : lower tag = lower tag') : d.tag? tag = d.tag? tag' := by
  rw [tag?, tag?, position?_eq_lookup, position?_eq_lookup, same]

/-- All spellings of an attribute find the same declaration. -/
theorem findAttribute?_congr (attributes : List AttributeDeclaration) (same : lower name = lower name') :
    findAttribute? attributes name = findAttribute? attributes name' := by
  simp only [findAttribute?, equalsIgnoringCase_congr rfl same]

/-- All spellings of a tag and an attribute find the same declaration. -/
theorem attribute?_congr (tags : lower tag = lower tag') (names : lower name = lower name') :
    d.attribute? tag name = d.attribute? tag' name' := by
  simp only [attribute?, tag?_congr tags, findAttribute?_congr _ names]

/-- **The answers of a dictionary** are the same for all spellings. -/
theorem ignoresCase_toVocabulary (d : Dictionary) : d.toVocabulary.IgnoresCase where
  isKnownTag same := by
    simp only [toVocabulary, tag?_congr same]
  attributesFor same := by
    simp only [toVocabulary, attributesFor, tag?_congr same]
  valuesFor tags names := by
    simp only [toVocabulary, valuesFor, attribute?_congr tags names]
  isVoid same := by
    simp only [toVocabulary, tag?_congr same]
  isEmbeddedContent same := by
    simp only [toVocabulary, tag?_congr same]
  isReferenceAttribute tags names := by
    simp only [toVocabulary, isReferenceAttribute, Vocabulary.isLocator, tag?_congr tags,
      equalsIgnoringCase_congr names rfl, equalsIgnoringCase_congr rfl names]
  allowsChild parents children := by
    simp only [toVocabulary, allowsChild, tag?_congr parents, equalsIgnoringCase_congr rfl children]
  tagNamesMatch names endNames := equalsIgnoringCase_congr names endNames

/-! ## Changes -/

/-- A change of a dictionary. -/
inductive Change where
  /-- A data set is merged. -/
  | merge (data : DataSet)
  /-- Tags are marked as void. -/
  | markVoid (names : List Text)
  /-- The content of tags is marked as opaque. -/
  | markEmbedded (names : List Text)
  /-- Pairs of a tag and one of its attributes are marked as references. -/
  | markReferences (pairs : List (Text × Text))

/-- The tags that a change declares, in order. -/
def Change.names : Change → List Text
  | merge data => data.tags.map (·.name)
  | markVoid names => names
  | markEmbedded names => names
  | markReferences pairs => pairs.map Prod.fst

/-- The dictionary after a change. -/
def apply (d : Dictionary) : Change → Dictionary
  | .merge data => d.merge data
  | .markVoid names => d.markVoid names
  | .markEmbedded names => d.markEmbedded names
  | .markReferences pairs => d.markReferences pairs

/-- The dictionary that some changes make of the empty one. -/
def ofChanges (changes : List Change) : Dictionary := changes.foldl apply empty

/-- Each name once, at its first place and in its first spelling. -/
def firstSpellings : List Text → List Text
  | [] => []
  | name :: names => name :: (firstSpellings names).filter (!·.equalsIgnoringCase name)

/-- A name stands among the first spellings if some spelling of it is given. -/
theorem lower_mem_firstSpellings {names : List Text} :
    lower name ∈ (firstSpellings names).map lower ↔ lower name ∈ names.map lower := by
  induction names with
  | nil => rfl
  | cons first names ih =>
    by_cases same : lower name = lower first
    · simp [firstSpellings, same]
    · have kept : lower name ∈ ((firstSpellings names).filter (!·.equalsIgnoringCase first)).map lower ↔
          lower name ∈ (firstSpellings names).map lower := by
        simp only [List.mem_map, List.mem_filter]
        constructor
        · rintro ⟨spelling, ⟨mem, -⟩, eq⟩
          exact ⟨spelling, mem, eq⟩
        · rintro ⟨spelling, mem, eq⟩
          exact ⟨spelling, ⟨mem, by simpa [equalsIgnoringCase, eq] using same⟩, eq⟩
      simp only [firstSpellings, List.map_cons, List.mem_cons, same, false_or, kept, ih]

/-- No two first spellings are equal up to case. -/
theorem nodup_firstSpellings (names : List Text) : ((firstSpellings names).map lower).Nodup := by
  induction names with
  | nil => exact List.nodup_nil
  | cons name names ih =>
    refine List.nodup_cons.mpr ⟨fun mem => ?_, ih.sublist (List.filter_sublist.map lower)⟩
    obtain ⟨spelling, mem, same⟩ := List.mem_map.mp mem
    simpa [equalsIgnoringCase, same] using (List.mem_filter.mp mem).2

/-- One more name counts unless it has been given in another spelling. -/
theorem firstSpellings_concat (names : List Text) (name : Text) :
    firstSpellings (names ++ [name]) =
      if lower name ∈ names.map lower then firstSpellings names else firstSpellings names ++ [name] := by
  induction names with
  | nil => rfl
  | cons first names ih =>
    rw [List.cons_append, firstSpellings, ih]
    by_cases known : lower name ∈ names.map lower
    · have known' : lower name ∈ (first :: names).map lower := List.mem_cons_of_mem _ known
      rw [if_pos known, if_pos known']
      rfl
    · rw [if_neg known, List.filter_append]
      by_cases same : lower name = lower first
      · have known' : lower name ∈ (first :: names).map lower := by simp [same]
        rw [if_pos known', List.filter_cons_of_neg (by simp [equalsIgnoringCase, same])]
        simp [firstSpellings]
      · have new : lower name ∉ (first :: names).map lower := by
          simpa [same] using known
        rw [if_neg new, List.filter_cons_of_pos (by simp [equalsIgnoringCase, same])]
        rfl

/-! ## What the index knows -/

/-- What a dictionary knows after tags of some names have been declared one after the other. -/
structure Indexed (d : Dictionary) (declared : List Text) : Prop where
  tags : d.toVocabulary.tags = firstSpellings declared
  index : d.index = d.toVocabulary.tags.mapIdx fun i tag => (lower tag, i)

variable {declared : List Text} {t : TagDeclaration} {i : Nat}

/-- No two tags have the same name up to case. -/
theorem Indexed.distinct (h : Indexed d declared) : (d.toVocabulary.tags.map lower).Nodup :=
  h.tags ▸ nodup_firstSpellings declared

/-- The name of the tag at a position. -/
theorem getElem?_toVocabulary_tags (d : Dictionary) (i : Nat) :
    d.toVocabulary.tags[i]? = d.tags[i]?.map (·.name) := by
  simp [toVocabulary]

/-- An entry of the index. -/
theorem Indexed.mem_index_iff (h : Indexed d declared) {key : Text} :
    (key, i) ∈ d.index ↔ ∃ tag, d.toVocabulary.tags[i]? = some tag ∧ lower tag = key := by
  rw [h.index, List.mem_mapIdx]
  constructor
  · rintro ⟨j, bound, entry⟩
    obtain ⟨rfl, rfl⟩ := Prod.mk.inj entry
    exact ⟨_, List.getElem?_eq_getElem bound, rfl⟩
  · rintro ⟨tag, there, rfl⟩
    obtain ⟨bound, rfl⟩ := List.getElem?_eq_some_iff.mp there
    exact ⟨i, bound, rfl⟩

/-- **What the index answers**: the only position at which a tag has that name. -/
theorem Indexed.lookup_eq_some_iff (h : Indexed d declared) {key : Text} :
    d.index.lookup key = some i ↔ ∃ tag, d.toVocabulary.tags[i]? = some tag ∧ lower tag = key := by
  rw [← h.mem_index_iff]
  constructor
  · intro found
    obtain ⟨before, after, split, -⟩ := List.lookup_eq_some_iff.mp found
    simp [split]
  · intro mem
    cases found : d.index.lookup key with
    | none => simpa using List.lookup_eq_none_iff.mp found (key, i) mem
    | some j =>
      obtain ⟨before, after, split, -⟩ := List.lookup_eq_some_iff.mp found
      have mem' : (key, j) ∈ d.index := by simp [split]
      obtain ⟨tag, there, rfl⟩ := h.mem_index_iff.mp mem
      obtain ⟨tag', there', same⟩ := h.mem_index_iff.mp mem'
      -- Two positions of one name are one.
      have lowered : (d.toVocabulary.tags.map lower)[i]? = (d.toVocabulary.tags.map lower)[j]? := by
        simp only [List.getElem?_map, there, there', Option.map_some, same]
      have bound : i < (d.toVocabulary.tags.map lower).length := by
        simpa using (List.getElem?_eq_some_iff.mp there).1
      rw [(List.getElem?_inj bound h.distinct).mp lowered]

/-- A name that the index does not know is not the name of a tag in any spelling. -/
theorem Indexed.lookup_eq_none_iff (h : Indexed d declared) {key : Text} :
    d.index.lookup key = none ↔ key ∉ d.toVocabulary.tags.map lower := by
  rw [← not_iff_not, ← ne_eq, Option.ne_none_iff_exists', not_not, List.mem_map]
  simp only [h.lookup_eq_some_iff, List.mem_iff_getElem?]
  constructor
  · rintro ⟨i, tag, there, same⟩
    exact ⟨tag, ⟨i, there⟩, same⟩
  · rintro ⟨tag, ⟨i, there⟩, same⟩
    exact ⟨i, tag, there, same⟩

/-- What the index knows depends on the tags and the index only. -/
theorem Indexed.of_eq (h : Indexed d declared) (tags : d'.tags = d.tags) (index : d'.index = d.index) :
    Indexed d' declared := by
  have names : d'.toVocabulary.tags = d.toVocabulary.tags := by
    simp only [toVocabulary, tags]
  exact ⟨names.trans h.tags, by rw [index, names, h.index]⟩

/-- A tag that is known already keeps its place and its name. -/
theorem Indexed.modify (h : Indexed d declared) (known : d.index.lookup (lower name) = some i)
    {change : TagDeclaration → TagDeclaration} (keeps : ∀ t, (change t).name = t.name) :
    Indexed { d with tags := d.tags.modify i change } (declared ++ [name]) := by
  have names : ({ d with tags := d.tags.modify i change } : Dictionary).toVocabulary.tags =
      d.toVocabulary.tags := by
    refine List.ext_getElem? fun j => ?_
    simp only [getElem?_toVocabulary_tags, Array.getElem?_modify]
    split
    · simp [Option.map_map, Function.comp_def, keeps]
    · rfl
  have declared_before : lower name ∈ declared.map lower := by
    rw [← lower_mem_firstSpellings, ← h.tags]
    by_contra unknown
    rw [h.lookup_eq_none_iff.mpr unknown] at known
    cases known
  refine ⟨?_, by rw [names]; exact h.index⟩
  rw [names, h.tags, firstSpellings_concat, if_pos declared_before]

/-- A new tag gets the next position. -/
theorem Indexed.push (h : Indexed d declared) (new : d.index.lookup (lower t.name) = none) :
    Indexed (d.push t) (declared ++ [t.name]) := by
  have names : (d.push t).toVocabulary.tags = d.toVocabulary.tags ++ [t.name] := by
    simp [toVocabulary, Dictionary.push]
  have not_declared : lower t.name ∉ declared.map lower := by
    rw [← lower_mem_firstSpellings, ← h.tags]
    exact h.lookup_eq_none_iff.mp new
  constructor
  · rw [names, h.tags, firstSpellings_concat, if_neg not_declared]
  · rw [names, List.mapIdx_concat, ← h.index]
    simp [Dictionary.push, toVocabulary]

/-- The declaration of a tag. -/
theorem Indexed.declare (h : Indexed d declared) (t : TagDeclaration) :
    Indexed (d.declare t) (declared ++ [t.name]) := by
  rw [Dictionary.declare]
  split
  · rename_i known
    exact h.modify known fun _ => rfl
  · rename_i new
    exact h.push new

/-- A change of a tag's declaration that leaves its name. -/
theorem Indexed.modifyTag (h : Indexed d declared) (name : Text)
    (change : TagDeclaration → TagDeclaration) (keeps : ∀ t, (change t).name = t.name) :
    Indexed (d.modifyTag name change) (declared ++ [name]) := by
  rw [Dictionary.modifyTag]
  split
  · rename_i known
    exact h.modify known keeps
  · rename_i new
    have named : (change { name }).name = name := keeps { name }
    have pushed := h.push (t := change { name }) (by rwa [named])
    rwa [named] at pushed

/-- Declarations one after the other. -/
theorem Indexed.foldl {β : Type} {step : Dictionary → β → Dictionary} (nameOf : β → Text)
    (declares : ∀ d declared b, Indexed d declared → Indexed (step d b) (declared ++ [nameOf b]))
    (h : Indexed d declared) (bs : List β) : Indexed (bs.foldl step d) (declared ++ bs.map nameOf) := by
  induction bs generalizing d declared with
  | nil => simpa using h
  | cons b bs ih => simpa using ih (declares d declared b h)

/-- Value sets leave tags and index alone. -/
theorem Indexed.declareValueSets (h : Indexed d declared) (sets : List ValueSet) :
    Indexed (sets.foldl declareValueSet d) declared := by
  induction sets generalizing d with
  | nil => exact h
  | cons s sets ih =>
    refine ih ?_
    rw [declareValueSet]
    split
    · exact h
    · exact h.of_eq rfl rfl

/-- **What a change makes known** are the tags that it names. -/
theorem Indexed.apply (h : Indexed d declared) (change : Change) :
    Indexed (d.apply change) (declared ++ change.names) := by
  cases change with
  | merge data =>
    have tags := h.foldl TagDeclaration.name (fun _ _ t h => h.declare t) data.tags
    refine Indexed.declareValueSets ?_ data.valueSets
    exact tags.of_eq rfl rfl
  | markVoid names =>
    have marked := h.foldl id (fun _ _ name h => h.modifyTag name ({ · with isVoid := true })
      fun _ => rfl) names
    rwa [List.map_id] at marked
  | markEmbedded names =>
    have marked := h.foldl id
      (fun _ _ name h => h.modifyTag name ({ · with isEmbedded := true }) fun _ => rfl) names
    rwa [List.map_id] at marked
  | markReferences pairs =>
    exact h.foldl Prod.fst (fun _ _ pair h => h.modifyTag pair.1 (fun t =>
      { t with attributes := markAttribute pair.2 t.attributes }) fun _ => rfl) pairs

/-- After any run of changes the index has the tags that they name. -/
theorem indexed_ofChanges (changes : List Change) :
    Indexed (ofChanges changes) (changes.flatMap Change.names) := by
  induction changes using List.reverseRecOn with
  | nil => exact ⟨rfl, rfl⟩
  | append_singleton changes change ih =>
    have next := ih.apply change
    rw [ofChanges, List.foldl_append, List.flatMap_append]
    simpa [ofChanges] using next

/-- A tag that is looked up is the one among all tags whose name is the same up to case. -/
theorem Indexed.tag?_eq_find? (h : Indexed d declared) (name : Text) :
    d.tag? name = d.tags.toList.find? (·.name.equalsIgnoringCase name) := by
  rw [tag?, position?_eq_lookup]
  cases found : d.index.lookup (lower name) with
  | none =>
    refine (List.find?_eq_none.mpr fun t mem same => ?_).symm
    have unknown := h.lookup_eq_none_iff.mp found
    rw [← equalsIgnoringCase_iff.mp same] at unknown
    exact unknown (List.mem_map_of_mem (List.mem_map_of_mem mem))
  | some i =>
    obtain ⟨tag, there, same⟩ := h.lookup_eq_some_iff.mp found
    rw [getElem?_toVocabulary_tags, Option.map_eq_some_iff] at there
    obtain ⟨t, there, rfl⟩ := there
    obtain ⟨bound, here⟩ := Array.getElem?_eq_some_iff.mp there
    rw [Option.bind_some, there, eq_comm, List.find?_eq_some_iff_getElem]
    refine ⟨equalsIgnoringCase_iff.mpr same, i, bound, here, fun j before => ?_⟩
    rw [Bool.not_eq_true', ← Bool.not_eq_true, equalsIgnoringCase_iff]
    intro same'
    -- The index would have to answer the earlier position.
    have earlier : d.index.lookup (lower name) = some j :=
      h.lookup_eq_some_iff.mpr ⟨_, by simp [getElem?_toVocabulary_tags, Nat.lt_trans before bound], same'⟩
    rw [found] at earlier
    exact absurd (Option.some.inj earlier) (Nat.ne_of_gt before)

/-! ## Any dictionary -/

/-- **What holds of every dictionary** that declarations of tags of some names have made. -/
structure WellIndexed (d : Dictionary) (declared : List Text) : Prop where
  /-- The tags are the names that were declared, each at its first declaration. -/
  tags : d.toVocabulary.tags = firstSpellings declared
  /-- No two of them are equal up to case. -/
  distinct : d.toVocabulary.tags.Pairwise fun tag tag' => tag.equalsIgnoringCase tag' = false
  /-- The index has an entry for each tag, its name in lower case with its position, and no other. -/
  index : d.index = d.toVocabulary.tags.mapIdx fun i tag => (lower tag, i)
  /-- It maps the name of each tag to its position. -/
  position : ∀ key i, d.index.lookup key = some i ↔
    ∃ tag, d.toVocabulary.tags[i]? = some tag ∧ lower tag = key
  /-- A name without upper-case letters is looked up as any other name. -/
  lookup : ∀ name, d.position? name = d.index.lookup (lower name)
  /-- What is found is the tag whose name is the same up to case. -/
  found : ∀ name, d.tag? name = d.tags.toList.find? (·.name.equalsIgnoringCase name)
  /-- All answers are the same for all spellings. -/
  ignoresCase : d.toVocabulary.IgnoresCase

/-- **A dictionary is well indexed** after any changes. -/
theorem ofChanges_wellIndexed (changes : List Change) :
    WellIndexed (ofChanges changes) (changes.flatMap Change.names) := by
  have indexed := indexed_ofChanges changes
  exact {
    tags := indexed.tags
    distinct := (List.pairwise_map.mp indexed.distinct).imp fun other => by
      simpa [equalsIgnoringCase] using other
    index := indexed.index
    position := fun key i => indexed.lookup_eq_some_iff
    lookup := position?_eq_lookup _
    found := indexed.tag?_eq_find?
    ignoresCase := ignoresCase_toVocabulary _ }

end Dictionary

end MarkupAnalysis
