import MarkupAnalysis.Proofs.Vocabulary.Declarations

/-! # Merging data sets

Data sets are merged in order into the empty dictionary. For each question about a tag, an attribute or a
value set only the declarations of that name matter, in the order in which they come in all data sets
together: marks add up, and of everything else the first declaration that has it counts.

* **`Dictionary.declarationsOf`**, **`Dictionary.declaredAttribute?`** — the declarations of a name.
* **`Dictionary.joined`** — what declarations of one tag say together, and what is found in it.
* **`Dictionary.Declares`** — what has been merged into a dictionary, kept by each data set.
* **`Dictionary.FirstWins`**, **`Dictionary.ofDataSets_firstWins`** — the lookups after any data sets.
  A data set that is merged once more changes none of them. -/

namespace MarkupAnalysis.Dictionary

open Text

variable {d : Dictionary} {sets : List DataSet} {data : DataSet} {ts : List TagDeclaration}
  {known : Option TagDeclaration}

/-- The dictionary that data sets make of the empty one, merged in order. -/
def ofDataSets (sets : List DataSet) : Dictionary := sets.foldl merge empty

/-! ## The declarations of a name -/

/-- The declarations of a tag in all data sets, in any spelling. -/
def declarationsOf (sets : List DataSet) (tag : Text) : List TagDeclaration :=
  (sets.flatMap (·.tags)).filter (·.name.equalsIgnoringCase tag)

/-- The first attribute of a name in the declarations of a tag, else the first global one. -/
def declaredAttribute? (sets : List DataSet) (tag name : Text) : Option AttributeDeclaration :=
  (findAttribute? ((declarationsOf sets tag).flatMap (·.attributes)) name).or
    (findAttribute? (sets.flatMap (·.globalAttributes)) name)

/-- The first value set of exactly that name. -/
def declaredValueSet? (sets : List DataSet) (name : Text) : Option ValueSet :=
  (sets.flatMap (·.valueSets)).find? (·.name == name)

/-- The declarations of a tag come data set by data set. -/
theorem declarationsOf_append (sets sets' : List DataSet) (tag : Text) :
    declarationsOf (sets ++ sets') tag = declarationsOf sets tag ++ declarationsOf sets' tag := by
  simp [declarationsOf]

/-- The declarations of a tag in one data set are those with its name. -/
theorem declarationsOf_singleton (data : DataSet) (tag : Text) :
    declarationsOf [data] tag = data.tags.filter (·.name.equalsIgnoringCase tag) := by
  simp [declarationsOf]

/-! ## What declarations of one tag say together -/

/-- What is known of a tag after one more declaration. -/
def join (known : Option TagDeclaration) (t : TagDeclaration) : Option TagDeclaration :=
  some (known.elim t (mergeTag · t))

/-- What is known of a tag after some declarations. -/
def joined (known : Option TagDeclaration) (ts : List TagDeclaration) : Option TagDeclaration :=
  ts.foldl join known

@[simp] theorem joined_nil (known : Option TagDeclaration) : joined known [] = known := rfl

@[simp] theorem joined_cons (known : Option TagDeclaration) (t : TagDeclaration)
    (ts : List TagDeclaration) : joined known (t :: ts) = joined (join known t) ts := rfl

theorem joined_append (known : Option TagDeclaration) (ts ts' : List TagDeclaration) :
    joined known (ts ++ ts') = joined (joined known ts) ts' :=
  List.foldl_append

/-- A tag is known as soon as it is declared. -/
theorem isSome_joined (known : Option TagDeclaration) (ts : List TagDeclaration) :
    (joined known ts).isSome = (known.isSome || !ts.isEmpty) := by
  induction ts generalizing known with
  | nil => simp
  | cons t ts ih => simp [ih, join]

/-- A mark that a merge keeps of both sides is on the tag as soon as one declaration has it. -/
theorem any_joined {mark : TagDeclaration → Bool}
    (adds : ∀ known t, mark (mergeTag known t) = (mark known || mark t)) (known : Option TagDeclaration)
    (ts : List TagDeclaration) : (joined known ts).any mark = (known.any mark || ts.any mark) := by
  induction ts generalizing known with
  | nil => simp
  | cons t ts ih => cases known <;> simp [ih, join, adds, Bool.or_assoc]

/-- The mark of void tags adds up. -/
theorem isVoid_mergeTag (known t : TagDeclaration) :
    (mergeTag known t).isVoid = (known.isVoid || t.isVoid) := rfl

/-- The mark of opaque content adds up. -/
theorem isEmbedded_mergeTag (known t : TagDeclaration) :
    (mergeTag known t).isEmbedded = (known.isEmbedded || t.isEmbedded) := rfl

/-- The content model of a tag is that of the first declaration with one. -/
theorem children_joined (known : Option TagDeclaration) (ts : List TagDeclaration) :
    (joined known ts).bind (·.children) = (known.bind (·.children)).or (ts.findSome? (·.children)) := by
  induction ts generalizing known with
  | nil => simp
  | cons t ts ih =>
    have later : (t :: ts).findSome? (·.children) = t.children.or (ts.findSome? (·.children)) := by
      cases found : t.children <;> simp [found]
    rw [joined_cons, ih, later, ← Option.or_assoc]
    cases known <;> rfl

/-- An attribute is the first one of its name. -/
theorem findAttribute?_joined (known : Option TagDeclaration) (ts : List TagDeclaration) (name : Text) :
    (joined known ts).bind (findAttribute? ·.attributes name) =
      (known.bind (findAttribute? ·.attributes name)).or
        (findAttribute? (ts.flatMap (·.attributes)) name) := by
  induction ts generalizing known with
  | nil => simp [findAttribute?]
  | cons t ts ih =>
    rw [joined_cons, ih, List.flatMap_cons, findAttribute?_append, ← Option.or_assoc]
    congr 1
    cases known with
    | none => rfl
    | some first => exact findAttribute?_mergeAttributes first.attributes t.attributes name

/-- **A declaration that has been made** says nothing new when it is made again. -/
theorem join_eq_self {t : TagDeclaration} (mem : t ∈ ts) : join (joined known ts) t = joined known ts := by
  have is_known := isSome_joined known ts
  rw [List.isEmpty_eq_false_iff.mpr (List.ne_nil_of_mem mem), Bool.not_false, Bool.or_true] at is_known
  obtain ⟨whole, joined_eq⟩ := Option.isSome_iff_exists.mp is_known
  -- What the declaration sets has been set when it was joined before.
  have marked {mark : TagDeclaration → Bool}
      (adds : ∀ known t, mark (mergeTag known t) = (mark known || mark t)) (here : mark t = true) :
      mark whole = true := by
    have all := any_joined adds known ts
    rw [List.any_eq_true.mpr ⟨t, mem, here⟩, Bool.or_true, joined_eq] at all
    exact all
  have void := marked isVoid_mergeTag
  have embedded := marked isEmbedded_mergeTag
  have children : t.children ≠ none → whole.children ≠ none := by
    intro listed none
    have all := children_joined known ts
    rw [joined_eq, Option.bind_some, none, eq_comm, Option.or_eq_none_iff] at all
    exact listed (List.findSome?_eq_none_iff.mp all.2 t mem)
  have attributes : mergeAttributes whole.attributes t.attributes = whole.attributes := by
    refine mergeAttributes_eq_self fun a there none => ?_
    have all := findAttribute?_joined known ts a.name
    rw [joined_eq, Option.bind_some, none, eq_comm, Option.or_eq_none_iff] at all
    have listed : a ∈ ts.flatMap (·.attributes) := List.mem_flatMap.mpr ⟨t, mem, there⟩
    exact List.find?_eq_none.mp all.2 a listed (equalsIgnoringCase_self a.name)
  rw [joined_eq]
  show some (mergeTag whole t) = some whole
  rw [mergeTag, attributes]
  cases whole with
  | mk name isVoid isEmbedded attributes' children' =>
    congr 2
    · cases isVoid <;> simp_all
    · cases isEmbedded <;> simp_all
    · cases children' <;> simp_all

/-- Declarations that have been made say nothing new when they are made again. -/
theorem joined_eq_self {again : List TagDeclaration} (subset : again ⊆ ts) :
    joined (joined known ts) again = joined known ts := by
  induction again with
  | nil => rfl
  | cons t again ih =>
    rw [joined_cons, join_eq_self (subset List.mem_cons_self)]
    exact ih fun t' mem => subset (List.mem_cons_of_mem t mem)

/-! ## Data set by data set -/

/-- Tags that are declared one after the other. -/
theorem Indexed.tag?_declareAll {declared : List Text} (h : Indexed d declared) (ts : List TagDeclaration)
    (tag : Text) :
    (ts.foldl Dictionary.declare d).tag? tag =
      joined (d.tag? tag) (ts.filter (·.name.equalsIgnoringCase tag)) := by
  induction ts generalizing d declared with
  | nil => rfl
  | cons t ts ih =>
    rw [List.foldl_cons, ih (h.declare t), h.tag?_declare t tag]
    rw [List.filter_cons]
    split <;> rfl

/-- Tags leave the rest alone. -/
theorem declareAll_frame (d : Dictionary) (ts : List TagDeclaration) :
    (ts.foldl declare d).globalAttributes = d.globalAttributes ∧
      (ts.foldl declare d).valueSets = d.valueSets := by
  induction ts generalizing d with
  | nil => exact ⟨rfl, rfl⟩
  | cons t ts ih =>
    have one : (d.declare t).globalAttributes = d.globalAttributes ∧
        (d.declare t).valueSets = d.valueSets := by
      rw [declare]
      split <;> exact ⟨rfl, rfl⟩
    obtain ⟨globals, valueSets⟩ := ih (d.declare t)
    exact ⟨globals.trans one.1, valueSets.trans one.2⟩

/-- Value sets leave the rest alone. -/
theorem declareValueSets_frame (d : Dictionary) (ss : List ValueSet) :
    (ss.foldl declareValueSet d).tags = d.tags ∧ (ss.foldl declareValueSet d).index = d.index ∧
      (ss.foldl declareValueSet d).globalAttributes = d.globalAttributes := by
  induction ss generalizing d with
  | nil => exact ⟨rfl, rfl, rfl⟩
  | cons s ss ih =>
    have one : (d.declareValueSet s).tags = d.tags ∧ (d.declareValueSet s).index = d.index ∧
        (d.declareValueSet s).globalAttributes = d.globalAttributes := by
      rw [declareValueSet]
      split <;> exact ⟨rfl, rfl, rfl⟩
    obtain ⟨tags, index, globals⟩ := ih (d.declareValueSet s)
    exact ⟨tags.trans one.1, index.trans one.2.1, globals.trans one.2.2⟩

/-- A value set is added where none of its name is known. -/
theorem lookup_declareValueSet (d : Dictionary) (s : ValueSet) (name : Text) :
    (d.declareValueSet s).valueSets.lookup name =
      (d.valueSets.lookup name).or (if s.name == name then some s.values else none) := by
  rw [declareValueSet]
  by_cases same : s.name = name
  · subst same
    cases found : d.valueSets.lookup s.name with
    | some values => simp [found]
    | none => simp [List.lookup_append, found]
  · have apart : (name == s.name) = false := beq_eq_false_iff_ne.mpr (Ne.symm same)
    split
    · simp [same]
    · simp [List.lookup_append, List.lookup_cons, apart, same]

/-- Value sets that are declared one after the other: the first of each name counts. -/
theorem lookup_declareValueSets (d : Dictionary) (ss : List ValueSet) (name : Text) :
    (ss.foldl declareValueSet d).valueSets.lookup name =
      (d.valueSets.lookup name).or ((ss.find? (·.name == name)).map (·.values)) := by
  induction ss generalizing d with
  | nil => simp
  | cons s ss ih =>
    rw [List.foldl_cons, ih, lookup_declareValueSet, Option.or_assoc, List.find?_cons]
    cases s.name == name <;> rfl

/-- **What has been merged into a dictionary.** -/
structure Declares (d : Dictionary) (sets : List DataSet) : Prop where
  /-- The index knows the names of all declared tags. -/
  indexed : Indexed d ((sets.flatMap (·.tags)).map (·.name))
  /-- A tag is what its declarations say together. -/
  tag? : ∀ tag, d.tag? tag = joined none (declarationsOf sets tag)
  /-- The global attributes are those of all data sets, the first of each name. -/
  globalAttributes : d.globalAttributes = mergeAttributes [] (sets.flatMap (·.globalAttributes))
  /-- A value set is the first of its name. -/
  valueSet? : ∀ name, d.valueSets.lookup name = (declaredValueSet? sets name).map (·.values)

/-- **One more data set.** -/
theorem Declares.merge (h : Declares d sets) (data : DataSet) :
    Declares (d.merge data) (sets ++ [data]) := by
  -- The dictionary after the tags, and after the global attributes.
  let tagged := data.tags.foldl declare d
  let typed : Dictionary :=
    { tagged with globalAttributes := mergeAttributes tagged.globalAttributes data.globalAttributes }
  obtain ⟨same_globals, same_sets⟩ := declareAll_frame d data.tags
  obtain ⟨same_tags, same_index, same_typed⟩ := declareValueSets_frame typed data.valueSets
  have merged : d.merge data = data.valueSets.foldl declareValueSet typed := rfl
  constructor
  · have indexed := h.indexed.apply (.merge data)
    rw [List.flatMap_append, List.map_append]
    simpa [apply, Change.names] using indexed
  · intro tag
    have found : (d.merge data).tag? tag = tagged.tag? tag := by
      rw [merged, tag?_eq_bind, tag?_eq_bind, same_tags, same_index]
    rw [found, h.indexed.tag?_declareAll, h.tag?, declarationsOf_append, joined_append,
      declarationsOf_singleton]
  · rw [merged, same_typed]
    show mergeAttributes tagged.globalAttributes data.globalAttributes = _
    rw [show tagged.globalAttributes = d.globalAttributes from same_globals, h.globalAttributes,
      List.flatMap_append, mergeAttributes_append, List.flatMap_singleton]
  · intro name
    rw [merged, lookup_declareValueSets]
    show (tagged.valueSets.lookup name).or _ = _
    rw [show tagged.valueSets = d.valueSets from same_sets, h.valueSet?, declaredValueSet?,
      declaredValueSet?, List.flatMap_append, List.find?_append, List.flatMap_singleton]
    cases (sets.flatMap (·.valueSets)).find? (·.name == name) <;> rfl

/-- **What any data sets make of the empty dictionary.** -/
theorem declares_ofDataSets (sets : List DataSet) : Declares (ofDataSets sets) sets := by
  induction sets using List.reverseRecOn with
  | nil => exact ⟨⟨rfl, rfl⟩, fun _ => rfl, rfl, fun _ => rfl⟩
  | append_singleton sets data ih =>
    rw [ofDataSets, List.foldl_concat]
    exact ih.merge data

/-! ## The same data set again -/

/-- **A data set that has been merged** changes no lookup when it is merged again. -/
theorem Declares.merge_again (h : Declares d sets) (mem : data ∈ sets) :
    (d.merge data).toVocabulary = d.toVocabulary := by
  have after := h.merge data
  have part {β : Type} (f : DataSet → List β) : f data ⊆ sets.flatMap f :=
    fun b there => List.mem_flatMap.mpr ⟨data, mem, there⟩
  refine toVocabulary_congr ?_ (fun tag => ?_) ?_ fun name => ?_
  · rw [after.indexed.tags, h.indexed.tags, List.flatMap_append, List.flatMap_singleton, List.map_append]
    refine firstSpellings_append_of_known fun name there => ?_
    obtain ⟨t, declared, rfl⟩ := List.mem_map.mp there
    exact List.mem_map_of_mem (List.mem_map_of_mem (part (·.tags) declared))
  · rw [after.tag?, h.tag?, declarationsOf_append, joined_append, declarationsOf_singleton]
    refine joined_eq_self fun t there => ?_
    obtain ⟨declared, same⟩ := List.mem_filter.mp there
    exact List.mem_filter.mpr ⟨part (·.tags) declared, same⟩
  · rw [after.globalAttributes, List.flatMap_append, List.flatMap_singleton, mergeAttributes_append,
      ← h.globalAttributes]
    refine mergeAttributes_eq_self fun a there missed => ?_
    rw [h.globalAttributes, findAttribute?_mergeAttributes, Option.or_eq_none_iff] at missed
    exact List.find?_eq_none.mp missed.2 a (part (·.globalAttributes) there)
      (equalsIgnoringCase_self a.name)
  · rw [after.valueSet?, h.valueSet?, declaredValueSet?, declaredValueSet?, List.flatMap_append,
      List.flatMap_singleton, List.find?_append]
    cases found : (sets.flatMap (·.valueSets)).find? (·.name == name) with
    | some s => rfl
    | none =>
      have missed : data.valueSets.find? (·.name == name) = none :=
        List.find?_eq_none.mpr fun s there => List.find?_eq_none.mp found s (part (·.valueSets) there)
      rw [missed]
      rfl

/-! ## The lookups -/

/-- **The first declaration wins**: the answers of a vocabulary in terms of the declarations in some data
sets, taken in order over all of them. -/
structure FirstWins (v : Vocabulary) (sets : List DataSet) : Prop where
  /-- The tags are the declared names, each in its first spelling. -/
  tags : v.tags = firstSpellings ((sets.flatMap (·.tags)).map (·.name))
  /-- A tag is known if it is declared. -/
  isKnownTag : ∀ tag, v.isKnownTag tag = true ↔ declarationsOf sets tag ≠ []
  /-- It is void if some declaration says so. -/
  isVoid : ∀ tag, v.isVoid tag = true ↔ ∃ t ∈ declarationsOf sets tag, t.isVoid = true
  /-- Its content is opaque if some declaration says so. -/
  isEmbeddedContent : ∀ tag,
    v.isEmbeddedContent tag = true ↔ ∃ t ∈ declarationsOf sets tag, t.isEmbedded = true
  /-- The first declaration with a list of children decides about them; without one all are allowed. -/
  allowsChild : ∀ parent child, v.allowsChild parent child =
    match (declarationsOf sets parent).findSome? (·.children) with
    | some children => children.any (·.equalsIgnoringCase child)
    | none => true
  /-- The values are those listed with the attribute, else those of the value set that it names. -/
  valuesFor : ∀ tag name, v.valuesFor tag name =
    match declaredAttribute? sets tag name with
    | none => []
    | some a =>
      if a.values = [] then
        ((a.valueSet.bind (declaredValueSet? sets)).map (·.values)).getD []
      else a.values

/-- The attribute that is looked up is the first declared one. -/
theorem Declares.attribute? (h : Declares d sets) (tag name : Text) :
    d.attribute? tag name = declaredAttribute? sets tag name := by
  rw [Dictionary.attribute?, h.tag?, findAttribute?_joined, h.globalAttributes,
    findAttribute?_mergeAttributes]
  rfl

/-- **The lookups of a dictionary** into which data sets have been merged. -/
theorem Declares.firstWins (h : Declares d sets) : FirstWins d.toVocabulary sets where
  tags := h.indexed.tags
  isKnownTag tag := by
    show (d.tag? tag).isSome = true ↔ _
    rw [h.tag?, isSome_joined]
    simp
  isVoid tag := by
    show (d.tag? tag).any (·.isVoid) = true ↔ _
    rw [h.tag?, any_joined isVoid_mergeTag]
    simp
  isEmbeddedContent tag := by
    show (d.tag? tag).any (·.isEmbedded) = true ↔ _
    rw [h.tag?, any_joined isEmbedded_mergeTag]
    simp
  allowsChild parent child := by
    show d.allowsChild parent child = _
    rw [Dictionary.allowsChild, h.tag?, children_joined]
    rfl
  valuesFor tag name := by
    show d.valuesFor tag name = _
    rw [Dictionary.valuesFor, h.attribute?]
    cases declaredAttribute? sets tag name with
    | none => rfl
    | some a =>
      have found : (a.valueSet.bind fun name => d.valueSets.lookup name) =
          (a.valueSet.bind (declaredValueSet? sets)).map (·.values) := by
        cases a.valueSet with
        | none => rfl
        | some set => exact h.valueSet? set
      simp [found]

/-- **Data sets that are merged in order** into an empty dictionary: in all lookups the first declaration
wins, and to merge one of them again changes nothing. -/
theorem ofDataSets_firstWins (sets : List DataSet) :
    FirstWins (ofDataSets sets).toVocabulary sets ∧
      ∀ data ∈ sets, ((ofDataSets sets).merge data).toVocabulary = (ofDataSets sets).toVocabulary :=
  ⟨(declares_ofDataSets sets).firstWins, fun _ mem => (declares_ofDataSets sets).merge_again mem⟩

end MarkupAnalysis.Dictionary
