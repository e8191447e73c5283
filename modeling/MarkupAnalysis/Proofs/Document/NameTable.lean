import MarkupAnalysis.Proofs.Document.NamePlaces

/-! # The table of names

All names stand in one table, in the order in which they are written. There is text between any two of them,
so bisection finds the one that touches an offset, and with it the name on the other side of its element.

* **`Document.names_pairwise`** — the table is in order, with text between its entries.
* **`Document.nameAt_eq_some_iff`** — bisection finds the name at an offset.
* **`Document.MatchesAt`** — a name at an offset with the one it is paired with.
* **`Vocabulary.MatchesEqualLengths`** — matching names are equally long; by the default rule they are.
* **`parse_matchesNames`** — names are found in pairs, from either side. -/

namespace MarkupAnalysis

open Text Document

namespace Document

variable {v : Vocabulary} {t : Text} {entry : NameEntry} {offset : Nat}

/-! ## The table -/

/-- The names of all elements, in the order of the elements. -/
def namesByNode (d : Document) : List NameEntry := d.nodes.toList.zipIdx.flatMap fun (n, id) => namesOf id n

/-- The table has the names of all elements. -/
theorem names_perm (d : Document) : d.names.toList.Perm d.namesByNode := List.mergeSort_perm _ _

/-- What the table is made from has the names of all elements. -/
theorem mem_namesByNode_iff : entry ∈ (parse v t).namesByNode ↔ (parse v t).HasName entry := by
  constructor
  · intro mem
    obtain ⟨⟨n, id⟩, here, mem⟩ := List.mem_flatMap.mp mem
    have looked_up : (parse v t).nodes[id]? = some n := by
      simpa using List.mk_mem_zipIdx_iff_getElem?.mp here
    obtain rfl : (parse v t).node id = n := by rw [Document.node, looked_up]; rfl
    exact .of_mem (Array.getElem?_eq_some_iff.mp looked_up).1 mem
  · rintro ⟨element, mem⟩
    refine List.mem_flatMap.mpr ⟨((parse v t).node entry.node, entry.node), ?_, mem⟩
    rw [List.mk_mem_zipIdx_iff_getElem?, Array.getElem?_toList]
    simp [Document.node, element.2]

/-- The table has the names of all elements and no others. -/
theorem mem_names_iff : entry ∈ (parse v t).names.toList ↔ (parse v t).HasName entry :=
  (names_perm _).mem_iff.trans mem_namesByNode_iff

/-- Each name is in the table once. -/
theorem namesByNode_pairwise (d : Document) : d.namesByNode.Pairwise (· ≠ ·) := by
  refine List.pairwise_flatMap.mpr ⟨?_, ?_⟩
  · -- The names of one element are on different sides of it.
    rintro ⟨n, id⟩ -
    cases named : n.nameSpan <;> cases met : n.endNameSpan <;> simp [namesOf, named, met]
  · have places : (d.nodes.toList.zipIdx.map Prod.snd).Pairwise (· < ·) := by
      rw [List.zipIdx_map_snd]
      exact List.pairwise_lt_range' 1
    refine (List.pairwise_map.mp places).imp ?_
    rintro ⟨n, id⟩ ⟨n', id'⟩ earlier x mem y mem' rfl
    exact Nat.ne_of_lt earlier ((mem_namesOf_iff.mp mem).1.symm.trans (mem_namesOf_iff.mp mem').1)

/-- The table is ordered by where names start. -/
theorem names_sorted (d : Document) :
    d.names.toList.Pairwise fun x y => x.span.start ≤ y.span.start := by
  let le (x y : NameEntry) : Bool := x.span.start ≤ y.span.start
  have sorted : (d.namesByNode.mergeSort le).Pairwise fun x y => le x y = true :=
    List.pairwise_mergeSort
      (fun x y z first second => by simp only [le, decide_eq_true_eq] at *; omega)
      (fun x y => by simp only [le, Bool.or_eq_true, decide_eq_true_eq]; omega) _
  exact sorted.imp of_decide_eq_true

/-- **The table is in order**, with text between its entries. -/
theorem names_pairwise (v : Vocabulary) (t : Text) :
    (parse v t).names.toList.Pairwise fun x y => x.span.stop < y.span.start := by
  have apart : (parse v t).names.toList.Pairwise (· ≠ ·) :=
    (names_perm _).symm.pairwise (namesByNode_pairwise _) Ne.symm
  refine (apart.and (names_sorted _)).imp_of_mem ?_
  rintro x y x_mem y_mem ⟨differ, sorted⟩
  have named := mem_names_iff.mp y_mem
  have := named.inside.2.1
  have := (mem_names_iff.mp x_mem).apart named differ
  omega

/-! ## The name at an offset -/

/-- **Bisection finds the name at an offset.** -/
theorem nameAt_eq_some_iff : (parse v t).nameAt offset = some entry ↔
    (parse v t).HasName entry ∧ entry.span.touches offset = true := by
  have ordered : (parse v t).names.toList.Pairwise fun x y =>
      decide (y.span.stop < offset) = true → decide (x.span.stop < offset) = true := by
    refine (names_pairwise v t).imp_of_mem ?_
    intro x y _ mem apart later_before
    have forwards := (mem_names_iff.mp mem).inside.2.1
    rw [decide_eq_true_eq] at later_before ⊢
    omega
  obtain ⟨first, later, split, count, before, behind⟩ := exists_split_bisect ordered
  have next : (parse v t).names[first.length]? = later.head? := by
    rw [← Array.getElem?_toList, split, List.getElem?_append_right (Nat.le_refl _), Nat.sub_self,
      List.head?_eq_getElem?]
  rw [nameAt, count, next, Option.filter_eq_some_iff]
  refine and_congr_left fun touches => ?_
  rw [← mem_names_iff, split, List.mem_append]
  constructor
  · exact fun found => .inr (List.mem_of_mem_head? found)
  · intro mem
    simp only [Span.touches, Bool.and_eq_true, decide_eq_true_eq] at touches
    have in_later : entry ∈ later := by
      refine mem.resolve_left fun earlier => ?_
      have := of_decide_eq_true (before entry earlier)
      omega
    cases later with
    | nil => cases in_later
    | cons border rest =>
      rcases List.mem_cons.mp in_later with rfl | after
      · rfl
      · -- The border would end before the name, and so before the offset.
        have order := names_pairwise v t
        rw [split] at order
        have apart := List.rel_of_pairwise_cons (List.pairwise_append.mp order).2.1 after
        have := of_decide_eq_false (behind border List.mem_cons_self)
        omega

/-! ## Pairs of names -/

/-- **A name at an offset** with the other name of its element. -/
structure MatchesAt (d : Document) (offset : Nat) (m : MatchingTag) : Prop where
  /-- The element is in the tree. -/
  known : m.node < d.nodes.size
  /-- The names are those in its start tag and in its end tag, either way round. -/
  names : (d.node m.node).nameSpan = some m.current ∧
      (d.node m.node).endNameSpan = some m.counterpart ∨
    (d.node m.node).endNameSpan = some m.current ∧ (d.node m.node).nameSpan = some m.counterpart
  /-- The first of them is at the offset. -/
  touches : m.current.touches offset = true

/-- The same pair from the other side. -/
def MatchingTag.swap (m : MatchingTag) : MatchingTag := ⟨m.node, m.counterpart, m.current⟩

/-- A pair is a pair from either side. -/
theorem MatchesAt.swap {d : Document} {m : MatchingTag} {offset' : Nat} (h : d.MatchesAt offset m)
    (touches : m.counterpart.touches offset' = true) : d.MatchesAt offset' m.swap :=
  ⟨h.known, h.names.symm.imp And.symm And.symm, touches⟩

/-- The name on the other side of the element. -/
def counterpartOf (d : Document) (entry : NameEntry) : Option Span :=
  if entry.isEnd then (d.node entry.node).nameSpan else (d.node entry.node).endNameSpan

/-- The query takes the name at the offset and the one on the other side. -/
theorem matchingTag_eq (d : Document) (offset : Nat) : d.matchingTag offset =
    (d.nameAt offset).bind fun entry =>
      (d.counterpartOf entry).map fun counterpart => ⟨entry.node, entry.span, counterpart⟩ := by
  unfold matchingTag counterpartOf
  congr 1
  funext entry
  cases entry.isEnd <;> exact (Option.map_eq_bind).symm

/-- **The query finds the pairs.** -/
theorem matchingTag_eq_some_iff {m : MatchingTag} :
    (parse v t).matchingTag offset = some m ↔ (parse v t).MatchesAt offset m := by
  simp only [matchingTag_eq, Option.bind_eq_some_iff, Option.map_eq_some_iff, nameAt_eq_some_iff]
  constructor
  · rintro ⟨entry, ⟨named, touches⟩, counterpart, other, rfl⟩
    refine ⟨named.1.2, ?_, touches⟩
    rcases (mem_namesOf_iff.mp named.2).2 with ⟨at_start, has⟩ | ⟨at_end, has⟩
    · rw [counterpartOf, at_start] at other
      exact .inl ⟨has, other⟩
    · rw [counterpartOf, at_end] at other
      exact .inr ⟨has, other⟩
  · rintro ⟨known, ⟨named, met⟩ | ⟨met, named⟩, touches⟩
    · have mem : ⟨m.current, m.node, false⟩ ∈ namesOf m.node ((parse v t).node m.node) :=
        mem_namesOf_iff.mpr ⟨rfl, .inl ⟨rfl, named⟩⟩
      exact ⟨_, ⟨.of_mem known mem, touches⟩, m.counterpart, met, rfl⟩
    · have mem : ⟨m.current, m.node, true⟩ ∈ namesOf m.node ((parse v t).node m.node) :=
        mem_namesOf_iff.mpr ⟨rfl, .inr ⟨rfl, met⟩⟩
      exact ⟨_, ⟨.of_mem known mem, touches⟩, m.counterpart, named, rfl⟩

/-- The two names of a pair match. -/
theorem MatchesAt.exists_names {m : MatchingTag} (h : (parse v t).MatchesAt offset m) : ∃ name endName,
    ((parse v t).node m.node).nameSpan.bind t.slice? = some name ∧
    ((parse v t).node m.node).endNameSpan.bind t.slice? = some endName ∧
    v.tagNamesMatch name endName = true := by
  obtain ⟨endSpan, met⟩ : ∃ span, ((parse v t).node m.node).endNameSpan = some span :=
    h.names.elim (fun names => ⟨_, names.2⟩) fun names => ⟨_, names.1⟩
  have mem : ⟨endSpan, m.node, true⟩ ∈ namesOf m.node ((parse v t).node m.node) :=
    mem_namesOf_iff.mpr ⟨rfl, .inr ⟨rfl, met⟩⟩
  have element := (HasName.of_mem h.known mem).1
  have tags := tagsStandIn_parse element.2 element.1
  obtain ⟨e, has_endTag, rfl⟩ := Option.map_eq_some_iff.mp met
  obtain ⟨tag, endName, tagged, slice, matching⟩ := (tags.endTag e has_endTag).name
  obtain ⟨name, named, rfl⟩ := Option.map_eq_some_iff.mp tagged
  refine ⟨name.text, endName, ?_, ?_, matching⟩
  · rw [Node.nameSpan, named]
    exact (tags.name name named).1
  · rw [met]
    exact slice

end Document

/-! ## Lengths of names -/

/-- A letter takes as many bytes in lower case. -/
theorem Text.utf8Size_toLower (c : Char) : c.toLower.utf8Size = c.utf8Size := by
  unfold Char.toLower
  split
  · rename_i upper
    have letter : c.val.toNat ≤ 90 := UInt32.le_iff_toNat_le.mp upper.2
    have lowered : (c.val + ('a'.val - 'A'.val)).toNat ≤ 127 := by
      have distance : ('a'.val - 'A'.val).toNat = 32 := by decide
      rw [UInt32.toNat_add]
      omega
    have one {d : Char} (small : d.val.toNat ≤ 127) : d.utf8Size = 1 :=
      if_pos (UInt32.le_iff_toNat_le.mpr small)
    rw [one lowered, one (by omega)]
  · rfl

/-- A text takes as many bytes in lower case. -/
theorem Text.byteLength_lower (t : Text) : (lower t).byteLength = t.byteLength := by
  induction t with
  | nil => rfl
  | cons c t ih =>
    rw [byteLength_cons, ← ih, ← utf8Size_toLower c]
    rfl

/-- Names match only if they are equally long. -/
def Vocabulary.MatchesEqualLengths (v : Vocabulary) : Prop :=
  ∀ name endName, v.tagNamesMatch name endName = true → name.byteLength = endName.byteLength

/-- By the default rule names match only if they are equally long. -/
theorem Vocabulary.matchesEqualLengths_withDefaultRules (v : Vocabulary) :
    v.withDefaultRules.MatchesEqualLengths := by
  intro name endName same
  rw [← byteLength_lower name, ← byteLength_lower endName]
  exact congrArg byteLength (beq_iff_eq.mp same)

/-- Names that are spelled alike are equally long. -/
theorem Vocabulary.matchesEqualLengths_withExactCase (v : Vocabulary) :
    v.withExactCase.MatchesEqualLengths :=
  fun _ _ same => congrArg byteLength (beq_iff_eq.mp same)

namespace Document

variable {v : Vocabulary} {t : Text} {offset : Nat} {m : MatchingTag}

/-- The names of a pair are equally long if only such names match. -/
theorem MatchesAt.exists_length (h : (parse v t).MatchesAt offset m) (equal : v.MatchesEqualLengths) :
    ∃ length, m.current.stop = m.current.start + length ∧
      m.counterpart.stop = m.counterpart.start + length := by
  obtain ⟨name, endName, slice, end_slice, matching⟩ := h.exists_names
  have lengths := equal name endName matching
  rcases h.names with ⟨named, met⟩ | ⟨met, named⟩ <;> rw [named] at slice <;> rw [met] at end_slice
  · exact ⟨name.byteLength, stop_of_slice? slice, lengths ▸ stop_of_slice? end_slice⟩
  · exact ⟨name.byteLength, lengths ▸ stop_of_slice? end_slice, stop_of_slice? slice⟩

/-- **The offset on the other side** is in the other name, and the way back leads to the same offset. -/
theorem counterpartOffset_symm {offset' : Nat} (equal : v.MatchesEqualLengths)
    (counterpart : (parse v t).counterpartOffset offset = some offset') :
    (∃ m, (parse v t).matchingTag offset = some m ∧ m.counterpart.touches offset' = true) ∧
      (parse v t).counterpartOffset offset' = some offset := by
  obtain ⟨m, found, rfl⟩ := Option.map_eq_some_iff.mp counterpart
  have pair := matchingTag_eq_some_iff.mp found
  obtain ⟨length, current, other⟩ := pair.exists_length equal
  have touches := pair.touches
  simp only [Span.touches, Bool.and_eq_true, decide_eq_true_eq] at touches
  have other_touches :
      m.counterpart.touches (m.counterpart.start + (offset - m.current.start)) = true := by
    simp only [Span.touches, Bool.and_eq_true, decide_eq_true_eq]
    omega
  refine ⟨⟨m, found, other_touches⟩, ?_⟩
  have back := matchingTag_eq_some_iff.mpr (pair.swap other_touches)
  refine Option.map_eq_some_iff.mpr ⟨m.swap, back, ?_⟩
  show m.current.start + (m.counterpart.start + (offset - m.current.start) - m.counterpart.start) = offset
  omega

end Document

/-! ## Both ways -/

/-- **Names are found in pairs, from either side.** An offset has a pair exactly where it touches a name of
an element with both names. The element and the name are the only ones there, the two names match, and each
is found from the other one. If only equally long names match, as by the default rule, an offset in one name
belongs to an offset in the other one and back. -/
theorem parse_matchesNames (v : Vocabulary) (t : Text) (offset : Nat) :
    ((∃ m, (parse v t).matchingTag offset = some m) ↔
      ∃ id < (parse v t).nodes.size, ∃ span endSpan, ((parse v t).node id).nameSpan = some span ∧
        ((parse v t).node id).endNameSpan = some endSpan ∧
        (span.touches offset = true ∨ endSpan.touches offset = true)) ∧
    (∀ m, (parse v t).matchingTag offset = some m ↔ (parse v t).MatchesAt offset m) ∧
    (∀ m m', (parse v t).MatchesAt offset m → (parse v t).MatchesAt offset m' → m = m') ∧
    (∀ m, (parse v t).matchingTag offset = some m → ∀ offset', m.counterpart.touches offset' = true →
      (parse v t).matchingTag offset' = some ⟨m.node, m.counterpart, m.current⟩) ∧
    (∀ m, (parse v t).matchingTag offset = some m → ∃ name endName,
      ((parse v t).node m.node).nameSpan.bind t.slice? = some name ∧
      ((parse v t).node m.node).endNameSpan.bind t.slice? = some endName ∧
      v.tagNamesMatch name endName = true) ∧
    (v.MatchesEqualLengths → ∀ offset', (parse v t).counterpartOffset offset = some offset' →
      (∃ m, (parse v t).matchingTag offset = some m ∧ m.counterpart.touches offset' = true) ∧
        (parse v t).counterpartOffset offset' = some offset) ∧
    v.withDefaultRules.MatchesEqualLengths := by
  refine ⟨⟨?found, ?exists_name⟩, fun m => matchingTag_eq_some_iff, ?unique, ?swapped, ?matching,
    fun equal offset' => counterpartOffset_symm equal, v.matchesEqualLengths_withDefaultRules⟩
  case found =>
    rintro ⟨m, found⟩
    obtain ⟨known, ⟨named, met⟩ | ⟨met, named⟩, touches⟩ := matchingTag_eq_some_iff.mp found
    · exact ⟨m.node, known, m.current, m.counterpart, named, met, .inl touches⟩
    · exact ⟨m.node, known, m.counterpart, m.current, named, met, .inr touches⟩
  case exists_name =>
    rintro ⟨id, known, span, endSpan, named, met, touches | touches⟩
    · exact ⟨⟨id, span, endSpan⟩, matchingTag_eq_some_iff.mpr ⟨known, .inl ⟨named, met⟩, touches⟩⟩
    · exact ⟨⟨id, endSpan, span⟩, matchingTag_eq_some_iff.mpr ⟨known, .inr ⟨met, named⟩, touches⟩⟩
  case unique =>
    intro m m' pair pair'
    exact Option.some.inj
      ((matchingTag_eq_some_iff.mpr pair).symm.trans (matchingTag_eq_some_iff.mpr pair'))
  case swapped =>
    intro m found offset' touches
    exact matchingTag_eq_some_iff.mpr ((matchingTag_eq_some_iff.mp found).swap touches)
  case matching =>
    intro m found
    exact (matchingTag_eq_some_iff.mp found).exists_names

end MarkupAnalysis
