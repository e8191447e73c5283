import MarkupAnalysis.Proofs.Link.Joining

/-! # Bases with a query

What a base has behind its path, a query or a fragment, says nothing about where references lead: they are
resolved against the path. The path is looked for first, though, and it is there only where a slash is. What
follows an authority without a path is taken for a part of the origin.

* **`Uri.join_append_tail`** — behind a path the query and the fragment are left out.
* **`Uri.exists_join_bare`** — behind an authority they are kept.
* **`Uri.Parts`** — the parts of a base.
* **`Uri.join_whole_iff`** — when a reference leads to the same place with them and without. -/

namespace MarkupAnalysis.Uri

open Text

variable {base origin path tail reference scheme : Text}

/-! ## Where a path starts -/

/-- Where a slash follows the first `://`, a base has a path. -/
theorem exists_split?_of_absent (absent : ¬ "://".toList <:+: scheme) {rest : Text} (slash : '/' ∈ rest) :
    ∃ origin path, split? (scheme ++ ("://".toList ++ rest)) = some (origin, path) ∧ path ≠ [] := by
  have cut : cut? "://".toList (scheme ++ ("://".toList ++ rest)) = some (scheme, rest) :=
    cut?_schemeEnd_iff.mpr ⟨rfl, absent⟩
  refine ⟨_, rest.dropWhile (· ≠ '/'), by rw [split?, cut]; rfl, fun none_left => ?_⟩
  simpa using List.dropWhile_eq_nil_iff.mp none_left '/' slash

/-- A base in which a slash follows any `://` has a path. -/
theorem exists_split?_of_slash (scheme : Text) {rest : Text} (slash : '/' ∈ rest) :
    ∃ origin path, split? (scheme ++ ("://".toList ++ rest)) = some (origin, path) ∧ path ≠ [] := by
  by_cases inside : "://".toList <:+: scheme
  · -- The first `://` stands in front of this one, so the slashes of this one follow it.
    obtain ⟨⟨first, between⟩, cut⟩ :=
      Option.isSome_iff_exists.mp ((isSome_cut?_iff (by decide)).mpr inside)
    obtain ⟨whole, absent⟩ := cut?_schemeEnd_iff.mp cut
    rw [whole, List.append_assoc, List.append_assoc]
    exact exists_split?_of_absent absent (by simp)
  · exact exists_split?_of_absent inside slash

/-- A path starts with a slash. -/
theorem slash_of_split? (split : split? base = some (origin, path)) : ∀ c ∈ path.head?, c = '/' := by
  obtain ⟨⟨scheme, authority, path', whole, rfl, -, -, slash⟩, whole'⟩ := split?_eq_some_iff.mp split
  obtain rfl : path' = path := by
    rw [whole] at whole'
    simpa using whole'
  exact slash

/-- What follows a base without a path belongs to its origin up to the first slash. -/
theorem split?_append_bare (bare : split? base = some (base, [])) (rest : Text) :
    split? (base ++ rest) = some (base ++ rest.takeWhile (· ≠ '/'), rest.dropWhile (· ≠ '/')) := by
  obtain ⟨⟨scheme, authority, -, -, origin, absent, no_slash, -⟩, -⟩ := split?_eq_some_iff.mp bare
  refine split?_eq_some_iff.mpr ⟨⟨scheme, authority ++ rest.takeWhile (· ≠ '/'),
    rest.dropWhile (· ≠ '/'), ?_, ?_, absent, ?_, (authority_ends rest).2⟩, ?_⟩
  · rw [List.append_assoc, List.takeWhile_append_dropWhile, origin, List.append_assoc, List.append_assoc]
  · rw [origin, List.append_assoc, List.append_assoc]
  · intro mem
    exact (List.mem_append.mp mem).elim no_slash (authority_ends rest).1
  · rw [List.append_assoc, List.takeWhile_append_dropWhile]

/-! ## Queries and fragments behind a base -/

/-- What comes before a query or a fragment does not depend on it. -/
theorem withoutSuffix_append_tail (path : Text) (opens : ∀ c ∈ tail.head?, opensSuffix c = true) :
    withoutSuffix (path ++ tail) = withoutSuffix path := by
  have stops : tail.takeWhile (!opensSuffix ·) = [] := by
    cases tail with
    | nil => rfl
    | cons c tail => simp [opens c rfl]
  unfold withoutSuffix
  rw [List.takeWhile_append, stops, List.append_nil]
  split_ifs with all
  · exact ((List.takeWhile_prefix _).eq_of_length all).symm
  · rfl

/-- **Behind a path** a query and a fragment are left out. -/
theorem join_append_tail [WordClass] (no_scheme : scheme? reference = none)
    (split : split? base = some (origin, path)) (some_path : path ≠ [])
    (opens : ∀ c ∈ tail.head?, opensSuffix c = true) :
    join (base ++ tail) reference = join base reference := by
  obtain ⟨isOrigin, whole⟩ := split?_eq_some_iff.mp split
  have split' : split? (base ++ tail) = some (origin, path ++ tail) := by
    rw [whole, List.append_assoc]
    refine split?_append isOrigin ?_
    rw [List.head?_append_of_ne_nil _ some_path]
    exact slash_of_split? split
  rw [join_eq no_scheme split', join_eq no_scheme split]
  unfold startOf
  rw [withoutSuffix_append_tail path opens]

/-- **Behind a base without a path** everything up to the next slash is kept. -/
theorem exists_join_bare [WordClass] (no_scheme : scheme? reference = none)
    (bare : split? base = some (base, [])) (rest : Text) :
    ∃ more, join (base ++ rest) reference =
      some (base ++ (rest.takeWhile (· ≠ '/') ++ '/' :: more)) := by
  rw [join_eq no_scheme (split?_append_bare bare rest), written, List.append_assoc]
  exact ⟨_, rfl⟩

/-- A query or a fragment behind a base without a path shows in every joined URI. -/
theorem join_append_bare_iff [WordClass] (no_scheme : scheme? reference = none)
    (bare : split? base = some (base, [])) (opens : ∀ c ∈ tail.head?, opensSuffix c = true) :
    join (base ++ tail) reference = join base reference ↔ tail = [] := by
  refine ⟨fun same => ?_, fun no_tail => by rw [no_tail, List.append_nil]⟩
  obtain ⟨more, joined⟩ := exists_join_bare no_scheme bare tail
  obtain ⟨more', joined'⟩ := exists_join_bare no_scheme bare []
  rw [List.append_nil] at joined'
  rw [joined, joined'] at same
  have same := List.append_cancel_left (Option.some.inj same)
  cases tail with
  | nil => rfl
  | cons c tail =>
    -- What opens a query or a fragment is no slash.
    have other : c ≠ '/' := by
      rintro rfl
      exact absurd (opens '/' rfl) (by decide)
    rw [List.takeWhile_cons_of_pos (by simpa using other)] at same
    exact absurd (List.cons.inj same).1 other

/-! ## Parts -/

/-- **The parts of a base**: what stands before `://`, an authority, a path, and what follows the path. -/
structure Parts where
  /-- What stands before `://`. -/
  scheme : Text
  /-- The authority. -/
  authority : Text
  /-- The path; it may be missing. -/
  path : Text
  /-- The query and the fragment with the character that opens them; both may be missing. -/
  tail : Text
  /-- The authority ends before the path, the query and the fragment. -/
  authority_plain : ∀ c ∈ authority, c ≠ '/' ∧ c ≠ '?' ∧ c ≠ '#'
  /-- The path starts with a slash. -/
  path_slash : ∀ c ∈ path.head?, c = '/'
  /-- The path ends before the query and the fragment. -/
  path_plain : ∀ c ∈ path, c ≠ '?' ∧ c ≠ '#'
  /-- A question mark opens the query, a hash the fragment. -/
  tail_opens : ∀ c ∈ tail.head?, c = '?' ∨ c = '#'

namespace Parts

variable (parts : Parts)

/-- The base up to the end of its path. -/
def front : Text := parts.scheme ++ ("://".toList ++ (parts.authority ++ parts.path))

/-- The whole base. -/
def whole : Text := parts.front ++ parts.tail

/-- A base has a path if a slash follows any of its `://`. -/
theorem exists_split?_front : ∃ origin path, split? parts.front = some (origin, path) ∧
    (path = [] ↔ parts.path = [] ∧ ¬ "://".toList <:+: parts.scheme) := by
  by_cases has_path : parts.path = [] ∧ ¬ "://".toList <:+: parts.scheme
  · obtain ⟨bare, absent⟩ := has_path
    have no_slash : '/' ∉ parts.authority := fun mem => (parts.authority_plain '/' mem).1 rfl
    refine ⟨parts.front, [], split?_eq_some_iff.mpr ⟨⟨parts.scheme, parts.authority, [], ?_, ?_, absent,
      no_slash, by simp⟩, by simp⟩, iff_of_true rfl ⟨bare, absent⟩⟩
    · rw [front, bare]
    · rw [front, bare, List.append_nil]
  · suffices found : ∃ origin path, split? parts.front = some (origin, path) ∧ path ≠ [] by
      obtain ⟨origin, path, split, some_path⟩ := found
      exact ⟨origin, path, split, iff_of_false some_path has_path⟩
    rcases Classical.not_and_iff_not_or_not.mp has_path with some_path | inside
    · obtain ⟨c, path, split⟩ := List.exists_cons_of_ne_nil some_path
      obtain rfl : c = '/' := parts.path_slash c (by rw [split]; rfl)
      exact exists_split?_of_slash parts.scheme (by simp [split])
    · obtain ⟨first, between, inside⟩ := not_not.mp inside
      rw [front, ← inside, List.append_assoc, List.append_assoc]
      exact exists_split?_of_slash first (by simp)

end Parts

/-- **The query and the fragment of a base do not influence where a reference leads**, exactly where the base
has a path, or there are none, or the reference stands for itself. Otherwise they end up in front of what the
reference adds. What stands before `://` may be anything; where it holds a further `://`, the path starts
behind that one. -/
theorem join_whole_iff [WordClass] (parts : Parts) (reference : Text) :
    ∃ uri, join parts.front reference = some uri ∧
      (join parts.whole reference = some uri ↔ (scheme? reference).isSome ∨ parts.path ≠ [] ∨
        parts.tail = [] ∨ "://".toList <:+: parts.scheme) := by
  have opens : ∀ c ∈ parts.tail.head?, opensSuffix c = true := by
    intro c first
    simpa [opensSuffix] using parts.tail_opens c first
  cases found : scheme? reference with
  | some scheme => exact ⟨reference, by simp [join, found], by simp [join, found]⟩
  | none =>
    obtain ⟨origin, path, split, no_path⟩ := parts.exists_split?_front
    have joined := join_eq found split
    refine ⟨_, joined, ?_⟩
    rw [← joined, Option.isSome_none, Parts.whole]
    by_cases bare : path = []
    · obtain rfl : parts.front = origin := by simpa [bare] using (split?_eq_some_iff.mp split).2
      rw [bare] at split
      rw [join_append_bare_iff found split opens]
      tauto
    · rw [join_append_tail found split bare opens]
      tauto

/-- A query behind an authority. -/
theorem join_behind_bare_query : ∃ parts : Parts, parts.whole = "https://h?x=1".toList ∧
    join parts.whole "c.html".toList = some "https://h?x=1/c.html".toList ∧
    join parts.front "c.html".toList = some "https://h/c.html".toList :=
  ⟨{ scheme := "https".toList, authority := ['h'], path := [], tail := "?x=1".toList
     authority_plain := by simp, path_slash := by simp, path_plain := by simp, tail_opens := by simp },
    by decide +kernel, by decide +kernel, by decide +kernel⟩

end MarkupAnalysis.Uri
