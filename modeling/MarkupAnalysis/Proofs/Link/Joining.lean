import MarkupAnalysis.Link.Uri
import MarkupAnalysis.Proofs.Text.Prefix
import MarkupAnalysis.Proofs.Text.Runs

/-! # Joining in steps

A joined URI is an origin, the segments that have been reached and what the reference adds to them. Read
again as a base it has the same origin and, where the reference was that of a directory, the same segments:
so references may be joined one after the other or all at once.

* **`Uri.scheme?_eq_some_iff`** — when a reference starts with a scheme.
* **`Uri.IsOriginOf`**, **`Uri.split?_eq_some_iff`** — the origin of a base and the path behind it.
* **`Uri.follow_append`**, **`Uri.forall_mem_follow`** — a path is followed segment by segment.
* **`Uri.written`**, **`Uri.directory_written`** — segments that are written as a path and read again.
* **`Uri.join_eq`** — the parts of a joined URI.
* **`Uri.join_composes`** — joining onto what has been joined. -/

namespace MarkupAnalysis.Uri

open Text

variable {base origin path reference scheme : Text}

/-! ## Schemes -/

/-- Of the ASCII characters letters, digits and some marks go on with a scheme, in every class of word
characters. -/
theorem isSchemeChar_of_ascii [WordClass] {c : Char} (ascii : c.toNat < 128) :
    isSchemeChar c = (c.isAlphanum || c == '_' || c = '+' || c = '.' || c = '-') := by
  rw [isSchemeChar, isWord_of_ascii c ascii]

/-- Neither a colon nor a slash goes on with a scheme. -/
theorem isSchemeChar_colon_slash [WordClass] : isSchemeChar ':' = false ∧ isSchemeChar '/' = false :=
  ⟨isSchemeChar_of_ascii (by decide), isSchemeChar_of_ascii (by decide)⟩

/-- **A scheme** has scheme characters, the first of them a word character, and a colon behind it. -/
theorem scheme?_eq_some_iff [WordClass] : scheme? reference = some scheme ↔
    ∃ rest, reference = scheme ++ ':' :: rest ∧ (∀ c ∈ scheme, isSchemeChar c = true) ∧
      scheme.head?.any isWord = true := by
  unfold scheme?
  dsimp only
  constructor
  · intro h
    split_ifs at h with starts
    obtain rfl := Option.some.inj h
    rw [Bool.and_eq_true] at starts
    obtain ⟨rest, colon⟩ := List.isPrefixOf_iff_prefix.mp starts.2
    refine ⟨rest, ?_, List.all_eq_true.mp List.all_takeWhile, starts.1⟩
    rw [← List.singleton_append, colon, List.takeWhile_append_dropWhile]
  · rintro ⟨rest, rfl, each, first⟩
    have colon := isSchemeChar_colon_slash.1
    rw [List.takeWhile_append_of_pos each, List.dropWhile_append_of_pos each,
      List.takeWhile_cons_of_neg (by simp [colon]), List.dropWhile_cons_of_neg (by simp [colon]),
      List.append_nil, first, if_pos]
    rfl

/-- A reference that starts with another character has no scheme. -/
theorem scheme?_cons_eq_none [WordClass] {c : Char} (other : isSchemeChar c = false) (t : Text) :
    scheme? (c :: t) = none := by
  simp [scheme?, other]

/-- What follows a reference with a slash does not give it a scheme. -/
theorem scheme?_append_eq_none [WordClass] (no_scheme : scheme? reference = none) (slash : '/' ∈ reference)
    (more : Text) : scheme? (reference ++ more) = none := by
  rw [Option.eq_none_iff_forall_ne_some] at no_scheme ⊢
  intro scheme starts
  obtain ⟨rest, split, each, first⟩ := scheme?_eq_some_iff.mp starts
  rw [← List.singleton_append, ← List.append_assoc, List.append_eq_append_iff] at split
  rcases split with ⟨others, inside, -⟩ | ⟨others, rfl, -⟩
  · -- The scheme and its colon would reach over the slash.
    have reached : '/' ∈ scheme ++ [':'] := by
      rw [inside]
      exact List.mem_append_left others slash
    have in_scheme : '/' ∈ scheme := by simpa using reached
    exact absurd (each '/' in_scheme) (by rw [isSchemeChar_colon_slash.2]; exact Bool.false_ne_true)
  · exact no_scheme scheme (scheme?_eq_some_iff.mpr ⟨others, by simp, each, first⟩)

/-! ## Origins -/

/-- **The origin of a base** goes up to the first slash behind its first `://`, or to the end. -/
def IsOriginOf (origin base : Text) : Prop :=
  ∃ scheme authority path, base = scheme ++ ("://".toList ++ (authority ++ path)) ∧
    origin = scheme ++ ("://".toList ++ authority) ∧ ¬ "://".toList <:+: scheme ∧ '/' ∉ authority ∧
    ∀ c ∈ path.head?, c = '/'

/-- A `://` is found behind a text without one. -/
theorem lengthUntil_schemeEnd {scheme : Text} (absent : ¬ "://".toList <:+: scheme) (rest : Text) :
    lengthUntil (startsWith "://".toList) (scheme ++ ("://".toList ++ rest)) = scheme.length := by
  have here : lengthUntil (startsWith "://".toList) ("://".toList ++ rest) = 0 := by
    simp [lengthUntil, startsWith]
  rw [lengthUntil_append, here, Nat.add_zero]
  intro before c after split
  by_contra found
  -- It would start in the text: it lies in there, or one of its slashes is a colon.
  rcases after with _ | ⟨d, _ | ⟨e, others⟩⟩
  · simp [startsWith] at found
  · simp [startsWith] at found
  · obtain ⟨rfl, rfl, rfl⟩ : ':' = c ∧ '/' = d ∧ '/' = e := by simpa [startsWith] using found
    exact absent ⟨before, others, by simp [split]⟩

/-- **What stands before the first `://`** has none. -/
theorem cut?_schemeEnd_iff {rest : Text} : cut? "://".toList base = some (scheme, rest) ↔
    base = scheme ++ ("://".toList ++ rest) ∧ ¬ "://".toList <:+: scheme := by
  rw [cut?_eq_some_iff]
  refine and_congr_right fun whole => ⟨fun place => ?_, fun absent => ?_⟩
  · have some_char : "://".toList ≠ [] := by decide
    have absent := not_infix_take_lengthUntil some_char base
    rwa [place, whole, List.take_left] at absent
  · rw [whole, lengthUntil_schemeEnd absent]

/-- An authority ends at the first slash. -/
theorem authority_ends (rest : Text) : '/' ∉ rest.takeWhile (· ≠ '/') ∧
    ∀ c ∈ (rest.dropWhile (· ≠ '/')).head?, c = '/' := by
  refine ⟨fun mem => by simpa using List.mem_takeWhile_imp mem, fun c first => ?_⟩
  have stops := List.head?_dropWhile_not (· ≠ '/') rest
  rw [first] at stops
  simpa using stops

/-- What is split off in front is the origin. -/
theorem isOriginOf_of_split? (split : split? base = some (origin, path)) :
    IsOriginOf origin base ∧ base = origin ++ path := by
  simp only [split?, Option.map_eq_some_iff, Prod.exists, Prod.mk.injEq] at split
  obtain ⟨scheme, rest, cut, rfl, rfl⟩ := split
  obtain ⟨whole, absent⟩ := cut?_schemeEnd_iff.mp cut
  refine ⟨⟨scheme, rest.takeWhile (· ≠ '/'), rest.dropWhile (· ≠ '/'), ?_, ?_, absent,
    authority_ends rest⟩, ?_⟩
  · rw [List.takeWhile_append_dropWhile, whole]
  · rw [List.append_assoc]
  · rw [whole, List.append_assoc, List.append_assoc, List.takeWhile_append_dropWhile]

/-- **A base is split** behind its origin. -/
theorem split?_eq_some_iff : split? base = some (origin, path) ↔
    IsOriginOf origin base ∧ base = origin ++ path := by
  refine ⟨isOriginOf_of_split?, ?_⟩
  rintro ⟨⟨scheme, authority, path', whole, rfl, absent, no_slash, slash⟩, whole'⟩
  obtain rfl : path' = path := by
    rw [whole] at whole'
    simpa using whole'
  have inside : ∀ c ∈ authority, decide (c ≠ '/') = true := by
    intro c mem
    rw [decide_eq_true_eq]
    rintro rfl
    exact no_slash mem
  have stops : path'.takeWhile (· ≠ '/') = [] ∧ path'.dropWhile (· ≠ '/') = path' := by
    cases path' with
    | nil => exact ⟨rfl, rfl⟩
    | cons c path' =>
      obtain rfl : c = '/' := slash c rfl
      exact ⟨rfl, rfl⟩
  simp only [split?, Option.map_eq_some_iff, Prod.exists, Prod.mk.injEq]
  refine ⟨scheme, authority ++ path', cut?_schemeEnd_iff.mpr ⟨whole, absent⟩, ?_, ?_⟩
  · rw [List.takeWhile_append_of_pos inside, stops.1, List.append_nil, List.append_assoc]
  · rw [List.dropWhile_append_of_pos inside, stops.2]

/-- A base has an origin if it has `://` at all. -/
theorem exists_split? (schemeEnd : "://".toList <:+: base) :
    ∃ origin path, split? base = some (origin, path) := by
  obtain ⟨⟨scheme, rest⟩, cut⟩ :=
    Option.isSome_iff_exists.mp ((isSome_cut?_iff (by decide)).mpr schemeEnd)
  exact ⟨_, _, by rw [split?, cut]; rfl⟩

/-- Behind the origin of a base there may be any other path. -/
theorem split?_append (h : IsOriginOf origin base) (slash : ∀ c ∈ path.head?, c = '/') :
    split? (origin ++ path) = some (origin, path) := by
  obtain ⟨scheme, authority, -, -, rfl, absent, no_slash, -⟩ := h
  exact split?_eq_some_iff.mpr ⟨⟨scheme, authority, path, by simp, rfl, absent, no_slash, slash⟩, rfl⟩

/-! ## Queries and fragments -/

/-- A text without `?` and `#` has no query and no fragment. -/
theorem withoutSuffix_of_plain {t : Text} (plain : ∀ c ∈ t, opensSuffix c = false) :
    withoutSuffix t = t ∧ suffix t = [] := by
  have all : ∀ c ∈ t, (!opensSuffix c) = true := by simpa using plain
  exact ⟨List.takeWhile_eq_self_iff.mpr all, List.dropWhile_eq_nil_iff.mpr all⟩

/-- Behind such a text the query and the fragment are those of what follows. -/
theorem withoutSuffix_append {s : Text} (plain : ∀ c ∈ s, opensSuffix c = false) (t : Text) :
    withoutSuffix (s ++ t) = s ++ withoutSuffix t ∧ suffix (s ++ t) = suffix t := by
  have all : ∀ c ∈ s, (!opensSuffix c) = true := by simpa using plain
  exact ⟨List.takeWhile_append_of_pos all, List.dropWhile_append_of_pos all⟩

/-! ## Segments -/

/-- **A plain segment** has characters, and no slash, `?` or `#` among them. -/
def IsPlainSegment (segment : Text) : Prop :=
  segment ≠ [] ∧ ∀ c ∈ segment, c ≠ '/' ∧ opensSuffix c = false

/-- The segments of a path without query and fragment are plain. -/
theorem isPlainSegment_of_mem_segments {segment : Text} (plain : ∀ c ∈ path, opensSuffix c = false)
    (mem : segment ∈ segments path) : IsPlainSegment segment := by
  obtain ⟨some_char, no_slash⟩ := mem_runs mem
  exact ⟨some_char, fun c inside =>
    ⟨by simpa using no_slash c inside, plain c (mem_of_mem_runs mem inside)⟩⟩

/-- The directory of a path that ends in a slash is the whole path. -/
theorem directory_of_getLast? (slash : path.getLast? = some '/') : directory path = segments path := by
  obtain ⟨before, rfl⟩ := List.getLast?_eq_some_iff.mp slash
  simp [directory]

/-- The segments of the directory of a path without a query and a fragment are plain. -/
theorem isPlainSegment_of_mem_directory {segment : Text} (plain : ∀ c ∈ path, opensSuffix c = false)
    (mem : segment ∈ directory path) : IsPlainSegment segment := by
  refine isPlainSegment_of_mem_segments (fun c inside => plain c ?_) mem
  rw [List.mem_reverse] at inside
  exact List.mem_reverse.mp ((List.dropWhile_sublist _).subset inside)

/-- What holds of the segments at the start and of those of the path holds of those that are reached. -/
theorem forall_mem_follow {p : Text → Prop} {start : List Text} (h : ∀ s ∈ start, p s)
    (h' : ∀ s ∈ segments path, p s) : ∀ s ∈ follow start path, p s := by
  suffices h : ∀ s ∈ (segments path).foldl step start.reverse, p s by
    simpa [follow] using h
  replace h : ∀ s ∈ start.reverse, p s := by simpa using h
  generalize segments path = more at h'
  generalize start.reverse = reached at h
  induction more generalizing reached with
  | nil => exact h
  | cons segment more ih =>
    obtain ⟨first, others⟩ := List.forall_mem_cons.mp h'
    refine ih others _ ?_
    unfold step
    split_ifs
    · exact h
    · exact fun s mem => h s (List.mem_of_mem_tail mem)
    · exact List.forall_mem_cons.mpr ⟨first, h⟩

/-- **A path is followed in steps**: up to a slash, and from there. -/
theorem follow_append (start : List Text) {first : Text} (slash : first.getLast? = some '/')
    (rest : Text) : follow start (first ++ rest) = follow (follow start first) rest := by
  obtain ⟨before, rfl⟩ := List.getLast?_eq_some_iff.mp slash
  have separator : decide ('/' = '/') = true := rfl
  have split : segments (before ++ ['/'] ++ rest) = segments (before ++ ['/']) ++ segments rest := by
    rw [List.append_assoc, List.singleton_append, segments, segments, segments,
      runs_append_separator separator, runs_append_separator separator, runs_nil, List.append_nil]
  rw [follow, follow, follow, split, List.foldl_append, List.reverse_reverse]

/-! ## Written paths -/

/-- The path of some segments, with a slash at its end if it is that of a directory. -/
def written (segments : List Text) (isDirectory : Bool) : Text :=
  '/' :: (List.intercalate ['/'] segments ++ if isDirectory && !segments.isEmpty then ['/'] else [])

/-- What is put together with slashes has the characters of its parts and slashes. -/
theorem mem_intercalate {segments : List Text} {c : Char} (mem : c ∈ List.intercalate ['/'] segments) :
    c = '/' ∨ ∃ segment ∈ segments, c ∈ segment := by
  induction segments with
  | nil => cases mem
  | cons segment segments ih =>
    cases segments with
    | nil =>
      rw [List.intercalate_singleton] at mem
      exact .inr ⟨segment, List.mem_cons_self, mem⟩
    | cons next segments =>
      rw [List.intercalate_cons_cons, List.mem_append, List.mem_append, List.mem_singleton] at mem
      rcases mem with (here | slash) | later
      · exact .inr ⟨segment, List.mem_cons_self, here⟩
      · exact .inl slash
      · exact (ih later).imp_right fun ⟨other, mem, inside⟩ =>
          ⟨other, List.mem_cons_of_mem segment mem, inside⟩

/-- A written path has the characters of its segments, and slashes. -/
theorem mem_written {segments : List Text} {isDirectory : Bool} {c : Char}
    (mem : c ∈ written segments isDirectory) : c = '/' ∨ ∃ segment ∈ segments, c ∈ segment := by
  rcases List.mem_cons.mp mem with slash | mem
  · exact .inl slash
  rcases List.mem_append.mp mem with inside | trailing
  · exact mem_intercalate inside
  · split_ifs at trailing
    · exact .inl (List.mem_singleton.mp trailing)
    · cases trailing

/-- **The directory of a written directory** has the segments that have been written. -/
theorem directory_written {segments : List Text} (plain : ∀ segment ∈ segments, IsPlainSegment segment) :
    directory (withoutSuffix (written segments true)) = segments := by
  have no_suffix : ∀ c ∈ written segments true, opensSuffix c = false := by
    intro c mem
    rcases mem_written mem with rfl | ⟨segment, mem, inside⟩
    · rfl
    · exact ((plain segment mem).2 c inside).2
  have slash : (written segments true).getLast? = some '/' := by
    unfold written
    cases segments with
    | nil => rfl
    | cons segment segments => simp [List.getLast?_cons]
  have each : ∀ segment ∈ segments, segment ≠ [] ∧ ∀ c ∈ segment, decide (c = '/') = false := by
    intro segment mem
    exact ⟨(plain segment mem).1, fun c inside => decide_eq_false ((plain segment mem).2 c inside).1⟩
  have separator : decide ('/' = '/') = true := rfl
  rw [(withoutSuffix_of_plain no_suffix).1, directory_of_getLast? slash, written, Uri.segments,
    runs_cons_separator separator]
  split_ifs
  · rw [runs_append_separator separator, runs_intercalate separator each, runs_nil, List.append_nil]
  · rw [List.append_nil, runs_intercalate separator each]

/-! ## Joining -/

/-- The segments from which a path is followed. -/
def startOf (path target : Text) : List Text :=
  if startsWith ['/'] target then [] else directory (withoutSuffix path)

/-- **A joined URI** is an origin, a written path and the query and the fragment of the reference. -/
theorem join_eq [WordClass] (no_scheme : scheme? reference = none)
    (split : split? base = some (origin, path)) :
    join base reference = some (origin ++
      (written (follow (startOf path (withoutSuffix reference)) (withoutSuffix reference))
        ((withoutSuffix reference).getLast? = some '/') ++ suffix reference)) := by
  simp [join, no_scheme, split, written, startOf]

/-- A relative path is followed from the directory of the base. -/
theorem startOf_relative {target : Text} (relative : target.head? ≠ some '/') :
    startOf path target = directory (withoutSuffix path) := by
  rw [startOf, if_neg]
  intro slash
  obtain ⟨rest, rfl⟩ := List.isPrefixOf_iff_prefix.mp slash
  exact relative rfl

/-- Where a path starts does not depend on what follows its first character. -/
theorem startOf_append {target : Text} (some_char : target ≠ []) (more : Text) :
    startOf path (target ++ more) = startOf path target := by
  obtain ⟨c, target, rfl⟩ := List.exists_cons_of_ne_nil some_char
  simp [startOf, startsWith]

/-- The segments that a plain path leads to from a base are plain. -/
theorem isPlainSegment_of_mem_follow {target : Text} (plain : ∀ c ∈ target, opensSuffix c = false) :
    ∀ segment ∈ follow (startOf path target) target, IsPlainSegment segment := by
  refine forall_mem_follow ?_ fun segment mem => isPlainSegment_of_mem_segments plain mem
  unfold startOf
  split_ifs
  · simp
  · intro segment mem
    refine isPlainSegment_of_mem_directory (fun c inside => ?_) mem
    simpa using List.mem_takeWhile_imp inside

/-- **A joined directory** has the origin of the base and the segments that the reference leads to. -/
theorem join_directory [WordClass] (no_scheme : scheme? reference = none)
    (split : split? base = some (origin, path)) (plain : ∀ c ∈ reference, opensSuffix c = false) (slash : reference.getLast? = some '/') :
    join base reference = some (origin ++ written (follow (startOf path reference) reference) true) := by
  obtain ⟨whole, no_suffix⟩ := withoutSuffix_of_plain plain
  rw [join_eq no_scheme split, whole, no_suffix, slash, List.append_nil, decide_eq_true rfl]

/-- **References are joined one after the other or all at once.** Onto a base with `://` every reference
without a scheme is joined: the URI starts with the origin of the base and a slash, and it ends with the
query and the fragment of the reference. Where a first reference is that of a directory, without query and
fragment, joining a further reference onto the joined URI is joining both at once. -/
theorem join_composes [WordClass] (schemeEnd : "://".toList <:+: base) :
    (∃ origin, IsOriginOf origin base ∧ ∀ reference, scheme? reference = none →
      ∃ path, join base reference = some (origin ++ '/' :: path ++ suffix reference)) ∧
    ∀ reference next, scheme? reference = none → (∀ c ∈ reference, c ≠ '?' ∧ c ≠ '#') →
      reference.getLast? = some '/' → scheme? next = none → withoutSuffix next ≠ [] →
      (withoutSuffix next).head? ≠ some '/' →
      ∃ joined uri, join base reference = some joined ∧ join joined next = some uri ∧
        join base (reference ++ next) = some uri := by
  obtain ⟨origin, path, split⟩ := exists_split? schemeEnd
  obtain ⟨isOrigin, -⟩ := split?_eq_some_iff.mp split
  refine ⟨⟨origin, isOrigin, fun reference no_scheme => ?_⟩, ?_⟩
  · rw [join_eq no_scheme split, written]
    exact ⟨_, by rw [List.append_assoc]⟩
  intro reference next no_scheme no_suffix slash no_scheme' some_path relative
  have plain : ∀ c ∈ reference, opensSuffix c = false := by
    intro c mem
    simp [opensSuffix, no_suffix c mem]
  have some_char : reference ≠ [] := by
    rintro rfl
    cases slash
  have has_slash : '/' ∈ reference := List.mem_of_getLast? slash
  obtain ⟨target, same_suffix⟩ := withoutSuffix_append plain next
  have split' : split? (origin ++ written (follow (startOf path reference) reference) true) =
      some (origin, written (follow (startOf path reference) reference) true) :=
    split?_append isOrigin (by simp [written])
  refine ⟨_, _, join_directory no_scheme split plain slash, join_eq no_scheme' split', ?_⟩
  rw [join_eq (scheme?_append_eq_none no_scheme has_slash next) split, target, same_suffix,
    startOf_relative relative, directory_written (isPlainSegment_of_mem_follow plain),
    startOf_append some_char, follow_append _ slash, List.getLast?_append_of_ne_nil _ some_path]

/-- Two references that go up past the origin of a base with a slash in its query. -/
theorem join_composes_past_origin :
    "://".toList <:+: "http://h/a/b?x=/".toList ∧
    (∃ joined uri, join "http://h/a/b?x=/".toList "../../c/./".toList = some joined ∧
      join joined "../d?y#z".toList = some uri ∧
      join "http://h/a/b?x=/".toList "../../c/./../d?y#z".toList = some uri) ∧
    join "http://h/a/b?x=/".toList "../../c/./../d?y#z".toList = some "http://h/d?y#z".toList :=
  ⟨by decide,
    (join_composes (by decide)).2 "../../c/./".toList "../d?y#z".toList (by decide +kernel) (by simp)
      (by decide) (by decide +kernel) (by decide) (by decide),
    by decide +kernel⟩

end MarkupAnalysis.Uri
