import MarkupAnalysis.Proofs.Link.Joining
import MarkupAnalysis.Proofs.Link.References

/-! # The base of a document

The first `base` element that sets a base changes what all relative references behind it are resolved
against. What it sets is its own reference, joined onto the URI of the document. For most references this is
where a link with the same value leads to. A reference that starts with blanks or with `//` is the exception:
a link leaves the blanks out and takes `//` for a host, and the base does neither.

* **`Document.linksOf_append`** — the links of elements one behind the other, while no base is set.
* **`Document.linksOf_of_base`** — the links behind a base.
* **`baseAfter_eq_of_link`** — the base that is set is where the link leads to.
* **`Document.links_behind_base`** — all links of a text with a base.
* **`Document.links_behind_other_base`** — the two exceptions. -/

namespace MarkupAnalysis

open Text Document

variable {t uri base reference : Text} {v : Vocabulary} {d : Document} {context : LinkContext} {link : Link}
  {value : AttributeValue} {values : List AttributeValue} {id : NodeId}

/-! ## Before and behind a base -/

namespace Document

/-- **While no base is set**, the links of elements come one behind the other. -/
theorem linksOf_append [WordClass] {before : List NodeId} (unset : ∀ id ∈ before, ∀ value values,
    d.SetsBase v id value values → baseAfter context value = none) (after : List NodeId) :
    d.linksOf v context none (before ++ after) =
      d.linksOf v context none before ++ d.linksOf v context none after := by
  induction before with
  | nil => rfl
  | cons id before ih =>
    obtain ⟨here, others⟩ := List.forall_mem_cons.mp unset
    by_cases sets : ∃ value values, d.SetsBase v id value values
    · obtain ⟨value, values, sets⟩ := sets
      rw [List.cons_append, linksOf_cons_of_setsBase sets, linksOf_cons_of_setsBase sets,
        here value values sets, ih others, List.append_assoc]
    · have keeps : (none : Option Text) = none → ∀ value values, ¬ d.SetsBase v id value values :=
        fun _ value values h => sets ⟨value, values, h⟩
      rw [List.cons_append, linksOf_cons_of_keeps keeps, linksOf_cons_of_keeps keeps, ih others,
        List.append_assoc]

/-- **Behind a base** every reference may be a link, resolved against it. -/
theorem linksOf_of_base [WordClass] (base : Text) (ids : List NodeId) : d.linksOf v context (some base) ids =
    (ids.flatMap fun id => (d.node id).references v).filterMap (Link.of? d context (some base)) := by
  induction ids with
  | nil => rfl
  | cons id ids ih =>
    have keeps : some base = none → ∀ value values, ¬ d.SetsBase v id value values := nofun
    rw [linksOf_cons_of_keeps keeps, ih, List.flatMap_cons, List.filterMap_append]

end Document

/-! ## What a base element sets -/

/-- A URI of the web. -/
def Uri.IsWeb [WordClass] (uri : Text) : Prop :=
  ∃ scheme, scheme? uri = some scheme ∧ (lower scheme = "http".toList ∨ lower scheme = "https".toList)

/-- A URI without its query has the scheme that it had. -/
theorem scheme?_withoutQuery [WordClass] {scheme : Text} (h : Uri.scheme? reference = some scheme) :
    Uri.scheme? (withoutQuery reference) = some scheme := by
  obtain ⟨rest, rfl, each, first⟩ := Uri.scheme?_eq_some_iff.mp h
  have no_query : ∀ c ∈ scheme ++ [':'], decide (c ≠ '?') = true := by
    intro c mem
    rw [decide_eq_true_eq]
    rintro rfl
    have mem : '?' ∈ scheme := by simpa using mem
    have no_scheme : Uri.isSchemeChar '?' = false := Uri.isSchemeChar_of_ascii (by decide)
    exact absurd (each _ mem) (by simp [no_scheme])
  refine Uri.scheme?_eq_some_iff.mpr ⟨withoutQuery rest, ?_, each, first⟩
  rw [← List.singleton_append, ← List.append_assoc, withoutQuery, List.takeWhile_append_of_pos no_query,
    List.append_assoc]
  rfl

/-- A web target of a reference with a scheme is the reference. -/
theorem eq_of_schemeTarget [WordClass] {scheme target : Text} (starts : Uri.scheme? reference = some scheme)
    (web : Uri.IsWeb target) (leads : schemeTarget scheme reference = some (.uri target)) :
    reference = target := by
  unfold schemeTarget at leads
  dsimp only at leads
  split_ifs at leads with http file
  · cases leads
    rfl
  · -- A file is no URI of the web.
    cases leads
    obtain ⟨scheme', starts', web⟩ := web
    rw [scheme?_withoutQuery starts] at starts'
    obtain rfl := Option.some.inj starts'
    rw [file] at web
    exact absurd web (by decide)

/-- **A web target** of a reference without `//` is the reference joined onto the document's URI. -/
theorem join_eq_of_targetOf [WordClass] {target : Text} (web : Uri.IsWeb target)
    (no_host : ¬ "//".toList <+: reference)
    (leads : targetOf d (.ofUri uri) none reference = some (.uri target)) :
    Uri.join uri reference = some target := by
  unfold targetOf at leads
  cases starts : Uri.scheme? reference with
  | some scheme =>
    rw [starts] at leads
    rw [← eq_of_schemeTarget starts web leads]
    simp [Uri.join, starts]
  | none =>
    rw [starts] at leads
    split at leads
    · rename_i no_scheme
      cases no_scheme
    · obtain ⟨id, -, same⟩ := Option.map_eq_some_iff.mp leads
      cases same
    · exact absurd ⟨_, rfl⟩ no_host
    · obtain ⟨joined, answer, same⟩ := Option.map_eq_some_iff.mp leads
      cases same
      exact answer

/-- **A base is where a link with the same value leads to**, if the value starts neither with a blank nor
with `//`. -/
theorem baseAfter_eq_of_link [WordClass] {ordinary : AttributeValue} {target : Text}
    (same : stripMatchingQuotes ordinary.text = stripMatchingQuotes value.text)
    (linked : Link.of? d (.ofUri uri) none ordinary = some link) (leads : link.target = .uri target)
    (web : Uri.IsWeb target) (no_blank : (stripMatchingQuotes value.text).head?.any isBlank = false)
    (no_host : ¬ "//".toList <+: stripMatchingQuotes value.text) :
    baseAfter (.ofUri uri) value = some target := by
  obtain ⟨usable, -, answer⟩ := Link.of?_eq_some_iff.mp linked
  rw [same] at usable answer
  unfold baseAfter
  generalize stripMatchingQuotes value.text = reference at *
  cases reference with
  | nil => cases usable
  | cons c reference =>
    have trimmed : trimStart (c :: reference) = c :: reference :=
      List.dropWhile_cons_of_neg (Bool.not_eq_true _ ▸ no_blank)
    rw [trimmed, leads] at answer
    exact join_eq_of_targetOf web no_host answer

/-! ## Texts with a base -/

namespace Document

/-- **A relative reference** may be a link, and has neither a scheme nor a host nor is it a fragment. -/
structure IsRelative [WordClass] (reference : Text) : Prop where
  usable : isUsable reference = true
  no_scheme : Uri.scheme? (trimStart reference) = none
  no_fragment : (trimStart reference).head? ≠ some '#'
  no_host : ¬ "//".toList <+: trimStart reference

/-- **The links of a text with a base.** Let no base be set before the `base` element `id`, and let its
reference, where it starts neither with a blank nor with `//`, be that of a link to a URI of the web. Then
all references behind it are resolved against this URI: a relative one leads to what is joined onto it. -/
theorem links_behind_base [WordClass] {before after : List NodeId} {ordinary : AttributeValue} {target : Text}
    (split : (parse v t).elements = before ++ id :: after)
    (unset : ∀ id ∈ before, ∀ value values, (parse v t).SetsBase v id value values →
      baseAfter (.ofUri uri) value = none)
    (sets : (parse v t).SetsBase v id value values)
    (same : stripMatchingQuotes ordinary.text = stripMatchingQuotes value.text)
    (linked : Link.of? d (.ofUri uri) none ordinary = some link) (leads : link.target = .uri target)
    (web : Uri.IsWeb target) (no_blank : (stripMatchingQuotes value.text).head?.any isBlank = false)
    (no_host : ¬ "//".toList <+: stripMatchingQuotes value.text) :
    (parse v t).links t v (.ofUri uri) = (parse v t).linksOf v (.ofUri uri) none before ++
      (values ++ after.flatMap fun id => ((parse v t).node id).references v).filterMap
        (Link.of? (parse v t) (.ofUri uri) (some target)) ∧
    ∀ later, IsRelative (stripMatchingQuotes later.text) →
      Link.of? (parse v t) (.ofUri uri) (some target) later =
        (Uri.join target (trimStart (stripMatchingQuotes later.text))).map
          fun joined => ⟨referenceSpan later, .uri joined⟩ := by
  have whole : t.byteLength = (parse v t).textLength := rfl
  refine ⟨?_, fun later relative => ?_⟩
  · rw [Document.links, if_pos whole, split, linksOf_append unset, linksOf_cons_of_setsBase sets,
      baseAfter_eq_of_link same linked leads web no_blank no_host, linksOf_of_base, List.filterMap_append]
  · rw [Link.of?, if_pos relative.usable,
      targetOf_of_relative relative.no_scheme relative.no_fragment relative.no_host, Option.map_map]
    rfl

/-- A link, a base, and a link behind it. -/
def linkBaseLink : Text := "<a href=\"d\"><base href=\"../b/\"><a href=\"c\">".toList

/-- Behind the base the second link leads into another directory than the first one. -/
theorem links_behind_base_directory :
    (parse .empty linkBaseLink).SetsBase .empty 2 ⟨"\"../b/\"".toList, ⟨23, 30⟩⟩ [] ∧
      (parse .empty linkBaseLink).links linkBaseLink .empty (.ofUri "https://h/x/a.html".toList) =
        [⟨⟨9, 10⟩, .uri "https://h/x/d".toList⟩, ⟨⟨40, 41⟩, .uri "https://h/b/c".toList⟩] := by
  have split : (parse .empty linkBaseLink).elements = [1] ++ 2 :: [3] := by
    decide +kernel
  have sets : (parse .empty linkBaseLink).SetsBase .empty 2 ⟨"\"../b/\"".toList, ⟨23, 30⟩⟩ [] := by
    rw [SetsBase]
    decide +kernel
  have unset : ∀ id ∈ [1], ∀ value values, (parse .empty linkBaseLink).SetsBase .empty id value values →
      baseAfter (.ofUri "https://h/x/a.html".toList) value = none := by
    rintro id mem value values ⟨is_base, -⟩
    rw [List.mem_singleton.mp mem] at is_base
    exact absurd is_base (by decide +kernel)
  have linked : Link.of? (parse .empty linkBaseLink) (.ofUri "https://h/x/a.html".toList) none
      ⟨"\"../b/\"".toList, ⟨23, 30⟩⟩ = some ⟨⟨24, 29⟩, .uri "https://h/b/".toList⟩ := by
    decide +kernel
  have web : Uri.IsWeb "https://h/b/".toList := ⟨"https".toList, by decide +kernel, by decide⟩
  have no_host : ¬ "//".toList <+: stripMatchingQuotes "\"../b/\"".toList := by decide
  have no_blank : (stripMatchingQuotes "\"../b/\"".toList).head?.any isBlank = false := by decide +kernel
  refine ⟨sets, ?_⟩
  rw [(links_behind_base split unset sets rfl linked rfl web no_blank no_host).1]
  decide +kernel

/-- **Other bases** are not where a link with the same value leads to: of a reference with a host they take
the host for a directory, and blanks before a scheme make a directory of the scheme. -/
theorem links_behind_other_base :
    let context := LinkContext.ofUri "https://h/a.html".toList
    let links := fun t : Text => (parse .empty t).links t .empty context
    Uri.join "https://cdn/x/".toList "y".toList = some "https://cdn/x/y".toList ∧
      links "<a href=\"//cdn/x/\">".toList = [⟨⟨9, 17⟩, .uri "https://cdn/x/".toList⟩] ∧
      links "<base href=\"//cdn/x/\"><a href=\"y\">".toList =
        [⟨⟨31, 32⟩, .uri "https://h/cdn/x/y".toList⟩] ∧
      links "<a href=\" https://cdn/x/\">".toList = [⟨⟨9, 24⟩, .uri "https://cdn/x/".toList⟩] ∧
      links "<base href=\" https://cdn/x/\"><a href=\"y\">".toList =
        [⟨⟨38, 39⟩, .uri "https://h/ https:/cdn/x/y".toList⟩] := by
  decide +kernel

end Document

end MarkupAnalysis
