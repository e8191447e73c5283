import Mathlib.Data.List.Induction
import MarkupAnalysis.Session

/-! # What a session hands out

A session hands out the document that belongs to the latest call on the URI that has missed, whatever
else has been called in between. What a call misses is said of the calls before it and not of what the
session keeps.

* **`Session.Call`**, **`Session.run`** — calls, and the session after a list of them.
* **`Session.LastOpened`**, **`Session.Misses`**, **`Session.LastMissed`** — what the calls so far say.
* **`Session.induction_calls`** — induction along the calls on a URI.
* **`Session.cached?_run`** — what is kept for a URI is what the last call on it has left there.
* **`Session.snapshots_run_append`** — snapshots that have been made stay.
* **`Session.openDocument_transparent`** — what a call hands out after any other calls. -/

namespace MarkupAnalysis

namespace Session

/-! ## Calls -/

/-- A call that may change a session. -/
inductive Call where
  /-- A URI is opened in some version with some text. -/
  | openDocument (uri : Text) (version : Int) (t : Text)
  /-- A URI is forgotten. -/
  | forget (uri : Text)
deriving DecidableEq, Repr

/-- The URI that a call is about. -/
def Call.uri : Call → Text
  | openDocument uri _ _ => uri
  | forget uri => uri

variable (v : Vocabulary)

/-- The session after a call. -/
def after (s : Session) : Call → Session
  | .openDocument uri version t => (s.openDocument v uri version t).2
  | .forget uri => s.forget uri

/-- The session after a list of calls, the first of which is made to a new session. -/
def run (calls : List Call) : Session := calls.foldl (after v) {}

/-- The place of the snapshot that a call hands out after other calls. -/
def answer (history : List Call) (uri : Text) (version : Int) (t : Text) : Nat :=
  ((run v history).openDocument v uri version t).1

/-- The snapshot that a call hands out after other calls: a text with its document. -/
def handedOut (history : List Call) (uri : Text) (version : Int) (t : Text) : Option Snapshot :=
  (run v (history ++ [.openDocument uri version t])).snapshots[answer v history uri version t]?

/-! ## What the calls so far say -/

/-- The last call on the URI has opened it. It was made after the calls `before`. -/
def LastOpened (history : List Call) (uri : Text) (before : List Call) (version : Int) (t : Text) :
    Prop :=
  ∃ later, history = before ++ .openDocument uri version t :: later ∧ ∀ call ∈ later, call.uri ≠ uri

/-- **A call misses** if the URI has not been opened since it was last forgotten, or if it was last opened
in another version. -/
def Misses (history : List Call) (uri : Text) (version : Int) : Prop :=
  ∀ before version' t, LastOpened history uri before version' t → version' ≠ version

/-- **The latest call on the URI that has missed.** It was made after the calls `before`, and none that was
made later has missed. -/
structure LastMissed (history : List Call) (uri : Text) (before : List Call) (version : Int) (t : Text) :
    Prop where
  called : before ++ [.openDocument uri version t] <+: history
  misses : Misses before uri version
  latest : ∀ later version' t', later ++ [.openDocument uri version' t'] <+: history →
    Misses later uri version' → later.length ≤ before.length

/-- No version of a URI is opened with two texts. -/
def OneTextEach (calls : List Call) : Prop := ∀ uri version t t',
  .openDocument uri version t ∈ calls → .openDocument uri version t' ∈ calls → t = t'

variable {v} {history before : List Call} {uri : Text} {version version' : Int} {t t' : Text}

/-- What the last call on a URI was, after one more call. -/
theorem lastOpened_concat {call : Call} : LastOpened (history ++ [call]) uri before version t ↔
    if call.uri = uri then call = .openDocument uri version t ∧ before = history
    else LastOpened history uri before version t := by
  constructor
  · rintro ⟨later, split, others⟩
    rcases List.eq_nil_or_concat later with rfl | ⟨later, last, rfl⟩
    · obtain ⟨rfl, same⟩ := List.append_inj' split rfl
      rw [List.singleton_inj.mp same]
      exact if_pos rfl ▸ ⟨rfl, rfl⟩
    · rw [List.concat_eq_append, ← List.cons_append, ← List.append_assoc] at split
      obtain ⟨rfl, same⟩ := List.append_inj' split rfl
      obtain rfl := List.singleton_inj.mp same
      rw [if_neg (others call (by simp))]
      exact ⟨later, rfl, fun c mem => others c (by simp [mem])⟩
  · intro h
    split at h
    · obtain ⟨rfl, rfl⟩ := h
      exact ⟨[], rfl, nofun⟩
    · rename_i other
      obtain ⟨later, rfl, others⟩ := h
      refine ⟨later ++ [call], by simp, fun c mem => ?_⟩
      rcases List.mem_append.mp mem with known | new
      · exact others c known
      · rwa [List.mem_singleton.mp new]

/-- A URI was last opened in an earlier call. -/
theorem LastOpened.length_lt (h : LastOpened history uri before version t) :
    before.length < history.length := by
  obtain ⟨later, rfl, -⟩ := h
  simp

/-- A call that does not miss finds the URI opened in its version. -/
theorem exists_lastOpened (hits : ¬ Misses history uri version) :
    ∃ before t, LastOpened history uri before version t := by
  simp only [Misses, not_forall, not_not] at hits
  obtain ⟨before, version', t, opened, rfl⟩ := hits
  exact ⟨before, t, opened⟩

/-- **Induction along the calls on a URI** in one version: a call misses, or the last call on the URI has
opened that version. -/
theorem induction_calls (uri : Text) (version : Int) {P : List Call → Text → Prop}
    (misses : ∀ history t, Misses history uri version → P history t)
    (hits : ∀ history t before t', LastOpened history uri before version t' → P before t' → P history t)
    (history : List Call) (t : Text) : P history t := by
  induction length : history.length using Nat.strongRecOn generalizing history t with
  | _ n ih =>
    by_cases missed : Misses history uri version
    · exact misses history t missed
    · obtain ⟨before, t', opened⟩ := exists_lastOpened missed
      exact hits history t before t' opened (ih before.length (length ▸ opened.length_lt) before t' rfl)

/-! ## What is kept -/

/-- What is kept after a URI was forgotten. -/
theorem cached?_forget (s : Session) (uri uri' : Text) :
    (s.forget uri).cached? uri' = if uri' = uri then none else s.cached? uri' := by
  unfold cached? forget
  dsimp only
  induction s.cache with
  | nil => simp
  | cons entry cache ih =>
    by_cases here : entry.1 = uri
    · rw [List.filter_cons_of_neg (by simp [here]), ih, List.lookup_cons, here]
      split
      · rfl
      · rename_i other
        rw [beq_false_of_ne other]
    · rw [List.filter_cons_of_pos (by simp [here]), List.lookup_cons, List.lookup_cons, ih]
      by_cases same : uri' = uri
      · rw [if_pos same, if_pos same, same, beq_false_of_ne (Ne.symm here)]
      · rw [if_neg same, if_neg same]

/-- A call that finds its version kept changes nothing. -/
theorem openDocument_of_cached? {s : Session} {place : Nat}
    (kept : s.cached? uri = some ⟨version, place⟩) (v : Vocabulary) (t : Text) :
    s.openDocument v uri version t = (place, s) := by
  have fits : (s.cached? uri).filter (·.version = version) = some ⟨version, place⟩ := by
    rw [kept]
    simp [Option.filter]
  rw [openDocument, fits]

/-- A call that does not find its version kept makes a new snapshot. -/
theorem openDocument_of_not_cached? {s : Session}
    (not_kept : ∀ place, s.cached? uri ≠ some ⟨version, place⟩) (v : Vocabulary) (t : Text) :
    s.openDocument v uri version t = (s.snapshots.size, s.parse v uri version t) := by
  have none_fits : (s.cached? uri).filter (·.version = version) = none := by
    rw [Option.filter_eq_none_iff]
    rintro ⟨version', place⟩ kept same
    obtain rfl : version' = version := by simpa using same
    exact not_kept place kept
  rw [openDocument, none_fits]

/-- What is kept after a URI was opened: the version and the snapshot that was handed out. -/
theorem cached?_openDocument (s : Session) (uri uri' : Text) (version : Int) (t : Text) :
    (s.openDocument v uri version t).2.cached? uri' =
      if uri' = uri then some ⟨version, (s.openDocument v uri version t).1⟩ else s.cached? uri' := by
  by_cases hit : ∃ place, s.cached? uri = some ⟨version, place⟩
  · obtain ⟨place, kept⟩ := hit
    rw [openDocument_of_cached? kept]
    split
    · rename_i same
      rw [same, kept]
    · rfl
  · rw [openDocument_of_not_cached? (not_exists.mp hit)]
    show ((uri, _) :: (s.forget uri).cache).lookup uri' = _
    by_cases same : uri' = uri
    · simp [same]
    · rw [List.lookup_cons, beq_false_of_ne same, if_neg same]
      exact (cached?_forget s uri uri').trans (if_neg same)

/-- The session after one more call. -/
theorem run_concat (history : List Call) (call : Call) :
    run v (history ++ [call]) = after v (run v history) call := by
  rw [run, List.foldl_append]
  rfl

/-- **What is kept for a URI** is what the last call on it has left there. -/
theorem cached?_run {entry : CacheEntry} : (run v history).cached? uri = some entry ↔
    ∃ before t, LastOpened history uri before entry.version t ∧
      entry.snapshot = answer v before uri entry.version t := by
  induction history using List.reverseRecOn with
  | nil =>
    constructor
    · intro kept
      cases kept
    · rintro ⟨before, t, ⟨later, split, -⟩, -⟩
      simp at split
  | append_singleton history call ih =>
    simp only [run_concat, lastOpened_concat]
    -- Only a call on the URI itself decides what is kept for it.
    by_cases own : call.uri = uri
    · subst own
      cases call with
      | openDocument uri version t =>
        obtain ⟨version', place⟩ := entry
        simp only [after, Call.uri, cached?_openDocument, if_true]
        constructor
        · rintro kept
          obtain ⟨rfl, rfl⟩ := CacheEntry.mk.inj (Option.some.inj kept)
          exact ⟨history, t, ⟨rfl, rfl⟩, rfl⟩
        · rintro ⟨before, t', ⟨same, rfl⟩, rfl⟩
          obtain ⟨-, rfl, rfl⟩ := Call.openDocument.inj same
          rfl
      | forget uri =>
        simp only [after, Call.uri, cached?_forget, if_true]
        constructor
        · intro kept
          cases kept
        · rintro ⟨before, t, ⟨same, -⟩, -⟩
          cases same
    · -- A call on another URI leaves what is kept as it was.
      simp only [if_neg own, ← ih]
      cases call with
      | openDocument other version t =>
        have own : uri ≠ other := Ne.symm own
        rw [after, cached?_openDocument, if_neg own]
      | forget other =>
        have own : uri ≠ other := Ne.symm own
        rw [after, cached?_forget, if_neg own]

/-- Whether a call misses is read off what is kept. -/
theorem misses_iff (v : Vocabulary) : Misses history uri version ↔
    ∀ place, (run v history).cached? uri ≠ some ⟨version, place⟩ := by
  constructor
  · intro misses place kept
    obtain ⟨before, t, opened, -⟩ := cached?_run.mp kept
    exact misses before version t opened rfl
  · rintro none_kept before version' t opened rfl
    exact none_kept (answer v before uri version' t) (cached?_run.mpr ⟨before, t, opened, rfl⟩)

/-- **A call that misses** makes a new snapshot of its own text. -/
theorem openDocument_of_misses (misses : Misses history uri version) (v : Vocabulary) (t : Text) :
    (run v history).openDocument v uri version t =
      ((run v history).snapshots.size, (run v history).parse v uri version t) :=
  openDocument_of_not_cached? ((misses_iff v).mp misses) v t

/-- **A call that hits** gets what the last call on the URI got. -/
theorem openDocument_of_lastOpened (opened : LastOpened history uri before version t') (v : Vocabulary)
    (t : Text) : (run v history).openDocument v uri version t =
      (answer v before uri version t', run v history) :=
  openDocument_of_cached? (cached?_run.mpr ⟨before, t', opened, rfl⟩) v t

/-! ## Snapshots stay -/

/-- A call leaves the snapshots that are there. -/
theorem snapshots_after (s : Session) (call : Call) {place : Nat} (made : place < s.snapshots.size) :
    place < (after v s call).snapshots.size ∧
      (after v s call).snapshots[place]? = s.snapshots[place]? := by
  cases call with
  | forget uri => exact ⟨made, rfl⟩
  | openDocument uri version t =>
    by_cases hit : ∃ place, s.cached? uri = some ⟨version, place⟩
    · obtain ⟨place, kept⟩ := hit
      rw [after, openDocument_of_cached? kept]
      exact ⟨made, rfl⟩
    · rw [after, openDocument_of_not_cached? (not_exists.mp hit)]
      simp only [parse, Array.size_push]
      exact ⟨Nat.lt_succ_of_lt made, Array.getElem?_push_lt made ▸ (Array.getElem?_eq_getElem made).symm⟩

/-- **Snapshots that have been made stay**, whatever is called later. -/
theorem snapshots_run_append (v : Vocabulary) (history later : List Call) {place : Nat}
    (made : place < (run v history).snapshots.size) :
    place < (run v (history ++ later)).snapshots.size ∧
      (run v (history ++ later)).snapshots[place]? = (run v history).snapshots[place]? := by
  induction later using List.reverseRecOn with
  | nil =>
    rw [List.append_nil]
    exact ⟨made, rfl⟩
  | append_singleton later call ih =>
    rw [← List.append_assoc, run_concat]
    have step := snapshots_after (v := v) (run v (history ++ later)) call ih.1
    exact ⟨step.1, step.2.trans ih.2⟩

/-- The snapshots that were there after the last call on a URI are still there. -/
theorem LastOpened.snapshots (opened : LastOpened history uri before version t) {place : Nat}
    (made : place < (run v (before ++ [.openDocument uri version t])).snapshots.size) :
    place < (run v history).snapshots.size ∧ (run v history).snapshots[place]? =
      (run v (before ++ [.openDocument uri version t])).snapshots[place]? := by
  obtain ⟨later, rfl, -⟩ := opened
  have stays := snapshots_run_append v _ later made
  rwa [List.append_assoc, List.singleton_append] at stays

/-! ## What is handed out -/

/-- A call that misses hands out its own text, parsed. -/
theorem handedOut_of_misses (misses : Misses history uri version) (v : Vocabulary) (t : Text) :
    handedOut v history uri version t = some ⟨t, Document.parse v t⟩ := by
  rw [handedOut, run_concat, after, answer, openDocument_of_misses misses]
  simp [parse, Snapshot.of]

/-- What is handed out has been made. -/
theorem answer_lt (v : Vocabulary) (history : List Call) (uri : Text) (version : Int) (t : Text) :
    answer v history uri version t <
      (run v (history ++ [.openDocument uri version t])).snapshots.size := by
  induction history, t using induction_calls uri version with
  | misses history t misses =>
    rw [run_concat, after, answer, openDocument_of_misses misses]
    simp [parse]
  | hits history t before t' opened earlier =>
    -- The snapshot is as old as that of the last call on the URI.
    rw [run_concat, after, answer, openDocument_of_lastOpened opened]
    exact (opened.snapshots earlier).1

/-- A call that hits hands out what the last call on the URI did. -/
theorem handedOut_of_lastOpened (opened : LastOpened history uri before version t') (v : Vocabulary)
    (t : Text) : handedOut v history uri version t = handedOut v before uri version t' := by
  rw [handedOut, run_concat, after, answer, openDocument_of_lastOpened opened]
  exact (opened.snapshots (answer_lt v before uri version t')).2

/-- The latest call that has missed stays the latest one if the next call does not miss. -/
theorem LastMissed.concat (h : LastMissed history uri before version t) {call : Call}
    (hits : ∀ version' t', call = .openDocument uri version' t' → ¬ Misses history uri version') :
    LastMissed (history ++ [call]) uri before version t := by
  refine ⟨h.called.trans (List.prefix_append _ _), h.misses, fun later version' t' called misses => ?_⟩
  rcases List.prefix_concat_iff.mp called with whole | earlier
  · obtain ⟨rfl, same⟩ := List.append_inj' whole rfl
    exact absurd misses (hits version' t' (List.singleton_inj.mp same).symm)
  · exact h.latest later version' t' earlier misses

/-- **A document that is handed out** is the parse of the text that was given in the latest call on the URI
that has missed. That call was made in the same version. -/
theorem exists_lastMissed (v : Vocabulary) (history : List Call) (uri : Text) (version : Int) (t : Text) :
    ∃ before t₀, LastMissed (history ++ [.openDocument uri version t]) uri before version t₀ ∧
      handedOut v history uri version t = some ⟨t₀, Document.parse v t₀⟩ := by
  induction history, t using induction_calls uri version with
  | misses history t misses =>
    refine ⟨history, t, ⟨List.prefix_rfl, misses, fun later version' t' called _ => ?_⟩,
      handedOut_of_misses misses v t⟩
    simpa using called.length_le
  | hits history t before t' opened earlier =>
    obtain ⟨first, t₀, missed, document⟩ := earlier
    refine ⟨first, t₀, LastMissed.concat ?_ ?_, (handedOut_of_lastOpened opened v t).trans document⟩
    · -- Between the two calls there are only calls on other URIs.
      obtain ⟨later, rfl, others⟩ := opened
      induction later using List.reverseRecOn with
      | nil => exact missed
      | append_singleton later call so_far =>
        rw [← List.cons_append, ← List.append_assoc]
        refine (so_far fun c mem => others c (by simp [mem])).concat fun version' t'' same => ?_
        exact absurd (congrArg Call.uri same) (others call (by simp))
    · intro version' t'' same misses
      obtain ⟨-, rfl, -⟩ := Call.openDocument.inj same
      exact misses before version t' opened rfl

/-! ## Other URIs -/

/-- Calls on other URIs do not count for what the last call on a URI was. -/
theorem lastOpened_filter : LastOpened (history.filter (·.uri = uri)) uri before version t ↔
    ∃ before', before'.filter (·.uri = uri) = before ∧ LastOpened history uri before' version t := by
  induction history using List.reverseRecOn with
  | nil =>
    constructor
    · rintro ⟨later, split, -⟩
      simp at split
    · rintro ⟨before', -, later, split, -⟩
      simp at split
  | append_singleton history call ih =>
    rw [List.filter_append]
    by_cases own : call.uri = uri
    · rw [List.filter_cons_of_pos (by simp [own]), List.filter_nil]
      simp only [lastOpened_concat, if_pos own]
      constructor
      · rintro ⟨same, rfl⟩
        exact ⟨history, rfl, same, rfl⟩
      · rintro ⟨before', rfl, same, rfl⟩
        exact ⟨same, rfl⟩
    · rw [List.filter_cons_of_neg (by simp [own]), List.filter_nil, List.append_nil]
      simpa only [lastOpened_concat, if_neg own] using ih

/-- Calls on other URIs do not count for whether a call misses. -/
theorem misses_filter : Misses (history.filter (·.uri = uri)) uri version ↔ Misses history uri version := by
  simp only [Misses, lastOpened_filter]
  constructor
  · intro misses before version' t opened
    exact misses _ version' t ⟨before, rfl, opened⟩
  · rintro misses before version' t ⟨before', -, opened⟩
    exact misses before' version' t opened

/-- **Calls on other URIs do not matter** for the document that is handed out. -/
theorem handedOut_filter (v : Vocabulary) (history : List Call) (uri : Text) (version : Int) (t : Text) :
    handedOut v (history.filter (·.uri = uri)) uri version t = handedOut v history uri version t := by
  induction history, t using induction_calls uri version with
  | misses history t misses =>
    rw [handedOut_of_misses misses, handedOut_of_misses (misses_filter.mpr misses)]
  | hits history t before t' opened earlier =>
    rw [handedOut_of_lastOpened opened,
      handedOut_of_lastOpened (lastOpened_filter.mpr ⟨before, rfl, opened⟩)]
    exact earlier

/-! ## Any run -/

/-- **What a call hands out** after any other calls. -/
structure Transparent (v : Vocabulary) (history : List Call) (uri : Text) (version : Int) (t : Text) :
    Prop where
  /-- The document is the parse of the text that was given in the latest call on the URI that has missed. -/
  document : ∃ before t₀, LastMissed (history ++ [.openDocument uri version t]) uri before version t₀ ∧
    handedOut v history uri version t = some ⟨t₀, Document.parse v t₀⟩
  /-- The snapshot is a new one exactly if the call misses. -/
  misses : (run v history).snapshots.size ≤ answer v history uri version t ↔
    Misses history uri version
  /-- A call that hits gets the very snapshot that the last call on the URI got. -/
  hits : ∀ before t', LastOpened history uri before version t' →
    answer v history uri version t = answer v before uri version t'
  /-- Calls on other URIs do not matter. -/
  others : (Misses (history.filter (·.uri = uri)) uri version ↔ Misses history uri version) ∧
    handedOut v (history.filter (·.uri = uri)) uri version t = handedOut v history uri version t
  /-- What is handed out stays as it is, whatever is called later. -/
  stays : ∀ later, (run v (history ++ .openDocument uri version t :: later)).snapshots[
    answer v history uri version t]? = handedOut v history uri version t
  /-- If no version of a URI is opened with two texts, the document is the parse of the call's own text. -/
  own : OneTextEach (history ++ [.openDocument uri version t]) →
    handedOut v history uri version t = some ⟨t, Document.parse v t⟩

/-- **A session is transparent**: every call of every run hands out the parse of the text of the latest call
on its URI that has missed, and that of its own text if no version of a URI has two texts. -/
theorem openDocument_transparent (v : Vocabulary) (history : List Call) (uri : Text) (version : Int)
    (t : Text) : Transparent v history uri version t where
  document := exists_lastMissed v history uri version t
  misses := by
    constructor
    · intro new
      by_contra hits
      obtain ⟨before, t', opened⟩ := exists_lastOpened hits
      -- The snapshot of the last call on the URI is not new.
      have known := (opened.snapshots (answer_lt v before uri version t')).1
      rw [answer, openDocument_of_lastOpened opened] at new
      exact absurd new (Nat.not_le.mpr known)
    · intro misses
      refine Nat.le_of_eq ?_
      rw [answer, openDocument_of_misses misses]
  hits before t' opened := by
    rw [answer, openDocument_of_lastOpened opened]
  others := ⟨misses_filter, handedOut_filter v history uri version t⟩
  stays later := by
    have stays := (snapshots_run_append v _ later (answer_lt v history uri version t)).2
    rwa [List.append_assoc, List.singleton_append] at stays
  own := by
    intro one_text
    obtain ⟨before, t₀, missed, document⟩ := exists_lastMissed v history uri version t
    -- The call that has missed opened the same version of the URI.
    have same : t₀ = t := one_text uri version t₀ t (missed.called.subset (by simp)) (by simp)
    rw [document, same]

end Session

end MarkupAnalysis
