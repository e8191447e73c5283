import MarkupAnalysis.Proofs.Document.Order
import MarkupAnalysis.Proofs.Token.Restart

/-! # Taking up the scan of a document

The tokens from some place of a text on can be had without those before it: where nothing is remembered
of a tag, and at the start of each element.

* **`Tokenizer.tokens_of_startTagOpen`** — the `<` of a start tag may be read in the content.
* **`Document.Resumable`** — where the scan of a text can be taken up.
* **`text_resumable`** — every text can be taken up there. -/

namespace MarkupAnalysis

open Text

namespace Tokenizer

variable {s s' : Tokenizer} {v : Vocabulary} {t : Text} {pseudoClose : Bool}

/-- A scan of the text with these settings that has not handed out `eof` yet. -/
structure Scans (v : Vocabulary) (t : Text) (pseudoClose : Bool) (s : Tokenizer) : Prop where
  here : s.At t
  vocabulary : s.vocabulary = v
  pseudoClose : s.pseudoClose = pseudoClose
  fresh : s.finished = false

/-- A scan from any offset. -/
theorem scans_start (v : Vocabulary) (t : Text) (offset : Nat) (pseudoClose : Bool) :
    ((start v t offset).withPseudoClose pseudoClose).Scans v t pseudoClose := by
  refine ⟨at_start v t offset, ?_, rfl, ?_⟩
  · show (start v t offset).vocabulary = v
    unfold start
    split <;> rfl
  · show (start v t offset).finished = false
    unfold start
    split <;> rfl

/-- A step stays in the scan. -/
theorem Scans.rest (h : s.Scans v t pseudoClose) : s.rest.Scans v t pseudoClose :=
  ⟨h.here.rest, h.vocabulary, h.pseudoClose, h.fresh⟩

/-- Any number of steps stays in the scan. -/
theorem Scans.iterate (h : s.Scans v t pseudoClose) (n : Nat) :
    (Tokenizer.rest^[n] s).Scans v t pseudoClose := by
  induction n generalizing s with
  | zero => exact h
  | succ n ih => exact ih h.rest

/-- What is started anew in the scan. -/
theorem Scans.restarted_eq (h : s.Scans v t pseudoClose) :
    s.restarted t = ((start v t s.position).withMode s.mode).withPseudoClose pseudoClose := by
  rw [restarted, h.vocabulary, h.pseudoClose]

/-- The `<` of a start tag is read as in the content: no body of an embedded element begins with it. -/
theorem reading_of_startTagOpen (h : s.token.kind = .startTagOpen) :
    s.reading = readContent s.memory s.ahead ∧ s.rest.mode = .startTagOpened := by
  have some_ahead : s.ahead ≠ [] := ahead_ne_nil h (by decide)
  have reads := reads some_ahead
  have kind : s.reading.kind = .startTagOpen := h
  rw [h] at reads
  rw [reading_eq some_ahead] at kind ⊢
  generalize s.rest.mode = next at reads
  generalize s.mode = mode at reads kind
  cases reads with
  | startTagOpens outside =>
    refine ⟨?_, rfl⟩
    cases mode with
    | content => rfl
    | embeddedContent =>
      simp only [readToken, readEmbeddedContent] at kind ⊢
      split at kind
      · cases kind
      · rename_i empty
        rw [if_neg empty]
    | _ => simp [Mode.betweenTags] at outside

/-- **A scan can be taken up at a start tag**: after its `<` all that is remembered is replaced. -/
theorem tokens_of_startTagOpen (h : s.token.kind = .startTagOpen) (m : TagMemory) :
    { s with mode := .content, memory := m }.token = s.token ∧
      { s with mode := .content, memory := m }.tokens = s.tokens := by
  set s' : Tokenizer := { s with mode := .content, memory := m }
  have some_ahead : s.ahead ≠ [] := ahead_ne_nil h (by decide)
  have reading : s.reading.Alike s.ahead s'.reading := by
    have here : s'.reading = readContent m s.ahead := reading_eq (s := s') some_ahead
    rw [(reading_of_startTagOpen h).1, here]
    exact readContent_alike s.memory m s.ahead
  have same : s' = { s with mode := s'.mode, memory := s'.memory } := rfl
  obtain ⟨token, rest⟩ := alike_rest_of_reading same reading
  refine ⟨token, ?_⟩
  rw [tokens_of_ahead_ne_nil some_ahead, tokens_of_ahead_ne_nil (s := s') some_ahead, token,
    rest.tokens]

end Tokenizer

open Tokenizer

/-- **Where the scan of a text can be taken up.** -/
structure Document.Resumable (v : Vocabulary) (t : Text) : Prop where
  /-- After any number of tokens from any offset, where nothing is remembered of a tag that is being
  read. -/
  between : ∀ offset pseudoClose n,
    let s := rest^[n] ((start v t offset).withPseudoClose pseudoClose)
    s.mode.restartable →
      s.SameScan (((start v t s.position).withMode s.mode).withPseudoClose pseudoClose)
  /-- At the start of each element of the document, whose `<` comes next. -/
  element : ∀ id < (parse v t).nodes.size, id ≠ root →
    let s := (start v t ((parse v t).node id).start).withPseudoClose true
    s.token.kind = .startTagOpen ∧ ∃ passed, tokensOf v t = passed ++ s.tokens

/-- Each element starts at the `<` of a start tag. -/
theorem Document.exists_startTagOpen {v : Vocabulary} {t : Text} {id : NodeId}
    (inside : id < (parse v t).nodes.size) (off_root : id ≠ root) :
    ∃ token ∈ tokensOf v t, token.kind = .startTagOpen ∧
      token.span.start = ((parse v t).node id).start := by
  have starts := starts_parse v t
  obtain ⟨n, rfl⟩ := Nat.exists_eq_succ_of_ne_zero off_root
  have entry := congrArg (·[n + 1]?) starts
  simp only [List.getElem?_map, List.getElem?_cons_succ, Array.getElem?_toList,
    Array.getElem?_eq_getElem inside, Option.map_some] at entry
  obtain ⟨token, found, same⟩ := Option.map_eq_some_iff.mp entry.symm
  have mem := List.mem_of_getElem? found
  rw [List.mem_filter, decide_eq_true_eq] at mem
  refine ⟨token, mem.1, mem.2, ?_⟩
  rw [same, node, Array.getElem?_eq_getElem inside]
  rfl

/-- The scan that starts at an element goes on as the scan of the document does there. -/
theorem Document.tokens_from_element {v : Vocabulary} {t : Text} {id : NodeId}
    (inside : id < (parse v t).nodes.size) (off_root : id ≠ root) :
    let s := (start v t ((parse v t).node id).start).withPseudoClose true
    s.token.kind = .startTagOpen ∧ ∃ passed, tokensOf v t = passed ++ s.tokens := by
  intro s'
  obtain ⟨token, mem, kind, start⟩ := exists_startTagOpen inside off_root
  obtain ⟨passed, after, split⟩ := List.mem_iff_append.mp mem
  obtain ⟨s, passes, rfl, further⟩ := passes_of_tokens_eq split
  have scans : s.Scans v t true :=
    passes.preserves (P := Scans v t true) (fun _ _ => Scans.rest) (scans_start v t 0 true)
  -- The scan of the document may stand there in another mode and remember a tag; `<` replaces both.
  have restarted : s' = { s with mode := .content, memory := {} } := by
    have position : s.position = ((parse v t).node id).start := start
    show (Tokenizer.start v t ((parse v t).node id).start).withPseudoClose true = _
    rw [← position, start_position scans.here, withPseudoClose, ← scans.vocabulary,
      ← scans.pseudoClose, ← scans.fresh]
  obtain ⟨token, tokens⟩ := tokens_of_startTagOpen kind {}
  rw [restarted]
  refine ⟨token ▸ kind, passed, ?_⟩
  rw [tokens, further]
  exact split

/-- **Every text can be taken up** between tags, after opening brackets, in end tags, comments and
declarations, and at each of its elements. -/
theorem text_resumable (v : Vocabulary) (t : Text) : Document.Resumable v t where
  between := by
    intro offset pseudoClose n s mode
    have scans : s.Scans v t pseudoClose := (scans_start v t offset pseudoClose).iterate n
    rw [← scans.restarted_eq]
    exact sameScan_restarted scans.here scans.fresh mode
  element _ := Document.tokens_from_element

end MarkupAnalysis
