import MarkupAnalysis.Completion.Complete
import MarkupAnalysis.Completion.Insertion
import MarkupAnalysis.Document.Builder

/-! # Sessions

A session keeps the latest document of each URI. A document is parsed anew only when the version changes
or the URI has been forgotten; until then the same snapshot is handed out again. Snapshots stay what they
are, whatever happens to the URI later.

* **`Snapshot`** — a text with its document.
* **`Session.openDocument`**, **`Session.forget`** — the changes of a session. -/

namespace MarkupAnalysis

/-- A text with its document. -/
structure Snapshot where
  /-- The text. -/
  text : Text
  /-- Its document. -/
  document : Document

/-- The snapshot of a text. -/
def Snapshot.of (v : Vocabulary) (t : Text) : Snapshot := ⟨t, Document.parse v t⟩

/-- What is kept for a URI: the version, and the place of its snapshot. -/
structure CacheEntry where
  /-- The version that was parsed. -/
  version : Int
  /-- The place of the snapshot among all snapshots. -/
  snapshot : Nat
deriving DecidableEq, Repr

/-- The snapshots handed out so far, and which of them are the latest ones. -/
structure Session where
  /-- All snapshots in the order in which they were made. -/
  snapshots : Array Snapshot := #[]
  /-- The latest snapshot of each URI. -/
  cache : List (Text × CacheEntry) := []

namespace Session

/-- What is kept for a URI. -/
def cached? (s : Session) (uri : Text) : Option CacheEntry := s.cache.lookup uri

/-- Forgets a URI; its snapshots stay. -/
def forget (s : Session) (uri : Text) : Session :=
  { s with cache := s.cache.filter (·.1 ≠ uri) }

/-- Makes a new snapshot of a URI. -/
def parse (s : Session) (v : Vocabulary) (uri : Text) (version : Int) (t : Text) : Session :=
  { snapshots := s.snapshots.push (Snapshot.of v t)
    cache := (uri, ⟨version, s.snapshots.size⟩) :: (s.forget uri).cache }

/-- The snapshot of a URI at a version, and the session after it: the one that is kept if the version is
the same, else a new one of the text. -/
def openDocument (s : Session) (v : Vocabulary) (uri : Text) (version : Int) (t : Text) :
    Nat × Session :=
  match (s.cached? uri).filter (·.version = version) with
  | some entry => (entry.snapshot, s)
  | none => (s.snapshots.size, s.parse v uri version t)

end Session

end MarkupAnalysis
