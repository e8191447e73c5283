import MarkupAnalysis.CommandLine.Arguments
import MarkupAnalysis.Completion.Complete
import MarkupAnalysis.Configuration.Load
import MarkupAnalysis.Document.Builder
import MarkupAnalysis.Folding.Limit
import MarkupAnalysis.Pairing
import MarkupAnalysis.Report
import MarkupAnalysis.Selection
import MarkupAnalysis.Token.Tokenizer

/-! # Running commands

A run asks for files, answers one question about one of them, and ends in an exit code with what is
printed. The configuration and its data sets are read before the file itself.

* **`Outcome`** — how a run ends.
* **`answer`** — the answer to a question in JSON.
* **`checkReport`** — the report on elements that were never closed.
* **`run`** — a whole run. -/

namespace MarkupAnalysis.CommandLine

/-- How a run ends. -/
structure Outcome where
  /-- The exit code: `0` for success, `1` for a failure, `2` for wrong arguments. -/
  exitCode : Nat
  /-- What is printed as the answer. -/
  output : Text := []
  /-- What is printed besides it. -/
  diagnostics : Text := []
deriving DecidableEq, Repr

/-- Lines, each with its end. -/
def unlines (lines : List Text) : Text := lines.flatMap (· ++ ['\n'])

/-! ## Failures -/

/-- Why a question cannot be answered. -/
inductive Failure where
  /-- There is no configuration. -/
  | configuration (path : Text) (error : LoadError)
  /-- There is no vocabulary. -/
  | vocabulary (error : LoadError)
  /-- The file cannot be read. -/
  | source (path : Text) (cause : ReadError)
  /-- The file has no absolute path. -/
  | location (path : Text) (cause : ReadError)
deriving DecidableEq, Repr

/-- What was tried. -/
def Failure.attempt : Failure → Text
  | configuration path _ => "loading ".toList ++ path
  | vocabulary _ => "building vocabulary".toList
  | source path _ => "reading ".toList ++ path
  | location path _ => "resolving ".toList ++ path

/-- What an error goes back to. -/
def causesOf (message : Text) : LoadError → List Text
  | .unreadable _ cause => [message, cause.message.toList]
  | .malformed => [message]

/-- What it goes back to. -/
def Failure.causes : Failure → List Text
  | configuration _ error => causesOf (Configuration.loadMessage error) error
  | vocabulary error => causesOf (VocabularyOptions.loadMessage error) error
  | source _ cause => [cause.message.toList]
  | location _ cause => [cause.message.toList]

/-- The causes, numbered if there are several. -/
def causeLines (causes : List Text) : List Text :=
  match causes with
  | [cause] => ["    ".toList ++ cause]
  | causes => causes.mapIdx fun i cause => "    ".toList ++ Nat.toDigits 10 i ++ ": ".toList ++ cause

/-- The end of a run that fails. -/
def Failure.outcome (f : Failure) : Outcome where
  exitCode := 1
  diagnostics :=
    unlines (["Error: ".toList ++ f.attempt, [], "Caused by:".toList] ++ causeLines f.causes)

/-- How the program is called. -/
def usageText : Text :=
  unlines <|
    ["Usage: xsml [--config <CONFIG>] [--verbose] <COMMAND> <PATH> [OPTIONS]".toList, [],
      "Commands:".toList]
    ++ Operation.all.map (fun operation => "  ".toList ++ operation.name.toList)
    ++ ["  help".toList]

/-- The end of a run without a question. -/
def Stop.outcome : Stop → Outcome
  | help => { exitCode := 0, output := usageText }
  | version => { exitCode := 0, output := unlines ["xsml 0.7.0".toList] }
  | usage error =>
    { exitCode := 2, diagnostics := unlines ["error: ".toList ++ error.message, []] ++ usageText }

/-! ## Answers -/

/-- The answer to a question about a text. -/
def answer (v : Vocabulary) (c : Configuration) (t uri : Text) (question : Question) : Json :=
  let d := Document.parse v t
  match question with
  | .tokens offset => .ofList Token.toJson (tokenize v t offset)
  | .tree => d.toJson
  | .check => .ofList Json.ofNat d.unclosed
  | .complete offset =>
    match d.complete t v c.completion offset with
    | .ok suggestions => .ofList Suggestion.toJson suggestions
    | .error _ => .null
  | .fold => .ofList FoldingRange.toJson (d.foldingRanges t c.folding.rangeLimit)
  | .select offsets => .ofList (.ofList Span.toJson) (d.selectionRanges offsets)
  | .symbols isFlat =>
    if isFlat then .ofList FlatSymbol.toJson d.flatSymbols else .ofList Symbol.toJson d.symbols
  | .links => .ofList Link.toJson (d.links t v (.ofUri uri))
  | .hover offset => .ofOption Hover.toJson (d.hover v offset)
  | .pairing offset => .record
    [("matching", .ofOption Document.MatchingTag.toJson (d.matchingTag offset)),
      ("linked_editing",
        .ofOption (fun (a, b) => .ofList Span.toJson [a, b]) (d.linkedRanges offset))]

/-- The decimal digits of a number. -/
def decimal (n : Nat) : Text := Nat.toDigits 10 n

/-- The line that reports an element. Lines and columns are counted from one, columns in bytes. -/
def unclosedLine (path : Text) (lines : Lines) (n : Node) : Text :=
  let line := lines.lineOf n.start
  let column := n.start - (lines.lineStart? line).getD 0
  path ++ [':'] ++ decimal (line + 1) ++ [':'] ++ decimal (column + 1) ++ ": <".toList
    ++ n.tag.getD [] ++ "> is never closed".toList

/-- The report on the elements of a text that were never closed. The run fails if there are any. -/
def checkReport (v : Vocabulary) (path t : Text) : Outcome :=
  let d := Document.parse v t
  let lines := Lines.of t
  match d.unclosed with
  | [] => { exitCode := 0, diagnostics := unlines ["OK: ".toList ++ path] }
  | ids =>
    { exitCode := 1
      diagnostics := unlines <|
        ids.map (fun id => unclosedLine path lines (d.node id))
          ++ [decimal ids.length ++ " unclosed element(s) in ".toList ++ path] }

/-! ## Runs -/

/-- The URI of a file. -/
def fileUri (path : Text) : Text :=
  let path := path.map fun c => if c = '\\' then '/' else c
  "file://".toList ++ (if Path.isAbsolute path then path else '/' :: path)

variable {m : Type → Type} [Monad m]

/-- A step of a run, whose error is a failure. -/
def attempt {ε α : Type} (failure : ε → Failure) (step : m (Except ε α)) : ExceptT Failure m α :=
  ExceptT.mk do pure ((← step).mapError failure)

/-- The configuration of a run. -/
def loadConfiguration (files : Files m) : Option Text → ExceptT Failure m Configuration
  | some path => attempt (.configuration path) (Configuration.load files path)
  | none => pure {}

/-- Answers a question. -/
def execute (files : Files m) (i : Invocation) : ExceptT Failure m Outcome := do
  let c ← loadConfiguration files i.configuration
  let v := (← attempt .vocabulary (c.vocabulary.load files)).toVocabulary
  let t ← attempt (.source i.path) (files.read i.path)
  match i.question with
  | .check => pure (checkReport v i.path t)
  | .links =>
    let path ← attempt (.location i.path) (files.canonical i.path)
    pure { exitCode := 0, output := (answer v c t (fileUri path) .links).write ++ ['\n'] }
  | question => pure { exitCode := 0, output := (answer v c t [] question).write ++ ['\n'] }

/-- Runs the program on its arguments. -/
def run (files : Files m) (words : List Text) : m Outcome :=
  match readInvocation words with
  | .error stop => pure stop.outcome
  | .ok i => do
    match ← (execute files i).run with
    | .ok outcome => pure outcome
    | .error failure => pure failure.outcome

end MarkupAnalysis.CommandLine
