import MarkupAnalysis.CommandLine.Basic

/-! # Arguments

Arguments are first told apart by their form, and then checked in order, so that the first one that asks
for help or is wrong decides. What stands before a command is told apart on its own: there the first
argument without hyphens is the command, and what follows belongs to it.

* **`Argument`**, **`readArguments`** — the forms.
* **`Settings`**, **`Settings.add`** — what arguments say.
* **`readInvocation`** — the question that arguments ask. -/

namespace MarkupAnalysis.CommandLine

/-! ## Forms -/

/-- An argument by its form. -/
inductive Argument where
  /-- A switch with its value, which is attached by an equals sign or stands apart. -/
  | value (switch : Switch) (value : Text) (isAttached : Bool)
  /-- A switch without value. -/
  | flag (switch : Switch)
  /-- An argument that is no switch. -/
  | operand (word : Text)
  /-- The command, with all that follows it. -/
  | command (word : Text) (rest : List Text)
  /-- An argument of no known form. -/
  | faulty (error : UsageError)
deriving DecidableEq, Repr

/-- Whether the word is a switch by its form; a hyphen alone is not. -/
def isSwitch : Text → Bool
  | '-' :: _ :: _ => true
  | _ => false

/-- What stands before the first equals sign, and what stands behind it. -/
def splitValue (word : Text) : Text × Option Text :=
  (word.takeWhile (· ≠ '='), (word.dropWhile (· ≠ '=')).tail?)

/-- The switches that letters name. -/
def readLetters (accepted : List Switch) : (letters : Text) → List Argument
  | [] => []
  | letter :: letters =>
    match accepted.find? (·.letter? = some letter) with
    | some switch => .flag switch :: readLetters accepted letters
    | none => [.faulty (.unknownSwitch ['-', letter])]

/-- What a word amounts to before the next one is read. -/
inductive Form where
  /-- Whole arguments. -/
  | whole (arguments : List Argument)
  /-- A switch that takes the next word as its value. -/
  | awaiting (switch : Switch)
  /-- The sign that only operands follow. -/
  | terminator
  /-- The command. -/
  | command
deriving DecidableEq, Repr

/-- The form of a word behind two hyphens. -/
def formOfSwitch (accepted : List Switch) (word : Text) : Form :=
  let (name, attached) := splitValue word
  match accepted.find? (·.name.toList = name), attached with
  | none, _ => .whole [.faulty (.unknownSwitch ('-' :: '-' :: word))]
  | some switch, some value =>
    .whole [if switch.takesValue then .value switch value true else .faulty (.unwantedValue switch)]
  | some switch, none => if switch.takesValue then .awaiting switch else .whole [.flag switch]

/-- The form of a word. -/
def formOf (operation : Option Operation) : Text → Form
  | ['-', '-'] => .terminator
  | '-' :: '-' :: word => formOfSwitch (acceptedSwitches operation) word
  | '-' :: letter :: letters => .whole (readLetters (acceptedSwitches operation) (letter :: letters))
  | word => if operation.isNone then .command else .whole [.operand word]

/-- Tells the arguments of a command apart, or those before any command. -/
def readArguments (operation : Option Operation) : List Text → List Argument
  | [] => []
  | word :: words =>
    match formOf operation word with
    | .whole arguments => arguments ++ readArguments operation words
    | .terminator => words.map .operand
    | .command => [.command word words]
    | .awaiting switch =>
      match words with
      | [] => [.faulty (.missingValue switch)]
      | value :: words =>
        if isSwitch value then [.faulty (.missingValue switch)]
        else .value switch value false :: readArguments operation words

/-! ## Meaning -/

/-- What arguments say. -/
structure Settings where
  /-- The path of the configuration. -/
  configuration : Option Text := none
  /-- Whether more diagnostics are asked for. -/
  isVerbose : Bool := false
  /-- Whether the flat outline is asked for. -/
  isFlat : Bool := false
  /-- The offsets. -/
  offsets : List Nat := []
  /-- The path of the file. -/
  path : Option Text := none
deriving DecidableEq, Repr

/-- The number of an offset, which fits into 64 bits. A plus sign may lead. -/
def readOffset? (word : Text) : Option Nat :=
  let digits := match word with
    | '+' :: digits => digits
    | digits => digits
  let offset := digits.foldl (fun n c => n * 10 + (c.toNat - '0'.toNat)) 0
  if !digits.isEmpty && digits.all Char.isDigit && offset < Nat.pow 2 64 then some offset else none

/-- The error as a reason to stop. -/
def refuse (error : UsageError) : Except Stop Settings := .error (.usage error)

/-- Adds what a switch with its value says. Only selection takes several offsets. -/
def Settings.addValue (operation : Option Operation) (s : Settings) (switch : Switch) (value : Text) :
    Except Stop Settings :=
  if switch = .config then
    if s.configuration.isSome then refuse (.repeatedSwitch switch)
    else if value.isEmpty then refuse .emptyPath
    else .ok { s with configuration := value }
  else if !s.offsets.isEmpty && operation ≠ some .select then refuse (.repeatedSwitch switch)
  else
    match readOffset? value with
    | some offset => .ok { s with offsets := s.offsets ++ [offset] }
    | none => refuse (.invalidOffset value)

/-- Adds what a switch without value says. -/
def Settings.addFlag (s : Settings) (switch : Switch) : Except Stop Settings :=
  match switch with
  | .help => .error .help
  | .version => .error .version
  | .verbose => if s.isVerbose then refuse (.repeatedSwitch switch) else .ok { s with isVerbose := true }
  | .flat => if s.isFlat then refuse (.repeatedSwitch switch) else .ok { s with isFlat := true }
  | .config | .offset => refuse (.missingValue switch)

/-- Adds what an argument says. The only operand is the path. -/
def Settings.add (operation : Option Operation) (s : Settings) : Argument → Except Stop Settings
  | .value switch value _ => s.addValue operation switch value
  | .flag switch => s.addFlag switch
  | .operand word =>
    if operation.isNone || s.path.isSome then refuse (.unexpectedArgument word)
    else if word.isEmpty then refuse .emptyPath
    else .ok { s with path := word }
  | .command word _ => refuse (.unknownCommand word)
  | .faulty error => refuse error

/-- The question of a command with its settings. -/
def Operation.question (operation : Operation) (s : Settings) : Except Stop Question :=
  match operation, s.offsets with
  | tokens, offsets => .ok (.tokens (offsets.head?.getD 0))
  | tree, _ => .ok .tree
  | check, _ => .ok .check
  | fold, _ => .ok .fold
  | links, _ => .ok .links
  | symbols, _ => .ok (.symbols s.isFlat)
  | _, [] => .error (.usage .missingOffset)
  | complete, offset :: _ => .ok (.complete offset)
  | select, offsets => .ok (.select offsets)
  | hover, offset :: _ => .ok (.hover offset)
  | pairing, offset :: _ => .ok (.pairing offset)

/-! ## Questions -/

/-- The question of the arguments behind a command. -/
def Operation.readInvocation (operation : Operation) (words : List Text) : Except Stop Invocation := do
  let s ← (readArguments (some operation) words).foldlM (Settings.add (some operation)) {}
  match s.path with
  | some path => pure ⟨s.configuration, path, ← operation.question s⟩
  | none => .error (.usage .missingPath)

/-- The question of a command. The command for help takes the name of at most one command. -/
def readCommand (word : Text) (rest : List Text) : Except Stop Invocation :=
  match Operation.ofName? word with
  | some operation => operation.readInvocation rest
  | none =>
    let isKnown (word : Text) := word = "help".toList || (Operation.ofName? word).isSome
    if word ≠ "help".toList then .error (.usage (.unknownCommand word))
    else
      match rest with
      | [] => .error .help
      | word :: rest =>
        if isKnown word && rest.isEmpty then .error .help else .error (.usage (.unknownCommand word))

/-- Whether an argument is checked only when the next one has been read: its value stands apart. -/
def Argument.isLate : Argument → Bool
  | value _ _ isAttached => !isAttached
  | _ => false

/-- The question that arguments ask. The switches before the command hold unless they are repeated behind
it. If a value stands right before the command, the command is read first. -/
def readInvocation (words : List Text) : Except Stop Invocation := do
  let arguments := readArguments none words
  let add := Settings.add none
  match arguments.getLast? with
  | some (.command word rest) =>
    let arguments := arguments.dropLast
    -- an error of the command comes before one of the value right before it
    let late := arguments.getLast?.toList.filter (·.isLate)
    let early := arguments.take (arguments.length - late.length)
    let s ← early.foldlM add {}
    let i ← readCommand word rest
    let s ← late.foldlM add s
    pure { i with configuration := i.configuration.or s.configuration }
  | _ => do
    let _ ← arguments.foldlM add {}
    .error (.usage .missingCommand)

end MarkupAnalysis.CommandLine
