import MarkupAnalysis.Text.Basic

/-! # Commands

What the command line can ask for, and what can be wrong with the way it is asked.

* **`Operation`**, **`Switch`** — the words of the command line.
* **`Question`**, **`Invocation`** — what is asked of a file.
* **`UsageError`** — what can be wrong with the arguments. -/

namespace MarkupAnalysis.CommandLine

/-! ## Words -/

/-- The command that an argument names. -/
inductive Operation where
  /-- Prints the tokens of a file. -/
  | tokens
  /-- Prints the tree of a file. -/
  | tree
  /-- Reports the elements that were never closed. -/
  | check
  /-- Prints the suggestions at an offset. -/
  | complete
  /-- Prints the folding ranges. -/
  | fold
  /-- Prints the selection ranges at offsets. -/
  | select
  /-- Prints the outline. -/
  | symbols
  /-- Prints the links. -/
  | links
  /-- Prints what the vocabulary knows about the name at an offset. -/
  | hover
  /-- Prints the names of the element whose name is at an offset. -/
  | pairing
deriving DecidableEq, Repr

namespace Operation

/-- The word for the command. -/
def name : Operation → String
  | tokens => "tokens"
  | tree => "tree"
  | check => "check"
  | complete => "complete"
  | fold => "fold"
  | select => "select"
  | symbols => "symbols"
  | links => "links"
  | hover => "hover"
  | pairing => "match"

/-- All commands. -/
def all : List Operation :=
  [tokens, tree, check, complete, fold, select, symbols, links, hover, pairing]

/-- The command of a word. -/
def ofName? (word : Text) : Option Operation := all.find? (·.name.toList = word)

end Operation

/-- An argument that starts with hyphens. -/
inductive Switch where
  /-- The path of the configuration. -/
  | config
  /-- More diagnostics. -/
  | verbose
  /-- Asks for help. -/
  | help
  /-- Asks for the version. -/
  | version
  /-- An offset in the file. -/
  | offset
  /-- Asks for the flat outline. -/
  | flat
deriving DecidableEq, Repr

namespace Switch

/-- The word behind two hyphens. -/
def name : Switch → String
  | config => "config"
  | verbose => "verbose"
  | help => "help"
  | version => "version"
  | offset => "offset"
  | flat => "flat"

/-- The letter behind one hyphen. -/
def letter? : Switch → Option Char
  | verbose => some 'v'
  | help => some 'h'
  | version => some 'V'
  | _ => none

/-- Whether a value belongs to the switch. -/
def takesValue : Switch → Bool
  | config | offset => true
  | _ => false

end Switch

/-- The switches that a command takes besides those that every command takes. -/
def Operation.switches : Operation → List Switch
  | tokens | complete | select | hover | pairing => [.offset]
  | symbols => [.flat]
  | tree | check | fold | links => []

/-- The switches that stand behind a command, or before any command. -/
def acceptedSwitches : Option Operation → List Switch
  | none => [.config, .verbose, .help, .version]
  | some operation => [.config, .verbose, .help] ++ operation.switches

/-! ## Questions -/

/-- What is asked of a file. -/
inductive Question where
  /-- Its tokens from an offset on. -/
  | tokens (offset : Nat)
  /-- Its tree. -/
  | tree
  /-- Whether all elements are closed. -/
  | check
  /-- The suggestions at an offset. -/
  | complete (offset : Nat)
  /-- Its folding ranges. -/
  | fold
  /-- The selection ranges at some offsets. -/
  | select (offsets : List Nat)
  /-- Its outline. -/
  | symbols (isFlat : Bool)
  /-- Its links. -/
  | links
  /-- What is known about the name at an offset. -/
  | hover (offset : Nat)
  /-- The names of the element whose name is at an offset. -/
  | pairing (offset : Nat)
deriving DecidableEq, Repr

/-- A question about a file. -/
structure Invocation where
  /-- The path of the configuration, if not the defaults are meant. -/
  configuration : Option Text
  /-- The path of the file. -/
  path : Text
  /-- What is asked of it. -/
  question : Question
deriving DecidableEq, Repr

/-! ## Errors -/

/-- What can be wrong with the arguments. -/
inductive UsageError where
  /-- There is no command. -/
  | missingCommand
  /-- There is no such command. -/
  | unknownCommand (word : Text)
  /-- There is no such switch here. -/
  | unknownSwitch (word : Text)
  /-- The switch lacks its value. -/
  | missingValue (switch : Switch)
  /-- The switch takes no value. -/
  | unwantedValue (switch : Switch)
  /-- The switch may be given only once. -/
  | repeatedSwitch (switch : Switch)
  /-- A path is empty. -/
  | emptyPath
  /-- An offset is no number. -/
  | invalidOffset (word : Text)
  /-- There is no file to ask about. -/
  | missingPath
  /-- The command needs an offset. -/
  | missingOffset
  /-- Nothing more is expected. -/
  | unexpectedArgument (word : Text)
deriving DecidableEq, Repr

/-- The error in words. -/
def UsageError.message : UsageError → Text
  | missingCommand => "a command is required".toList
  | unknownCommand word => "unrecognized command ".toList ++ word
  | unknownSwitch word => "unexpected argument ".toList ++ word
  | missingValue switch => ("a value is required for --" ++ switch.name).toList
  | unwantedValue switch => ("no value is expected for --" ++ switch.name).toList
  | repeatedSwitch switch => ("only one is possible of --" ++ switch.name).toList
  | emptyPath => "a path must not be empty".toList
  | invalidOffset word => "no offset: ".toList ++ word
  | missingPath => "a path is required".toList
  | missingOffset => "an offset is required".toList
  | unexpectedArgument word => "unexpected argument ".toList ++ word

/-- Why the arguments lead to no question. -/
inductive Stop where
  /-- Help is asked for. -/
  | help
  /-- The version is asked for. -/
  | version
  /-- The arguments are wrong. -/
  | usage (error : UsageError)
deriving DecidableEq, Repr

end MarkupAnalysis.CommandLine
