import MarkupAnalysis.CommandLine.Run

/-! # The program

Runs the command line on the files of the machine. -/

open MarkupAnalysis

/-- The cause of an error of the system. -/
def readErrorOf : IO.Error → ReadError
  | .noFileOrDirectory _ _ _ => .notFound
  | .inappropriateType _ code _ => if code = 21 then .isDirectory else .notDirectory
  | .invalidArgument _ code details =>
    if code = 36 then .nameTooLong else .other s!"{details} (os error {code})"
  | .permissionDenied _ code details => .other s!"{details} (os error {code})"
  | error => .other (toString error)

/-- The content of a file of the machine. -/
def readMachineFile (path : Text) : IO (Except ReadError Text) := do
  try
    let bytes ← IO.FS.readBinFile (String.ofList path)
    pure <| match String.fromUTF8? bytes with
      | some content => .ok content.toList
      | none => .error .invalidText
  catch error => pure (.error (readErrorOf error))

/-- The absolute path of something on the machine. -/
def canonicalMachinePath (path : Text) : IO (Except ReadError Text) := do
  try
    let place ← IO.FS.realPath (String.ofList path)
    pure (.ok place.toString.toList)
  catch error => pure (.error (readErrorOf error))

/-- The files of the machine. -/
def machineFiles : Files IO := ⟨readMachineFile, canonicalMachinePath⟩

/-- Runs the program. -/
def main (words : List String) : IO UInt32 := do
  let outcome ← CommandLine.run machineFiles (words.map String.toList)
  (← IO.getStdout).putStr (String.ofList outcome.output)
  (← IO.getStderr).putStr (String.ofList outcome.diagnostics)
  pure (UInt32.ofNat outcome.exitCode)
