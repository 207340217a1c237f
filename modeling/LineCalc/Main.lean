import LineCalc.CommandLine

/-!
# The program

Reads the file that the command line names, and writes the answer.
-/

namespace LineCalc

/-- Is this the code of the failure numbered `n`? Opening a file gives the code with a minus sign,
reading one gives it without. -/
def isFailure (n code : UInt32) : Bool := code == n || code == 0 - n

/-- Reads a file, or says why it cannot be read. -/
def readFile (path : String) : IO (Except ReadFailure String) := do
  try
    return textOfBytes (← IO.FS.readBinFile path)
  catch
    | .noFileOrDirectory .. => return .error .notFound
    | .inappropriateType _ code _ =>
      return .error (if isFailure 21 code then .isDirectory else .notDirectory)
    | .invalidArgument _ code _ =>
      return .error <|
        if isFailure 36 code then .nameTooLong else .other "Invalid argument (os error 22)"
    | .permissionDenied .. => return .error (.other "Permission denied (os error 13)")
    | e => return .error (.other (toString e))

end LineCalc

open LineCalc in
def main (args : List String) : IO UInt32 := do
  match ← CommandLine.respond? readFile args with
  | some response =>
    (← IO.getStdout).putStr response.stdout
    (← IO.getStderr).putStr response.stderr
    return UInt32.ofNat response.exit
  | none =>
    (← IO.getStderr).putStr CommandLine.refusedText
    return 2
