/-
The program.

All it does by itself is to read the source that the arguments name and to write the answer.
-/
import EvmSafety.CommandLine

namespace EvmSafety.CommandLine

/-- The refusal behind a failure of the system to read a file. -/
def ReadError.ofSystem : IO.Error → ReadError
  | .noFileOrDirectory .. => .refused "No such file or directory" 2
  | .permissionDenied .. => .refused "Permission denied" 13
  | .inappropriateType (some _) .. => .refused "Not a directory" 20
  | .inappropriateType none .. => .refused "Is a directory" 21
  | cause => .refused cause.toString 5

/-- The bytes of a file, or why there are none. -/
def readFile (path : String) : IO (Except ReadError ByteArray) := do
  try
    return .ok (← IO.FS.readBinFile path)
  catch cause => return .error (.ofSystem cause)

/-- What a source holds. -/
def Source.read : Source → IO (Except ReadError String)
  | .file path => return (← readFile path) >>= textOf
  | .argument text => return .ok text
  | .standardInput => do
    let stdin ← IO.getStdin
    if ← stdin.isTty then return StandardInput.terminal.content
    return StandardInput.content (← stdin.readBinToEnd)

end EvmSafety.CommandLine

open EvmSafety.CommandLine in
/-- Answer the arguments. -/
def main (arguments : List String) : IO UInt32 := do
  let answer ←
    match readArguments {} arguments with
    | .error stop => pure stop.answer
    | .ok options => answerContent options <$> options.source.read
  (← IO.getStdout).putStr answer.stdout
  (← IO.getStderr).putStr answer.stderr
  return answer.status.toUInt32
