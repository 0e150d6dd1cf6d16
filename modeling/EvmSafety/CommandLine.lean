/-
The command line.

What the arguments ask for is answered by a value: an exit status and what goes to the two
output streams.  Reading files and writing streams is left to the caller, which is why the
answer to a program cannot depend on where it came from.
-/
import EvmSafety.Check
import EvmSafety.CommandLine.Arguments

namespace EvmSafety

namespace CommandLine

/-! ### Where the program comes from -/

/-- A place to read the program from. -/
inductive Source
  /-- A file. -/
  | file (path : String)
  /-- The argument itself. -/
  | argument (text : String)
  /-- The standard input. -/
  | standardInput
  deriving DecidableEq, Repr

/-- A file comes before an argument, and an argument before the standard input. -/
def Options.source (options : Options) : Source :=
  match options.file, options.bytecode with
  | some path, _ => .file path
  | none, some text => .argument text
  | none, none => .standardInput

/-- Why a source cannot be read. -/
inductive ReadError
  /-- The bytes are no text. -/
  | notText
  /-- Somebody sits at the standard input. -/
  | terminal
  /-- The system refuses, with a wording and a number of its own. -/
  | refused (wording : String) (number : Nat)
  deriving DecidableEq, Repr

/-- The wording of a refusal. -/
def ReadError.message : ReadError → String
  | notText => "stream did not contain valid UTF-8"
  | terminal => "no bytecode provided; pass it as an argument, via -f, or pipe to stdin"
  | refused wording number => s!"{wording} (os error {number})"

/-- The text that bytes spell. -/
def textOf (bytes : ByteArray) : Except ReadError String :=
  match String.fromUTF8? bytes with
  | some text => .ok text
  | none => .error .notText

/-! ### The answer -/

/-- An exit status and what goes to the two streams. -/
structure Answer where
  /-- The exit status. -/
  status : Nat
  /-- What goes to the standard output. -/
  stdout : String
  /-- What goes to the standard error. -/
  stderr : String
  deriving DecidableEq, Repr

/-- Fail with a message, and with its cause if there is one. -/
def fail (message : String) (cause : Option String) : Answer :=
  let tail :=
    match cause with
    | some cause => "\n\nCaused by:\n    " ++ cause
    | none => ""
  { status := 1, stdout := "", stderr := "Error: " ++ message ++ tail ++ "\n" }

/-- How the arguments are written. -/
def usageLine : String := "Usage: jumpguard [OPTIONS] [BYTECODE]\n"

/-- The answer to a question for help. -/
def helpText : String :=
  "Static validator for EVM bytecode: rejects code that could halt on a bad jump or stack error\n"
    ++ "\n"
    ++ usageLine
    ++ "\n"
    ++ "Arguments:\n"
    ++ "  [BYTECODE]  Bytecode as a hex string (with or without 0x prefix)\n"
    ++ "\n"
    ++ "Options:\n"
    ++ "  -f, --file <FILE>       Read bytecode from a file instead\n"
    ++ "  -o, --format <FORMAT>   Output format: text (default), asm, json [default: text]\n"
    ++ "      --fork <FORK>       Hard fork whose instruction set applies [default: prague]\n"
    ++ "      --max-size <BYTES>  Largest accepted program, in bytes [default: 24576]\n"
    ++ "      --no-color          Disable coloured output\n"
    ++ "  -h, --help              Print help\n"
    ++ "  -V, --version           Print version\n"

/-- The answer to a question for the version. -/
def versionText : String := "jumpguard 0.1.0\n"

/-- The answer when reading the arguments ended early. -/
def Stop.answer : Stop → Answer
  | mistake => { status := 2, stdout := "", stderr := usageLine }
  | help => { status := 0, stdout := helpText, stderr := "" }
  | version => { status := 0, stdout := versionText, stderr := "" }

/-- The check that options ask for, in a format. -/
def Options.settings (options : Options) (format : Format) : Check.Settings where
  fork := options.fork.getD .latest
  format := format
  color := !options.noColor
  limit := options.limit.getD defaultLimit

/-- The answer to a program. -/
def answerProgram (options : Options) (text : String) : Answer :=
  let program := Text.trimmed text
  if program.isEmpty then fail "empty bytecode" none
  else
    match Format.parse (options.format.getD "text") with
    | .error refusal => fail refusal.message none
    | .ok format =>
      match Check.run (options.settings format) program with
      | .error cause => fail "failed to load bytecode" (some cause.message)
      | .ok check =>
        { status := if check.report.isValid then 0 else 1
          stdout := check.text ++ "\n"
          stderr := "" }

/-- The answer to what a source holds. -/
def answerContent (options : Options) (content : Except ReadError String) : Answer :=
  match content, options.source with
  | .ok text, _ => answerProgram options text
  | .error cause, .file path => fail ("cannot read " ++ path) (some cause.message)
  | .error cause, _ => fail cause.message none

/-- What the standard input is connected to. -/
inductive StandardInput
  /-- A stream of bytes that ends. -/
  | stream (bytes : ByteArray)
  /-- A terminal, which nothing is read from. -/
  | terminal

instance : Coe ByteArray StandardInput where
  coe := .stream

/-- What can be read from outside. -/
structure Surroundings where
  /-- The bytes of a file. -/
  file : String → Except ReadError ByteArray
  /-- The standard input. -/
  standardInput : StandardInput

/-- What the standard input holds. -/
def StandardInput.content : StandardInput → Except ReadError String
  | stream bytes => textOf bytes
  | terminal => .error .terminal

/-- What a source holds. -/
def Source.content (surroundings : Surroundings) : Source → Except ReadError String
  | file path => surroundings.file path >>= textOf
  | argument text => .ok text
  | standardInput => surroundings.standardInput.content

/-- The answer to arguments. -/
def answer (surroundings : Surroundings) (arguments : List String) : Answer :=
  match readArguments {} arguments with
  | .error stop => stop.answer
  | .ok options => answerContent options (options.source.content surroundings)

end CommandLine

end EvmSafety
