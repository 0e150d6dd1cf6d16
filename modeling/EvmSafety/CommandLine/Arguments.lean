/-
Arguments.

Arguments are read from left to right and the first thing that ends the reading wins: a
mistake, a question for help, or a question for the version.  What is read otherwise says
where the program comes from and how to check it.  Every option may be given once.
-/
import EvmSafety.Fork
import EvmSafety.Text.Decimal

namespace EvmSafety

namespace CommandLine

/-! ### Options -/

/-- An option that takes a value. -/
inductive Parameter
  /-- The file to read. -/
  | file
  /-- The output format. -/
  | format
  /-- The fork. -/
  | fork
  /-- The largest program allowed. -/
  | maxSize
  deriving DecidableEq, Repr

/-- The option of a long name. -/
def Parameter.ofLong? : String → Option Parameter
  | "file" => some file
  | "format" => some format
  | "fork" => some fork
  | "max-size" => some maxSize
  | _ => none

/-- The option of a letter. -/
def Parameter.ofShort? : Char → Option Parameter
  | 'f' => some file
  | 'o' => some format
  | _ => none

/-- What the arguments ask for; an option that was not given is missing. -/
structure Options where
  /-- The program, given as an argument. -/
  bytecode : Option String := none
  /-- The file to read the program from. -/
  file : Option String := none
  /-- The name of the output format. -/
  format : Option String := none
  /-- The fork. -/
  fork : Option Fork := none
  /-- The largest program allowed. -/
  limit : Option Nat := none
  /-- Whether colours are switched off. -/
  noColor : Bool := false
  deriving DecidableEq, Repr, Inhabited

/-- Why reading arguments ends early. -/
inductive Stop
  /-- The arguments make no sense. -/
  | mistake
  /-- Help was asked for. -/
  | help
  /-- The version was asked for. -/
  | version
  deriving DecidableEq, Repr

/-- Give a field a value, once only. -/
def once {α : Type} (old : Option α) (new : α) : Except Stop (Option α) :=
  match old with
  | none => .ok (some new)
  | some _ => .error .mistake

namespace Options

/-- Set an option to a value. -/
def set (options : Options) (value : String) : Parameter → Except Stop Options
  | .file => return { options with file := ← once options.file value }
  | .format => return { options with format := ← once options.format value }
  | .fork =>
    match Fork.parse value with
    | .ok fork => return { options with fork := ← once options.fork fork }
    | .error _ => .error .mistake
  | .maxSize =>
    match Decimal.toCount? value.toList with
    | some limit => return { options with limit := ← once options.limit limit }
    | none => .error .mistake

/-- Take an argument as the program. -/
def setBytecode (options : Options) (text : String) : Except Stop Options :=
  return { options with bytecode := ← once options.bytecode text }

/-- Switch colours off. -/
def setNoColor (options : Options) : Except Stop Options :=
  if options.noColor then .error .mistake else .ok { options with noColor := true }

end Options

/-! ### Arguments -/

/-- What one argument is. -/
inductive Argument
  /-- The mark behind which everything is taken as it is. -/
  | endOfOptions
  /-- An option by its long name, perhaps with a value attached. -/
  | long (name : String) (value : Option String)
  /-- An option by its letter, with what follows the letter. -/
  | short (letter : Char) (rest : List Char)
  /-- Anything else. -/
  | plain
  deriving DecidableEq, Repr

/-- Tell what an argument is by its dashes; a single dash alone is nothing special. -/
def Argument.of (text : String) : Argument :=
  match text.toList with
  | ['-', '-'] => endOfOptions
  | '-' :: '-' :: body =>
    match body.span (· ≠ '=') with
    | (name, _ :: value) => long (String.ofList name) (some (String.ofList value))
    | (name, []) => long (String.ofList name) none
  | '-' :: letter :: rest => short letter rest
  | _ => plain

/-- Whether an argument can stand behind an option as its value. -/
def isValue (text : String) : Bool :=
  Argument.of text = .plain

/-- The value attached to a letter: what follows it, without one equals sign in front. -/
def attached : List Char → String
  | '=' :: value => String.ofList value
  | value => String.ofList value

/-- An option without a value. -/
def readFlag (options : Options) (name : String) (value : Option String) :
    Except Stop Options :=
  match name, value with
  | "no-color", none => options.setNoColor
  | "help", none => .error .help
  | "version", none => .error .version
  | _, _ => .error .mistake

/-- Take all arguments as they are. -/
def readPlain (options : Options) : List String → Except Stop Options
  | [] => .ok options
  | text :: rest => do readPlain (← options.setBytecode text) rest

/-- Read arguments from left to right. -/
def readArguments (options : Options) : List String → Except Stop Options
  | [] => .ok options
  | text :: rest =>
    match Argument.of text with
    | .endOfOptions => readPlain options rest
    | .plain => do readArguments (← options.setBytecode text) rest
    | .long name value =>
      match Parameter.ofLong? name, value, rest with
      | some parameter, some value, rest => do
        readArguments (← options.set value parameter) rest
      | some parameter, none, value :: rest =>
        if isValue value then do readArguments (← options.set value parameter) rest
        else .error .mistake
      | some _, none, [] => .error .mistake
      | none, value, rest => do readArguments (← readFlag options name value) rest
    | .short letter more =>
      match Parameter.ofShort? letter, more, rest with
      | some parameter, c :: more, rest => do
        readArguments (← options.set (attached (c :: more)) parameter) rest
      | some parameter, [], value :: rest =>
        if isValue value then do readArguments (← options.set value parameter) rest
        else .error .mistake
      | some _, [], [] => .error .mistake
      | none, _, _ =>
        if letter = 'h' then .error .help
        else if letter = 'V' then .error .version
        else .error .mistake
termination_by args => args.length

end CommandLine

end EvmSafety
