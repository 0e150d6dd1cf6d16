/-
Checks.

A check takes a program as text, validates it and renders the outcome: in one line, as a
listing with that line as its last comment, or as a report.  The rendering has no say in the
outcome.
-/
import EvmSafety.Buffer
import EvmSafety.Format
import EvmSafety.Listing
import EvmSafety.Report
import EvmSafety.Text.Colour

namespace EvmSafety

/-- How a check is made and rendered. -/
structure Check.Settings where
  /-- The fork whose instruction set applies. -/
  fork : Fork := .latest
  /-- How the outcome is rendered. -/
  format : Format := .text
  /-- Whether the line may be coloured. -/
  color : Bool := true
  /-- The largest program allowed. -/
  limit : Nat := defaultLimit
  deriving DecidableEq, Repr

/-- The outcome of a check. -/
structure Check where
  /-- The rendered outcome. -/
  text : String
  /-- The report. -/
  report : Report
  deriving DecidableEq, Repr

namespace Check

/-- The outcome in one line. -/
def summary (code : Code) (report : Report) : String :=
  match report.verdict with
  | .valid depth =>
    s!"valid: max stack depth {depth}, {report.blockEntries.length} blocks, "
      ++ s!"{report.routines} subroutines"
  | .invalid violation => s!"invalid: {violation.text} ({code.mnemonic violation.offset})"

/-- The colour of a verdict. -/
def colour : Verdict → Colour
  | .valid _ => .green
  | .invalid _ => .red

/-- The outcome in a format. -/
def render (settings : Settings) (code : Code) (report : Report) : String :=
  match settings.format with
  | .text =>
    let line := summary code report
    if settings.color then Colour.wrap (colour report.verdict).code line else line
  | .asm => "\n".intercalate (code.listing ++ ["; " ++ summary code report])
  | .json => report.pretty

/-- Take a program that is not empty. -/
def loadProgram (limit : Nat) (text : String) : Except Unloadable (Array UInt8) :=
  match Buffer.load text { limit } with
  | .error cause _ => .error cause
  | .ok () buffer => if buffer.bytes.isEmpty then .error .empty else .ok buffer.bytes

/-- Check a program that is loaded. -/
def ofCode (settings : Settings) (code : Code) : Check :=
  let report := Report.ofResult code code.validate
  { text := render settings code report, report }

/-- Check a program given as text. -/
def run (settings : Settings) (text : String) : Except Unloadable Check := do
  let bytes ← loadProgram settings.limit text
  return ofCode settings (Code.ofBytes bytes settings.fork)

/-- What happens during a check, in order. -/
def events (settings : Settings) (text : String) : List Event :=
  match Buffer.load text { limit := settings.limit } with
  | .error _ _ => []
  | .ok () buffer =>
    .loaded buffer.bytes.size ::
      if buffer.bytes.isEmpty then []
      else (Code.ofBytes buffer.bytes settings.fork).validation.events

/-- The wording of a failed check, with its cause. -/
def failure (cause : Unloadable) : String :=
  "failed to load bytecode: " ++ cause.message

end Check

end EvmSafety
