/-
Output formats.

The outcome of a check is rendered in one of three formats, chosen by name.
-/
import EvmSafety.Text.Blank

namespace EvmSafety

/-- How the outcome is rendered. -/
inductive Format
  /-- In one line. -/
  | text
  /-- As a listing. -/
  | asm
  /-- As a report. -/
  | json
  deriving DecidableEq, Repr, Inhabited

namespace Format

/-- A text that names no format. -/
structure Unknown where
  /-- The name in its strict form. -/
  name : String
  deriving DecidableEq, Repr

/-- The wording of the refusal. -/
def Unknown.message (refusal : Unknown) : String :=
  "unknown output format '" ++ refusal.name ++ "' (expected text, asm or json)"

/-- Read the name of a format; blanks around it and capital letters are forgiven. -/
def parse (name : String) : Except Unknown Format :=
  let strict := (Text.trimmed name).map Char.toLower
  if strict = "text" then .ok text
  else if strict = "asm" then .ok asm
  else if strict = "json" then .ok json
  else .error ⟨strict⟩

end Format

end EvmSafety
