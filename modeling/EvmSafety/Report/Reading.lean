/-
Reading reports.

Reading is more forgiving than writing.  Members with other keys are ignored, the block
entries and the number of routines may be left out, and an object may be given as the list
of its fields in order.  A name from a closed list may stand alone or as the key of an object
with nothing behind it.
-/
import EvmSafety.Json.Parser
import EvmSafety.Report

namespace EvmSafety

namespace Json

/-- The name a value gives: a text, or the only key of an object. -/
def nameWith? (nothing : Json → Bool) : Json → Option String
  | string name => some name
  | object [(name, value)] => if nothing value then some name else none
  | _ => none

/-- Whether a value is null. -/
def isNull : Json → Bool
  | null => true
  | _ => false

/-- Whether a value is null or an object without members. -/
def isNothing : Json → Bool
  | null | object [] => true
  | _ => false

/-- A name that stands alone or with null behind it. -/
def name? (value : Json) : Option String :=
  value.nameWith? isNull

/-- A name that stands alone, or with null or an empty object behind it. -/
def innerName? (value : Json) : Option String :=
  value.nameWith? isNothing

/-- A field that must be there: by its key, or by its place in a list. -/
def required? (key : String) (place : Nat) : Json → Option Json
  | object members => (object members).field? key
  | array items => items[place]?
  | _ => none

/-- A field that may be left out: nothing is found wrong if it is, and what is there must be
readable. -/
def optional? {α : Type} (key : String) (place : Nat) (missing : α) (read : Json → Option α)
    (value : Json) : Option α :=
  match value.required? key place with
  | none => some missing
  | some field => read field

/-- Whether a value is an object, or a list of at most so many fields. -/
def hasFields (count : Nat) : Json → Bool
  | object _ => true
  | array items => decide (items.length ≤ count)
  | _ => false

end Json

/-- Read a fork from its strict name. -/
def Fork.ofJson? (value : Json) : Option Fork :=
  value.name?.bind Fork.ofName?

/-- Read a violation from its two fields. -/
def Violation.ofJson? (value : Json) : Option Violation :=
  if value.hasFields 2 then do
    let offset ← (← value.required? "offset" 0).toCount?
    let kind ← Kind.ofKey? (← (← value.required? "kind" 1).name?)
    return ⟨offset, kind⟩
  else none

namespace Verdict

/-- What is left of a verdict without its status. -/
def body? : Json → Option Json
  | .object members => some (.object members)
  | .array (_ :: items) => some (.array items)
  | _ => none

/-- Read a verdict: its status says which fields it has beside. -/
def ofJson? (value : Json) : Option Verdict := do
  let status ← (← value.required? "status" 0).toText?
  let body ← body? value
  if status = "valid" then
    if body.hasFields 1 then
      return valid (← (← body.required? "max_stack_depth" 0).toCount?)
    else none
  else if status = "invalid" then
    if body.hasFields 2 then
      let offset ← (← body.required? "offset" 0).toCount?
      let kind ← Violation.Kind.ofKey? (← (← body.required? "kind" 1).innerName?)
      return invalid ⟨offset, kind⟩
    else none
  else none

end Verdict

/-- Read a report. -/
def Report.ofJson? (value : Json) : Option Report :=
  if value.hasFields 5 then do
    let fork ← Fork.ofJson? (← value.required? "fork" 0)
    let codeSize ← (← value.required? "code_size" 1).toCount?
    let verdict ← Verdict.ofJson? (← value.required? "verdict" 2)
    let blockEntries ← value.optional? "block_entries" 3 [] Json.toCounts?
    let routines ← value.optional? "routines" 4 0 Json.toCount?
    return { fork, codeSize, verdict, blockEntries, routines }
  else none

/-- Read the text of a report. -/
def Report.parse (text : String) : Option Report :=
  (Json.parse text).bind Report.ofJson?

end EvmSafety
