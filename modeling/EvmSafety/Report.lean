/-
Reports.

A report is what is kept of the check of one program.  It is written as a JSON object in two
ways: as the record that it is, with the fields in order, and as an object put together by hand,
which like every object that is built that way keeps its members sorted.
-/
import EvmSafety.Json.Printer
import EvmSafety.Validation

namespace EvmSafety

/-- The outcome of the check of one program. -/
structure Report where
  /-- The fork it was checked at. -/
  fork : Fork
  /-- How many bytes it has. -/
  codeSize : Nat
  /-- How the check ended. -/
  verdict : Verdict
  /-- The block entries that are reached, ascending; none for a rejected program. -/
  blockEntries : List Nat := []
  /-- How many subroutines are entered; none for a rejected program. -/
  routines : Nat := 0
  deriving DecidableEq, Repr

/-- The fields of a verdict in order. -/
def Verdict.toJson : Verdict → Json
  | valid depth => .object [("status", .string "valid"), ("max_stack_depth", .ofNat depth)]
  | invalid violation =>
    .object [("status", .string "invalid"), ("offset", .ofNat violation.offset),
      ("kind", .string violation.kind.key)]

/-- The fields of a violation in order. -/
def Violation.toJson (violation : Violation) : Json :=
  .object [("offset", .ofNat violation.offset), ("kind", .string violation.kind.key)]

namespace Report

/-- The report on a validation. -/
def ofResult (code : Code) : Except Violation Analysis → Report
  | .ok analysis =>
    { fork := code.fork
      codeSize := code.size
      verdict := .valid analysis.maxStackDepth
      blockEntries := analysis.blockEntries
      routines := analysis.routines }
  | .error violation =>
    { fork := code.fork, codeSize := code.size, verdict := .invalid violation }

/-- Whether the program was accepted. -/
def isValid (report : Report) : Bool :=
  report.verdict.isValid

/-- The fields of a report in order. -/
def record (report : Report) : Json :=
  .object [("fork", .string report.fork.name), ("code_size", .ofNat report.codeSize),
    ("verdict", report.verdict.toJson),
    ("block_entries", .array (report.blockEntries.map .ofNat)),
    ("routines", .ofNat report.routines)]

/-- The object that is put together of a report. -/
def toJson (report : Report) : Json :=
  .sorted (.object [("fork", .string report.fork.name), ("code_size", .ofNat report.codeSize),
    ("verdict", report.verdict.toJson),
    ("block_entries", .array (report.blockEntries.map .ofNat)),
    ("routines", .ofNat report.routines)])

/-- The compact form, of the record. -/
def compact (report : Report) : String :=
  report.record.compact

/-- The pretty form, of the object. -/
def pretty (report : Report) : String :=
  report.toJson.pretty

end Report

end EvmSafety
