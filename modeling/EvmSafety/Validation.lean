/-
Validation.

A code is validated by walking all its paths from the first byte and then checking the two
ceilings on the call graph that the walk left.  The result is an analysis of the accepted
program, or the first violation; next to it stands what happened on the way.
-/
import EvmSafety.Walk.Measure

namespace EvmSafety

/-- Take steps until a violation is met or no path is left. -/
def Walk.finish (code : Code) (w : Walk) : Except Rejection Walk :=
  match _h : w.step code with
  | .error rejection => .error rejection
  | .ok none => .ok w
  | .ok (some w') => w'.finish code
termination_by w.measure code
decreasing_by exact measure_step_lt _h

/-- What is learned of an accepted program. -/
structure Analysis where
  /-- The highest depth of the data stack on any call chain. -/
  maxStackDepth : Nat
  /-- The block entries that are reached, ascending. -/
  blockEntries : List Nat
  /-- How many subroutines are entered. -/
  routines : Nat
  deriving DecidableEq, Repr

namespace Walk

/-- The block entries reached, ascending. -/
def blockEntries (w : Walk) : List Nat :=
  w.arrivals.keys

/-- How many of the entries reached begin a subroutine. -/
def routineCount (w : Walk) : Nat :=
  w.arrivals.toList.countP fun entry => decide (entry.2.routine = .sub entry.1)

end Walk

/-- A validation: how it ended and what happened. -/
structure Validation where
  /-- The analysis of the accepted program, or the violation it is rejected for. -/
  result : Except Violation Analysis
  /-- What happened, in order. -/
  events : List Event

namespace Code

/-- The validation that ends a walk without violations: the ceilings decide. -/
def judge (code : Code) (w : Walk) : Validation :=
  match w.graph.highestDepth with
  | .ok depth =>
    let analysis : Analysis := ⟨depth, w.blockEntries, w.routineCount⟩
    { result := .ok analysis
      events := (.accepted code.size depth analysis.blockEntries.length analysis.routines
        :: w.log).reverse }
  | .error overflow =>
    let told : List Event :=
      match overflow with
      | .slots _ => w.log
      | .frames count site => .nested count site :: w.log
    { result := .error overflow.violation
      events := (.overflowed overflow.violation :: told).reverse }

/-- Validate a code. -/
def validation (code : Code) : Validation :=
  match Walk.start.finish code with
  | .ok w => code.judge w
  | .error rejection =>
    { result := .error rejection.violation
      events := (.rejected rejection.violation (code.mnemonic rejection.violation.offset)
        :: rejection.log).reverse }

/-- The analysis of a code that is accepted, or the violation it is rejected for. -/
def validate (code : Code) : Except Violation Analysis :=
  code.validation.result

end Code

/-- The outcome of a validation in short. -/
inductive Verdict
  /-- The program is accepted; the data stack never holds more than this. -/
  | valid (maxStackDepth : Nat)
  /-- The program is rejected. -/
  | invalid (violation : Violation)
  deriving DecidableEq, Repr, Inhabited

namespace Verdict

/-- The verdict of a result. -/
def ofResult : Except Violation Analysis → Verdict
  | .ok analysis => valid analysis.maxStackDepth
  | .error violation => invalid violation

/-- Whether the program is accepted. -/
def isValid : Verdict → Bool
  | valid _ => true
  | invalid _ => false

/-- The violation of a rejected program. -/
def violation? : Verdict → Option Violation
  | valid _ => none
  | invalid violation => some violation

end Verdict

end EvmSafety
