/-
Events.

A run tells what it does, one event at a time, in the order it does it.  Nothing in the
library depends on what was told.
-/
import EvmSafety.State

namespace EvmSafety

/-- What is recorded of a block entry when it is first reached. -/
structure Arrival where
  /-- The routine that owns the block. -/
  routine : Routine
  /-- The depth it is entered at. -/
  depth : Nat
  deriving DecidableEq, Repr, Inhabited

/-- Something that happened while a program was loaded or validated. -/
inductive Event
  /-- A program of this many bytes was accepted for loading. -/
  | loaded (size : Nat)
  /-- A block entry was reached for the first time. -/
  | opened (entry : Nat) (arrival : Arrival)
  /-- A block entry was reached again, at another depth than the one recorded. -/
  | misaligned (entry depth recorded : Nat)
  /-- A block entry was reached again, as recorded. -/
  | rejoined (entry : Nat)
  /-- A caller has to wait until it is known what the called routine leaves. -/
  | waits (site entry : Nat)
  /-- A waiting caller goes on. -/
  | resumes (site returnTo : Nat)
  /-- A path broke a rule at an instruction of this name. -/
  | rejected (violation : Violation) (mnemonic : String)
  /-- A call chain opens too many frames. -/
  | nested (frames site : Nat)
  /-- A call chain breaks a limit. -/
  | overflowed (violation : Violation)
  /-- The program was accepted. -/
  | accepted (size depth blocks subroutines : Nat)
  deriving DecidableEq, Repr

namespace Event

/-- How much an event matters. -/
inductive Level
  /-- One step of many. -/
  | trace
  /-- An outcome. -/
  | debug
  deriving DecidableEq, Repr

/-- The level an event is told at. -/
def level : Event → Level
  | rejected .. | overflowed _ | accepted .. => .debug
  | loaded _ | opened .. | misaligned .. | rejoined _ | waits .. | resumes .. | nested .. =>
    .trace

/-- The wording of an event. -/
def text : Event → String
  | loaded size => s!"loaded {size} bytes"
  | opened entry arrival =>
    s!"block {Hex.ofOffset entry}: {arrival.routine.text} at depth {arrival.depth}"
  | misaligned entry depth recorded =>
    s!"block {Hex.ofOffset entry}: depth {depth} != {recorded}"
  | rejoined entry => s!"block {Hex.ofOffset entry}: already walked"
  | waits site entry =>
    s!"call at {Hex.ofOffset site} waits for routine {Hex.ofOffset entry}"
  | resumes site returnTo => s!"call at {Hex.ofOffset site} resumes at {Hex.ofOffset returnTo}"
  | rejected violation mnemonic => s!"rejected: {violation.text} ({mnemonic})"
  | nested frames site => s!"{frames} nested frames through {Hex.ofOffset site}"
  | overflowed violation => s!"rejected: {violation.text}"
  | accepted size depth blocks subroutines =>
    s!"accepted {size} bytes: max stack depth {depth}, {blocks} blocks, {subroutines} subroutines"

end Event

end EvmSafety
