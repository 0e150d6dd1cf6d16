/-
Violations.

A program is rejected for one violation: the offset where it was met, and its kind.  Kinds
have two spellings, one for readers and one for reports.
-/
import EvmSafety.Text.Hex

namespace EvmSafety

namespace Violation

/-- What can go wrong on a path. -/
inductive Kind
  /-- No instruction can be read, or the designated invalid one was. -/
  | invalidInstruction
  /-- A jump, call or return to a place it may not land on. -/
  | invalidDestination
  /-- A jump whose destination is not known statically. -/
  | dynamicJump
  /-- More words are taken than the routine has, or a return without a call. -/
  | stackUnderflow
  /-- One of the two stacks outgrows its limit. -/
  | stackOverflow
  /-- One place is reached at two different depths. -/
  | stackMisalignment
  deriving DecidableEq, Repr, Inhabited

namespace Kind

/-- Every kind. -/
def all : List Kind :=
  [invalidInstruction, invalidDestination, dynamicJump, stackUnderflow, stackOverflow,
   stackMisalignment]

/-- The wording for readers. -/
def text : Kind → String
  | invalidInstruction => "invalid instruction"
  | invalidDestination => "invalid destination"
  | dynamicJump => "dynamic jump"
  | stackUnderflow => "stack underflow"
  | stackOverflow => "stack overflow"
  | stackMisalignment => "stack misalignment"

/-- The key in reports. -/
def key : Kind → String
  | invalidInstruction => "invalid_instruction"
  | invalidDestination => "invalid_destination"
  | dynamicJump => "dynamic_jump"
  | stackUnderflow => "stack_underflow"
  | stackOverflow => "stack_overflow"
  | stackMisalignment => "stack_misalignment"

/-- The kind of exactly this key. -/
def ofKey? (key : String) : Option Kind :=
  all.find? fun kind => kind.key = key

end Kind

end Violation

/-- Where a program goes wrong, and how. -/
structure Violation where
  /-- The offset it was met at. -/
  offset : Nat
  /-- What went wrong. -/
  kind : Violation.Kind
  deriving DecidableEq, Repr, Inhabited

/-- The wording for readers. -/
def Violation.text (violation : Violation) : String :=
  violation.kind.text ++ " at offset " ++ Hex.ofOffset violation.offset

end EvmSafety
