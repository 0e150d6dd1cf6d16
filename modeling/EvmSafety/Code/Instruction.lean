/-
Instructions.

An instruction is an opcode at an offset together with its immediate data.  The data is read
in two ways: as a word, most significant byte first, or, if it has two bytes, as a signed
distance from the following instruction.
-/
import EvmSafety.Opcode
import EvmSafety.Word

namespace EvmSafety

/-- A decoded instruction. -/
structure Instruction where
  /-- Where it starts. -/
  offset : Nat
  /-- What it is. -/
  opcode : Opcode
  /-- Its immediate data. -/
  immediate : List UInt8
  deriving DecidableEq, Repr

namespace Instruction

/-- The offset right behind the instruction. -/
def next (ins : Instruction) : Nat :=
  ins.offset + 1 + ins.opcode.width

/-- The word its immediate spells; zero without an immediate. -/
def literal (ins : Instruction) : Word :=
  Word.ofBytes ins.immediate

/-- The signed number that two bytes spell, in two's complement. -/
def signed16 (high low : UInt8) : Int :=
  Int.bmod (256 * high.toNat + low.toNat) 65536

/-- The offset that a two-byte immediate names, counted from the following instruction;
none if it lies before the code. -/
def relativeTarget (ins : Instruction) : Option Nat :=
  match ins.immediate with
  | [high, low] =>
    match (ins.next : Int) + signed16 high low with
    | .ofNat target => some target
    | .negSucc _ => none
  | _ => none

end Instruction

end EvmSafety
