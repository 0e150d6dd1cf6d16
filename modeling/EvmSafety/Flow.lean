/-
What one instruction does to a state.

An instruction changes the state of the path and says where the path goes.  It knows nothing
of the other paths: which blocks were walked before, what a subroutine does, whether a
destination belongs to another routine.  All of that is left to the walk.

A faulty instruction yields the kind of its violation.  Where it can fault in two ways, the
first in reading order counts: a conditional jump takes its destination before it looks for
its condition, a relative one takes its condition first.
-/
import EvmSafety.State

namespace EvmSafety

/-- Where a path goes after an instruction. -/
inductive Flow
  /-- It ends. -/
  | halt
  /-- It goes on with the following instruction. -/
  | advance
  /-- It goes to a block entry. -/
  | jump (dest : Nat)
  /-- It may go to a block entry or to the following instruction. -/
  | branch (dest : Nat)
  /-- It calls the subroutine at `entry`; no frame is open yet. -/
  | call (entry : Nat)
  /-- It has closed `frame` and hands `net` slots to the caller. -/
  | back (net : Nat) (frame : Frame)
  deriving DecidableEq, Repr

namespace Instruction

/-- The place a relative jump goes to, if a jump may land there. -/
def relativeLanding (code : Code) (ins : Instruction) : Option Nat :=
  ins.relativeTarget.filter code.isDest

/-- Do what an operation on states does, and name a fault by its kind. -/
def attempt {α : Type} (op : StateOp α) : EStateM Violation.Kind State α := fun st =>
  match op st with
  | .ok a st => .ok a st
  | .error fault st => .error fault.kind st

/-- Do an operation on the data stack. -/
def onStack {α : Type} (op : StackOp α) : EStateM Violation.Kind State α :=
  attempt (State.onStack op)

/-- Go where a relative jump goes, if a jump may land there. -/
def goRelative (code : Code) (ins : Instruction) (flow : Nat → Flow) :
    EStateM Violation.Kind State Flow :=
  match ins.relativeLanding code with
  | some dest => return flow dest
  | none => throw .invalidDestination

/-- Leave a subroutine: whatever lies above its base is handed over as unknown slots. -/
def leave : StateOp Flow := fun st =>
  let net := st.stack.depth
  match State.ret { st with stack := st.stack.forget net } with
  | .ok frame st => .ok (.back net frame) st
  | .error fault st => .error fault st

/-- Change the state as the instruction does, and say where the path goes. -/
def execute (code : Code) (ins : Instruction) : EStateM Violation.Kind State Flow :=
  match ins.opcode.move with
  | .halt => do
    onStack (Stack.discard ins.opcode.pops)
    return .halt
  | .invalid => throw .invalidInstruction
  | .push => do
    onStack (Stack.push (.constant ins.literal))
    return .advance
  | .dup n => do
    onStack (Stack.dup n)
    return .advance
  | .swap n => do
    onStack (Stack.swap n)
    return .advance
  | .jumpdest | .effect => do
    onStack (Stack.replaceTop ins.opcode.pops ins.opcode.pushes)
    return .advance
  | .jump => do
    let dest ← onStack (Stack.takeDestination code)
    return .jump dest
  | .jumpi => do
    let dest ← onStack (Stack.takeDestination code)
    let _ ← onStack Stack.pop
    return .branch dest
  | .rjump => goRelative code ins .jump
  | .rjumpi => do
    let _ ← onStack Stack.pop
    goRelative code ins .branch
  | .jumpsub => do
    let entry ← onStack (Stack.takeDestination code)
    attempt State.admitCall
    return .call entry
  | .returnsub => attempt leave

end Instruction

end EvmSafety
