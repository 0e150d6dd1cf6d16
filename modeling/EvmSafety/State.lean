/-
The symbolic state of a path.

Beside the data stack a path has a stack of open frames, the innermost first.  A frame says
where its routine returns to, where the caller's base was, and which routine it runs; the
innermost frame thereby says in which routine the path is.
-/
import EvmSafety.Routine
import EvmSafety.Stack

namespace EvmSafety

/-- An open call. -/
structure Frame where
  /-- The offset right behind the call. -/
  returnTo : Nat
  /-- The base of the caller. -/
  callerBase : Nat
  /-- The entry of the routine that runs. -/
  entry : Nat
  deriving DecidableEq, Repr, Inhabited

/-- What a path knows: its data stack and its open frames, the innermost first. -/
structure State where
  /-- The data stack. -/
  stack : Stack := {}
  /-- The open frames, the innermost first. -/
  frames : List Frame := []
  deriving DecidableEq, Repr, Inhabited

/-- An operation on a state that may fail. -/
abbrev StateOp (α : Type) := EStateM StackFault State α

namespace State

/-- The routine the path is in. -/
def routine (st : State) : Routine :=
  match st.frames with
  | [] => .main
  | frame :: _ => .sub frame.entry

/-- Do to the data stack what an operation on stacks does. -/
def onStack {α : Type} (op : StackOp α) : StateOp α := fun st =>
  match op st.stack with
  | .ok a stack => .ok a { st with stack }
  | .error fault stack => .error fault { st with stack }

/-- Refuse if another frame would outgrow the limit. -/
def admitCall : StateOp Unit := fun st =>
  if st.frames.length < stackCapacity then .ok () st else .error .returnOverflow st

/-- Open a frame for the routine at `entry`; the current top becomes its base. -/
def call (entry returnTo : Nat) : StateOp Unit := do
  admitCall
  modify fun st =>
    { stack := st.stack.raiseBase, frames := ⟨returnTo, st.stack.base, entry⟩ :: st.frames }

/-- Close the innermost frame and go back to its caller's base. -/
def ret : StateOp Frame := fun st =>
  match st.frames with
  | [] => .error .returnUnderflow st
  | frame :: frames => .ok frame { stack := st.stack.restoreBase frame.callerBase, frames }

end State

end EvmSafety
