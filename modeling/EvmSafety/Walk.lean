/-
The walk over all paths.

The walk follows one path at a time and keeps the others in a list, the latest on top.  A
conditional jump goes on along its taken arm and leaves the other arm on the list, so that
the first violation met is the one that a walk by recursion would meet first.

Every block entry is recorded when it is first reached, with the routine that owns it and the
depth.  A path that reaches it again is only compared with the record and ends there; that
keeps the work to one pass over every edge.

A subroutine is walked for its first caller only.  What it leaves on the stack is fixed by
the first return from it.  A later caller goes on behind its call with that many unknown
slots; if nothing is fixed yet, it waits until the first return does so.

This file has one step of the walk.  That the steps come to an end is shown in the next one.
-/
import EvmSafety.CallGraph
import EvmSafety.Event
import EvmSafety.Flow

namespace EvmSafety

/-- A place to go on from. -/
structure Path where
  /-- The offset. -/
  pc : Nat
  /-- What is known there. -/
  state : State
  deriving DecidableEq, Repr, Inhabited

/-- What would be recorded of a path that reaches a block entry. -/
def Path.arrival (path : Path) : Arrival :=
  ⟨path.state.routine, path.state.stack.depth⟩

/-- A caller that waits for the routine it called. -/
structure Waiting where
  /-- The entry of the routine. -/
  callee : Nat
  /-- The offset of the call. -/
  site : Nat
  /-- Where it goes on, and with what, once the slots that the routine leaves are added. -/
  path : Path
  deriving DecidableEq, Repr, Inhabited

/-- The path that is being followed. -/
inductive Cursor
  /-- None: take the next one from the list. -/
  | idle
  /-- It comes to a block entry. -/
  | arriving (path : Path)
  /-- It is about to execute an instruction. -/
  | inside (path : Path)
  deriving DecidableEq, Repr, Inhabited

/-- Everything a walk remembers. -/
structure Walk where
  /-- The block entries reached so far. -/
  arrivals : Std.TreeMap Nat Arrival := ∅
  /-- The paths still to follow, the next one first. -/
  pending : List Path := []
  /-- How many slots each routine leaves, as far as that is fixed. -/
  nets : Std.TreeMap Nat Nat := ∅
  /-- The callers that wait, the latest first. -/
  waiting : List Waiting := []
  /-- What the routines were seen to do. -/
  graph : CallGraph := ∅
  /-- The path being followed. -/
  cursor : Cursor := .idle
  /-- What has happened, the latest first. -/
  log : List Event := []

/-- A violation, and what had happened until then, the latest first. -/
structure Rejection where
  /-- The violation. -/
  violation : Violation
  /-- What had happened. -/
  log : List Event

namespace Walk

/-- The walk that has everything before it: one path, from the first byte, with nothing on
the stacks. -/
def start : Walk where
  pending := [⟨0, {}⟩]

/-! ### What a step does to what is remembered -/

/-- Tell an event. -/
def tell (w : Walk) (event : Event) : Walk :=
  { w with log := event :: w.log }

/-- Give up for a violation. -/
def reject {α : Type} (w : Walk) (offset : Nat) (kind : Violation.Kind) : Except Rejection α :=
  .error ⟨⟨offset, kind⟩, w.log⟩

/-- Note the depth of a path in its routine. -/
def noteDepth (w : Walk) (state : State) : Walk :=
  { w with graph := w.graph.noteDepth state.routine state.stack.depth }

/-- End the current path. -/
def endPath (w : Walk) : Walk :=
  { w with cursor := .idle }

/-- Take the current path to a block entry. -/
def goTo (w : Walk) (pc : Nat) (state : State) : Walk :=
  { w with cursor := .arriving ⟨pc, state⟩ }

/-- Leave a path for later. -/
def later (w : Walk) (pc : Nat) (state : State) : Walk :=
  { w with pending := ⟨pc, state⟩ :: w.pending }

/-- Take the current path to the following instruction, which may begin a block. -/
def goOn (code : Code) (w : Walk) (pc : Nat) (state : State) : Walk :=
  if code.isDest pc then w.goTo pc state else { w with cursor := .inside ⟨pc, state⟩ }

/-! ### Reaching a block entry -/

/-- Record a block entry that is reached for the first time, or compare with the record. -/
def arrive (w : Walk) (path : Path) : Except Rejection Walk :=
  match w.arrivals[path.pc]? with
  | none =>
    .ok { w.tell (.opened path.pc path.arrival) with
      arrivals := w.arrivals.insert path.pc path.arrival
      cursor := .inside path }
  | some seen =>
    if seen.routine ≠ path.arrival.routine then
      w.reject path.pc .invalidDestination
    else if seen.depth ≠ path.arrival.depth then
      (w.tell (.misaligned path.pc path.arrival.depth seen.depth)).reject path.pc
        .stackMisalignment
    else .ok (w.tell (.rejoined path.pc)).endPath

/-! ### Calls -/

/-- Go on behind a call whose routine is known to leave `net` slots. -/
def skipCall (w : Walk) (site net returnTo : Nat) (state : State) : Except Rejection Walk :=
  match State.onStack (Stack.pad net) state with
  | .error fault _ => w.reject site fault.kind
  | .ok _ state => .ok ((w.noteDepth state).goTo returnTo state)

/-- Let the current path wait for the routine it called. -/
def wait (w : Walk) (site entry returnTo : Nat) (state : State) : Walk :=
  { w.tell (.waits site entry) with
    waiting := ⟨entry, site, ⟨returnTo, state⟩⟩ :: w.waiting
    cursor := .idle }

/-- Enter a routine that no path has reached yet. -/
def enter (w : Walk) (site entry returnTo : Nat) (state : State) : Except Rejection Walk :=
  match State.call entry returnTo state with
  | .error fault _ => w.reject site fault.kind
  | .ok _ state => .ok (w.goTo entry state)

/-- Note a call, then enter the routine, go on behind the call, or wait. -/
def call (w : Walk) (site entry returnTo : Nat) (state : State) : Except Rejection Walk :=
  let w := { w with
    graph := w.graph.noteCall state.routine ⟨site, state.stack.depth, entry⟩ }
  match w.arrivals[entry]? with
  | none => w.enter site entry returnTo state
  | some arrival =>
    if arrival.routine ≠ .sub entry then w.reject site .invalidDestination
    else
      match w.nets[entry]? with
      | some net => w.skipCall site net returnTo state
      | none => .ok (w.wait site entry returnTo state)

/-! ### Returns -/

/-- Let one caller go on, later. -/
def resume (net : Nat) (w : Walk) (caller : Waiting) : Except Rejection Walk :=
  match State.onStack (Stack.pad net) caller.path.state with
  | .error fault _ => w.reject caller.site fault.kind
  | .ok _ state =>
    .ok (((w.tell (.resumes caller.site caller.path.pc)).noteDepth state).later
      caller.path.pc state)

/-- Let all go on that wait for a routine, the earliest first. -/
def release (entry net : Nat) (w : Walk) : Except Rejection Walk :=
  let callers := w.waiting.filter fun caller => caller.callee = entry
  let others := w.waiting.filter fun caller => caller.callee ≠ entry
  callers.reverse.foldlM (resume net) { w with waiting := others }

/-- Fix what a routine leaves and let its callers go on; or compare with what is fixed already,
when nobody waits for the routine any more. -/
def fixNet (w : Walk) (site entry net : Nat) : Except Rejection Walk :=
  match w.nets[entry]? with
  | some known => if known = net then .ok w else w.reject site .stackMisalignment
  | none => release entry net { w with nets := w.nets.insert entry net }

/-- Go back behind the call that opened a frame. -/
def back (code : Code) (w : Walk) (site net : Nat) (frame : Frame) (state : State) :
    Except Rejection Walk :=
  if code.isBehindCall frame.returnTo then do
    let w ← w.fixNet site frame.entry net
    return w.goTo frame.returnTo state
  else w.reject site .invalidDestination

/-! ### One step -/

/-- Take the current path where its instruction sends it. -/
def follow (code : Code) (w : Walk) (ins : Instruction) (state : State) :
    Flow → Except Rejection Walk
  | .halt => .ok w.endPath
  | .advance => .ok ((w.noteDepth state).goOn code ins.next state)
  | .jump dest => .ok (w.goTo dest state)
  | .branch dest => .ok ((w.later ins.next state).goTo dest state)
  | .call entry => w.call ins.offset entry ins.next state
  | .back net frame => w.back code ins.offset net frame state

/-- Execute the instruction the current path is at. -/
def execute (code : Code) (w : Walk) (path : Path) : Except Rejection Walk :=
  match code.decode path.pc with
  | .error cause => w.reject path.pc cause.kind
  | .ok ins =>
    match ins.execute code path.state with
    | .error kind _ => w.reject path.pc kind
    | .ok flow state => w.follow code ins state flow

/-- One step of the walk; none if no path is left. -/
def step (code : Code) (w : Walk) : Except Rejection (Option Walk) :=
  match w.cursor with
  | .inside path => some <$> w.execute code path
  | .arriving path => some <$> w.arrive path
  | .idle =>
    match w.pending with
    | [] => .ok none
    | path :: pending => .ok (some { w with pending, cursor := .arriving path })

end Walk

end EvmSafety
