/-
The plain walk.

It follows one path, instruction by instruction: at a conditional jump it goes either way, a
call opens a frame and a return closes one.  It keeps no records, it knows nothing of what
routines leave, and its stacks have no ceilings.  Nobody can take all of its paths, since
there may be infinitely many; but each of them is one that the program has, and what a
violation is about can be said in their terms.

An instruction does to a path of the plain walk what it does to any path, except that it never
overflows.  Unless it returns, it does the same whatever lies below the base and whatever
frames are open.
-/
import EvmSafety.Proofs.Contexts
import EvmSafety.Proofs.Faults
import Mathlib.Logic.Relation

namespace EvmSafety

namespace Stack

/-- Put one slot on top, however many there are. -/
def put (slot : Slot) : StackOp Unit := fun s =>
  .ok () { s with slots := slot :: s.slots }

/-- Put `n` slots on top of which nothing is known, however many there are. -/
def putUnknowns (n : Nat) : StackOp Unit := fun s =>
  .ok () { s with slots := List.replicate n .unknown ++ s.slots }

/-- Copy the `n`-th slot from the top, counted from one, however many there are. -/
def copy (n : Nat) : StackOp Unit := fun s =>
  if n = 0 ∨ s.depth < n then .error (.underflow n s.depth) s
  else put (s.slots.getD (n - 1) .unknown) s

/-- Remove `pops` slots, then put `pushes` unknown ones, however many there are. -/
def replace (pops pushes : Nat) : StackOp Unit := do
  discard pops
  putUnknowns pushes

end Stack

/-- The paths on which a plain walk may go on after an instruction. -/
def Flow.paths (ins : Instruction) (state : State) : Flow → List Path
  | .halt => []
  | .advance => [⟨ins.next, state⟩]
  | .jump dest => [⟨dest, state⟩]
  | .branch dest => [⟨dest, state⟩, ⟨ins.next, state⟩]
  | .call entry => [⟨entry, state.entered ins.next entry⟩]
  | .back _ frame => [⟨frame.returnTo, state⟩]

/-- Change the state as the instruction does if there are no ceilings, and say where the path
goes. -/
def Instruction.perform (code : Code) (ins : Instruction) : EStateM Violation.Kind State Flow :=
  match ins.opcode.move with
  | .push => do
    onStack (Stack.put (.constant ins.literal))
    return .advance
  | .dup n => do
    onStack (Stack.copy n)
    return .advance
  | .jumpdest | .effect => do
    onStack (Stack.replace ins.opcode.pops ins.opcode.pushes)
    return .advance
  | .jumpsub => do
    let entry ← onStack (Stack.takeDestination code)
    return .call entry
  | .halt | .invalid | .swap _ | .jump | .jumpi | .rjump | .rjumpi | .returnsub =>
    ins.execute code

/-- The paths on which a plain walk may go on, or the kind of violation it meets. -/
def Path.after (code : Code) (path : Path) : Except Violation.Kind (List Path) :=
  match code.decode path.pc with
  | .error cause => .error cause.kind
  | .ok ins =>
    match ins.perform code path.state with
    | .error kind _ => .error kind
    | .ok flow state => .ok (flow.paths ins state)

namespace Code

/-- One step of a plain walk. -/
def PlainStep (code : Code) (path path' : Path) : Prop :=
  ∃ paths, path.after code = .ok paths ∧ path' ∈ paths

/-- Some plain walk from the first byte, with nothing on the stacks, comes to this path. -/
def PlainlyReaches (code : Code) (path : Path) : Prop :=
  Relation.ReflTransGen code.PlainStep ⟨0, {}⟩ path

variable {code : Code} {ins : Instruction}

theorem plainStep_of_perform {path path' : Path} {flow : Flow} {state : State}
    (hdecode : code.decode path.pc = .ok ins)
    (hperform : ins.perform code path.state = .ok flow state)
    (hpath : path' ∈ flow.paths ins state) : code.PlainStep path path' := by
  refine ⟨flow.paths ins state, ?_, hpath⟩
  rw [Path.after, hdecode]
  dsimp only
  rw [hperform]

end Code

/-! ### Without ceilings -/

namespace Stack

/-- The operation does the same as the one without a ceiling, or overflows. -/
def Relaxes {α : Type} (relaxed op : StackOp α) : Prop :=
  ∀ s, op s = relaxed s ∨ ∃ s', op s = .error .overflow s'

theorem relaxes_put (slot : Slot) : Relaxes (put slot) (push slot) := by
  intro s
  unfold push
  split
  · exact .inl rfl
  · exact .inr ⟨_, rfl⟩

theorem relaxes_putUnknowns (n : Nat) : Relaxes (putUnknowns n) (pad n) := by
  intro s
  rw [pad_apply]
  split
  · exact .inl rfl
  · exact .inr ⟨_, rfl⟩

theorem relaxes_copy (n : Nat) : Relaxes (copy n) (dup n) := by
  intro s
  unfold dup copy
  split
  · exact .inl rfl
  · exact relaxes_put _ s

theorem relaxes_replace (pops pushes : Nat) :
    Relaxes (replace pops pushes) (replaceTop pops pushes) := by
  intro s
  unfold replace replaceTop
  rw [bind_apply, bind_apply]
  cases discard pops s with
  | ok _ s => exact relaxes_putUnknowns pushes s
  | error _ _ => exact .inl rfl

end Stack

namespace Instruction

variable {code : Code} {ins : Instruction}

theorem onStack_bind_relaxed {α β : Type} {relaxed op : StackOp α}
    {rest : α → EStateM Violation.Kind State β} {state : State}
    (hrelaxes : Stack.Relaxes relaxed op)
    (h : ∀ state', (onStack op >>= rest) state ≠ .error .stackOverflow state') :
    (onStack relaxed >>= rest) state = (onStack op >>= rest) state := by
  rcases hrelaxes state.stack with hsame | ⟨stack', hoverflow⟩
  · simp only [bind_apply, onStack, attempt, State.onStack, hsame]
  · refine absurd ?_ (h { state with stack := stack' })
    simp only [bind_apply, onStack, attempt, State.onStack, hoverflow, StackFault.kind]

/-- **Where an instruction does not overflow, the plain walk does the same.** -/
theorem perform_eq_execute {state : State}
    (h : ∀ state', ins.execute code state ≠ .error .stackOverflow state') :
    ins.perform code state = ins.execute code state := by
  unfold perform
  unfold execute at h ⊢
  cases hmove : ins.opcode.move with
  | push =>
    simp only [hmove] at h ⊢
    exact onStack_bind_relaxed (Stack.relaxes_put _) h
  | dup n =>
    simp only [hmove] at h ⊢
    exact onStack_bind_relaxed (Stack.relaxes_copy n) h
  | jumpdest =>
    simp only [hmove] at h ⊢
    exact onStack_bind_relaxed (Stack.relaxes_replace _ _) h
  | effect =>
    simp only [hmove] at h ⊢
    exact onStack_bind_relaxed (Stack.relaxes_replace _ _) h
  | jumpsub =>
    simp only [hmove] at h ⊢
    rw [bind_apply, bind_apply]
    rw [bind_apply] at h
    cases htake : onStack (Stack.takeDestination code) state with
    | error kind state' => rfl
    | ok entry state' =>
      simp only [htake] at h ⊢
      rw [bind_apply] at h ⊢
      by_cases hroom : state'.frames.length < stackCapacity
      · simp only [attempt, State.admitCall, if_pos hroom]
      · refine absurd ?_ (h state')
        simp only [attempt, State.admitCall, if_neg hroom, StackFault.kind]
  | _ => rfl

theorem perform_of_execute {state state' : State} {flow : Flow}
    (h : ins.execute code state = .ok flow state') :
    ins.perform code state = .ok flow state' := by
  rw [perform_eq_execute, h]
  intro state' hoverflow
  rw [h] at hoverflow
  cases hoverflow

/-- Where an instruction fails, and does not overflow, a plain walk fails in the same way. -/
theorem after_of_execute {path : Path} {kind : Violation.Kind} {state : State}
    (hdecode : code.decode path.pc = .ok ins)
    (hexecute : ins.execute code path.state = .error kind state) (hkind : kind ≠ .stackOverflow) :
    path.after code = .error kind := by
  have hperform : ins.perform code path.state = .error kind state := by
    rw [perform_eq_execute, hexecute]
    intro state' hoverflow
    rw [hexecute] at hoverflow
    cases hoverflow
    exact hkind rfl
  rw [Path.after, hdecode]
  dsimp only
  rw [hperform]

/-! ### Whatever lies below -/

variable {own below : List Slot} {frames : List Frame}

theorem onStack_bind_of_ok {α β : Type} {op : StackOp α}
    {rest : α → EStateM Violation.Kind State β} {stack stack' : Stack} {a : α}
    (h : op stack = .ok a stack') :
    (onStack op >>= rest) ⟨stack, frames⟩ = rest a ⟨stack', frames⟩ := by
  simp only [bind_apply, onStack, attempt, State.onStack, h]

theorem goRelative_of_isDest {flow : Nat → Flow} {state : State} {dest : Nat}
    (htarget : ins.relativeTarget = some dest) (hdest : code.isDest dest = true) :
    goRelative code ins flow state = .ok (flow dest) state := by
  rw [goRelative, relativeLanding_of_target htarget hdest]
  rfl

/-- A straight-line instruction does the same on any such stack. -/
theorem Straight.performs {own' : List Slot} (h : Straight ins own own') :
    ins.perform code ⟨.on own below, frames⟩ = .ok .advance ⟨.on own' below, frames⟩ := by
  unfold perform
  cases h with
  | push hmove =>
    simp only [hmove]
    exact onStack_bind_of_ok rfl
  | @dup n hmove hn hle =>
    have hcopy : Stack.copy n (.on own below)
        = .ok () (.on (own.getD (n - 1) .unknown :: own) below) := by
      have hlt : n - 1 < own.length := by omega
      rw [Stack.copy, Stack.depth_on, if_neg (by omega), Stack.slots_on,
        List.getD_append _ _ _ _ hlt]
      rfl
    simp only [hmove]
    exact onStack_bind_of_ok hcopy
  | @swap n hmove hn hlt =>
    have hswap : Stack.swap n (.on own below) = .ok () (.on (Stack.exchange n own) below) := by
      rw [Stack.swap_on, if_neg (by omega)]
    simp only [hmove, execute]
    exact onStack_bind_of_ok hswap
  | effect hmove hle =>
    have hreplace : Stack.replace ins.opcode.pops ins.opcode.pushes (.on own below)
        = .ok () (.on (List.replicate ins.opcode.pushes .unknown ++ own.drop ins.opcode.pops)
            below) := by
      unfold Stack.replace
      rw [bind_apply, Stack.discard_on, if_pos hle]
      simp only [Stack.putUnknowns, Stack.on, List.append_assoc]
    rcases hmove with hmove | hmove
    · simp only [hmove]
      exact onStack_bind_of_ok hreplace
    · simp only [hmove]
      exact onStack_bind_of_ok hreplace

/-- The instruction makes `own'` of the own slots `own` and sends the path where `flow` says,
whatever lies below the base and whatever frames are open. -/
def Performs (code : Code) (ins : Instruction) (own : List Slot) (flow : Flow)
    (own' : List Slot) : Prop :=
  ∀ (below : List Slot) (frames : List Frame),
    ins.perform code ⟨.on own below, frames⟩ = .ok flow ⟨.on own' below, frames⟩

/-- **Unless it returns, an instruction does the same whatever lies below the base and whatever
frames are open.** -/
theorem Executes.performs {flow : Flow} {state : State}
    (h : Executes code ins own below frames flow state)
    (hstays : ∀ net frame, flow ≠ .back net frame) :
    ∃ own', state = ⟨.on own' below, frames⟩ ∧ ins.Performs code own flow own' := by
  cases h with
  | halt hmove hle =>
    refine ⟨_, rfl, fun below frames => ?_⟩
    have hdiscard : Stack.discard ins.opcode.pops (.on own below)
        = .ok () (.on (own.drop ins.opcode.pops) below) := by
      rw [Stack.discard_on, if_pos hle]
    simp only [perform, execute, hmove]
    exact onStack_bind_of_ok hdiscard
  | straight h => exact ⟨_, rfl, fun below frames => h.performs⟩
  | jump hmove hown hdest =>
    refine ⟨_, rfl, fun below frames => ?_⟩
    simp only [perform, execute, hmove, hown]
    refine onStack_bind_of_ok ?_
    rw [Stack.takeDestination_on_constant, if_pos hdest]
  | rjump hmove htarget hdest =>
    refine ⟨_, rfl, fun below frames => ?_⟩
    simp only [perform, execute, hmove]
    exact goRelative_of_isDest htarget hdest
  | jumpi hmove hown hdest =>
    refine ⟨_, rfl, fun below frames => ?_⟩
    simp only [perform, execute, hmove, hown]
    rw [onStack_bind_of_ok (by rw [Stack.takeDestination_on_constant, if_pos hdest])]
    exact onStack_bind_of_ok (Stack.pop_on_cons _)
  | rjumpi hmove hown htarget hdest =>
    refine ⟨_, rfl, fun below frames => ?_⟩
    simp only [perform, execute, hmove, hown]
    rw [onStack_bind_of_ok (Stack.pop_on_cons _)]
    exact goRelative_of_isDest htarget hdest
  | jumpsub hmove hown hdest =>
    refine ⟨_, rfl, fun below frames => ?_⟩
    simp only [perform, hmove, hown]
    refine onStack_bind_of_ok ?_
    rw [Stack.takeDestination_on_constant, if_pos hdest]
  | returnsub => exact absurd rfl (hstays _ _)

/-- A return hands the own slots over as unknown ones, to the routine that opened the frame. -/
theorem perform_returnsub (hmove : ins.opcode.move = .returnsub) (own below : List Slot)
    (frame : Frame) (rest : List Frame) :
    ins.perform code ⟨.on own below, frame :: rest⟩
      = .ok (.back own.length frame)
          ⟨(Stack.on (List.replicate own.length .unknown) below).restoreBase frame.callerBase,
            rest⟩ := by
  simp only [perform, execute, hmove, attempt, leave, State.ret, Stack.depth_on,
    Stack.forget_own]

end Instruction

end EvmSafety
