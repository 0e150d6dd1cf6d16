/-
With what the walk goes on.

A path that lies on the list or is being followed was there before the last step, or the step
put it there, and the instruction that was executed says in which state: it sent its own path
on, it entered a routine, it went past a call whose routine is known to return, or it returned
and let callers go.  Callers that wait are left out; they become such paths when they are let
go.
-/
import EvmSafety.Proofs.Queue

namespace EvmSafety

/-- Where an instruction sends its path without entering a routine or leaving one. -/
inductive Flow.GoesTo (ins : Instruction) : Flow → Nat → Prop
  | advance : GoesTo ins .advance ins.next
  | jump {dest : Nat} : GoesTo ins (.jump dest) dest
  | taken {dest : Nat} : GoesTo ins (.branch dest) dest
  | passed {dest : Nat} : GoesTo ins (.branch dest) ins.next

theorem Flow.GoesTo.ne_back {ins : Instruction} {flow : Flow} {pc : Nat}
    (h : flow.GoesTo ins pc) : ∀ net frame, flow ≠ .back net frame := by
  intro net frame
  cases h <;> simp

theorem Flow.GoesTo.branch {ins : Instruction} {dest : Nat} (passes : Prop) [Decidable passes] :
    (Flow.branch dest).GoesTo ins (if passes then ins.next else dest) := by
  split
  · exact .passed
  · exact .taken

/-- The walk reaches the places where an instruction sends its path. -/
theorem Code.Sends.reaches {code : Code} {last : Walk} {path : Path} {ins : Instruction}
    {flow : Flow} {state : State} {pc : Nat} (h : code.Sends last path ins flow state)
    (hgoes : flow.GoesTo ins pc) : code.Reaches pc state := by
  cases h with
  | halt => cases hgoes
  | advance hreaches | jump hreaches =>
    cases hgoes
    exact hreaches
  | branch hreaches hnext =>
    cases hgoes with
    | taken => exact hreaches
    | passed => exact hnext
  | call => cases hgoes
  | back => cases hgoes

namespace Walk

/-- The path is left for later or is being followed, and does not wait for a routine. -/
def Ready (w : Walk) (path : Path) : Prop :=
  path ∈ w.pending ∨ w.cursor = .arriving path ∨ w.cursor = .inside path

variable {code : Code} {w w' : Walk}

theorem Ready.live {path : Path} (h : w.Ready path) : w.Live path := by
  rcases h with h | h | h
  · exact .inl (.inl h)
  · exact .inl (.inr (.inr h))
  · exact .inr h

theorem Ready.of_idle {path : Path} (h : w.Ready path) (hcursor : w.cursor = .idle) :
    path ∈ w.pending := by
  rcases h with h | h | h
  · exact h
  · rw [hcursor] at h
    cases h
  · rw [hcursor] at h
    cases h

theorem Ready.of_arriving {path current : Path} (h : w.Ready path)
    (hcursor : w.cursor = .arriving current) : path ∈ w.pending ∨ path = current := by
  rcases h with h | h | h
  · exact .inl h
  · rw [hcursor] at h
    cases h
    exact .inr rfl
  · rw [hcursor] at h
    cases h

theorem Ready.of_inside {path current : Path} (h : w.Ready path)
    (hcursor : w.cursor = .inside current) : path ∈ w.pending ∨ path = current := by
  rcases h with h | h | h
  · exact .inl h
  · rw [hcursor] at h
    cases h
  · rw [hcursor] at h
    cases h
    exact .inr rfl

/-- The walk is about to execute the instruction with the path, and succeeds. -/
structure Executing (code : Code) (w : Walk) (path : Path) (ins : Instruction) (flow : Flow)
    (state : State) : Prop where
  cursor : w.cursor = .inside path
  decodes : code.decode path.pc = .ok ins
  executes : ins.execute code path.state = .ok flow state

/-- Why a path is on the list or is being followed. -/
inductive Onward (code : Code) (w w' : Walk) : Path → Prop
  /-- It was so before. -/
  | same {path : Path} (h : w.Ready path) : Onward code w w' path
  /-- An instruction sent it. -/
  | sent {path : Path} {ins : Instruction} {flow : Flow} {state : State} {pc : Nat}
      (h : w.Executing code path ins flow state) (hgoes : flow.GoesTo ins pc) :
      Onward code w w' ⟨pc, state⟩
  /-- It enters a routine that no path has reached yet. -/
  | entered {path : Path} {ins : Instruction} {entry : Nat} {state : State}
      (h : w.Executing code path ins (.call entry) state) (hnew : w.arrivals[entry]? = none)
      (hcursor' : w'.cursor = .arriving ⟨entry, state.entered ins.next entry⟩) :
      Onward code w w' ⟨entry, state.entered ins.next entry⟩
  /-- It goes past a call whose routine is known to return. -/
  | skipped {path : Path} {ins : Instruction} {entry net : Nat} {state padded : State}
      (h : w.Executing code path ins (.call entry) state) (hnet : w.nets[entry]? = some net)
      (hpad : State.onStack (Stack.pad net) state = .ok () padded) :
      Onward code w w' ⟨ins.next, padded⟩
  /-- It waited for the routine that now returns. -/
  | released {path : Path} {ins : Instruction} {net : Nat} {frame : Frame} {state : State}
      {caller : Waiting} {path' : Path} (h : w.Executing code path ins (.back net frame) state)
      (hcaller : caller ∈ w.waiting) (hcallee : caller.callee = frame.entry)
      (hresumes : Resumes net caller path') : Onward code w w' path'
  /-- It goes back behind the call that opened its frame. -/
  | returned {path : Path} {ins : Instruction} {net : Nat} {frame : Frame} {state : State}
      (h : w.Executing code path ins (.back net frame) state) :
      Onward code w w' ⟨frame.returnTo, state⟩

/-- What is on the list after a return was there before, or waited for the routine. -/
theorem pending_of_fixNet {site entry net : Nat} (h : w.fixNet site entry net = .ok w')
    {path : Path} (hpath : path ∈ w'.pending) :
    path ∈ w.pending ∨
      ∃ caller ∈ w.waiting, caller.callee = entry ∧ Resumes net caller path := by
  unfold fixNet at h
  split at h
  · split at h
    · cases h
      exact .inl hpath
    · cases h
  · rcases (resumed_foldlM h).origin path hpath with hold | ⟨caller, hcaller, hresumes⟩
    · exact .inl hold
    · rw [List.mem_reverse, List.mem_filter] at hcaller
      exact .inr ⟨caller, hcaller.1, of_decide_eq_true hcaller.2, hresumes⟩

theorem Follows.onward {path : Path} {ins : Instruction} {flow : Flow} {state : State}
    (h : Follows code w ins state flow w') (hexecuting : w.Executing code path ins flow state)
    {path' : Path} (hready : w'.Ready path') : Onward code w w' path' := by
  have hpending : path' ∈ w.pending → Onward code w w' path' := fun hmem => .same (.inl hmem)
  cases h with
  | halt => exact hpending (hready.of_idle rfl)
  | advance =>
    unfold goOn at hready
    split at hready
    · rcases hready.of_arriving rfl with hmem | rfl
      · exact hpending hmem
      · exact .sent hexecuting .advance
    · rcases hready.of_inside rfl with hmem | rfl
      · exact hpending hmem
      · exact .sent hexecuting .advance
  | jump =>
    rcases hready.of_arriving rfl with hmem | rfl
    · exact hpending hmem
    · exact .sent hexecuting .jump
  | branch =>
    rcases hready.of_arriving rfl with hmem | rfl
    · rcases List.mem_cons.1 hmem with rfl | hmem
      · exact .sent hexecuting .passed
      · exact hpending hmem
    · exact .sent hexecuting .taken
  | enter hnew =>
    rcases hready.of_arriving rfl with hmem | rfl
    · exact hpending hmem
    · exact .entered hexecuting hnew rfl
  | skip _ _ hnet hpad =>
    rcases hready.of_arriving rfl with hmem | rfl
    · exact hpending hmem
    · exact .skipped hexecuting hnet hpad
  | wait => exact hpending (hready.of_idle rfl)
  | @back _ _ fixed hfix =>
    rcases hready.of_arriving rfl with hmem | rfl
    · have hmem : path' ∈ fixed.pending := hmem
      rcases pending_of_fixNet hfix hmem with hold | ⟨caller, hcaller, hcallee, hresumes⟩
      · exact hpending hold
      · exact .released hexecuting hcaller hcallee hresumes
    · exact .returned hexecuting

/-- **A path that the walk goes on with was there before, or the instruction that was executed
put it there.** -/
theorem onward_of_step (hstep : Step code w w') {path : Path} (hready : w'.Ready path) :
    Onward code w w' path := by
  cases hstep with
  | take _ hpending =>
    rcases hready.of_arriving rfl with hmem | rfl
    · exact .same (.inl (hpending ▸ List.mem_cons_of_mem _ hmem))
    · exact .same (.inl (hpending ▸ List.mem_cons_self))
  | opens hcursor =>
    rcases hready.of_inside rfl with hmem | rfl
    · exact .same (.inl hmem)
    · exact .same (.inr (.inl hcursor))
  | rejoin => exact .same (.inl (hready.of_idle rfl))
  | execute hcursor hdecode hexecute hfollow =>
    exact hfollow.onward ⟨hcursor, hdecode, hexecute⟩ hready

/-- A caller waits since before the step, or the step executed its call. -/
theorem waiting_or_calls (hstep : Step code w w') {caller : Waiting}
    (hcaller : caller ∈ w'.waiting) :
    caller ∈ w.waiting ∨ ∃ path ins state,
      w.Executing code path ins (.call caller.callee) state ∧ caller.site = path.pc ∧
        caller.path = ⟨ins.next, state⟩ := by
  cases transfers_of_step hstep with
  | takes _ hwaiting => exact .inl (hwaiting ▸ hcaller)
  | leaves _ _ _ _ hwaiting => exact .inl (hwaiting ▸ hcaller)
  | waits hcursor hdecode hexecute _ hwaiting =>
    rw [hwaiting] at hcaller
    rcases List.mem_cons.1 hcaller with rfl | hcaller
    · exact .inr ⟨_, _, _, ⟨hcursor, hdecode, hexecute⟩, rfl, rfl⟩
    · exact .inl hcaller
  | releases _ hwaiting =>
    rw [hwaiting] at hcaller
    exact .inl (List.mem_filter.1 hcaller).1

end Walk

end EvmSafety
