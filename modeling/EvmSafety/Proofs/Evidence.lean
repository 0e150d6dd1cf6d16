/-
What one caller shows holds for all.

The walk goes through a routine for its first caller, goes past the call for all others, and
lets callers wait.  Whoever wants to say something of every place that the walk comes to, in
terms of some other machine that takes all calls, has to show the same few things: where an
instruction leads, that a call can be made, that a return can be taken, and that a call and a
return of the same routine can be put together.

`Evidence` collects these obligations, for any way of speaking about paths, calls and returns.
That they suffice is shown here once, by the cases of `Onward`: at every moment of the walk
there is evidence for the paths it goes on with, for the calls that are open or wait, and for
the returns that fixed what routines leave.
-/
import EvmSafety.Proofs.Onward

namespace EvmSafety

/-- A context that a call made for which there is evidence; nothing lies below the main
routine. -/
def Context.Made (call : Nat → Nat → State → Prop) (c : Context) : Prop :=
  match c.frames with
  | [] => c.below = []
  | frame :: rest => call frame.entry frame.returnTo ⟨⟨c.below, frame.callerBase⟩, rest⟩

/-- A way of speaking about what the walk comes to, and why each step of it can be followed. -/
structure Evidence (code : Code) where
  /-- What is said of a path. -/
  path : Path → Prop
  /-- What is said of a call: the routine that is called, where it returns to, and the state
  once the destination is taken. -/
  call : Nat → Nat → State → Prop
  /-- What is said of a return: the routine, and how many slots it leaves. -/
  back : Nat → Nat → Prop
  /-- It can be said of the start. -/
  start : path ⟨0, {}⟩
  /-- An instruction that neither calls nor returns can be followed. -/
  goes : ∀ {w : Walk} {current : Path} {ins : Instruction} {flow : Flow} {state : State}
    {pc : Nat}, w ∈ code.walks → w.Executing code current ins flow state →
      flow.GoesTo ins pc → path current → path ⟨pc, state⟩
  /-- A call can be made. -/
  calls : ∀ {w : Walk} {current : Path} {ins : Instruction} {entry : Nat} {state : State},
    w ∈ code.walks → w.Executing code current ins (.call entry) state → path current →
      call entry ins.next state
  /-- A return can be taken. -/
  returns : ∀ {w : Walk} {current : Path} {ins : Instruction} {net : Nat} {frame : Frame}
    {state : State}, w ∈ code.walks → w.Executing code current ins (.back net frame) state →
      path current → (∀ c ∈ current.state.contexts, c.Made call) → back frame.entry net
  /-- A routine can be begun. -/
  enters : ∀ (entry returnTo : Nat) (state : State),
    path ⟨entry, state.entered returnTo entry⟩
  /-- A call and a return of the same routine lead behind the call. -/
  resumes : ∀ {entry returnTo net : Nat} {state : State}, call entry returnTo state →
    back entry net → path ⟨returnTo, state.padded net⟩

namespace Walk

variable {code : Code} {w w' : Walk}

theorem Executing.ready {path : Path} {ins : Instruction} {flow : Flow} {state : State}
    (h : w.Executing code path ins flow state) : w.Ready path :=
  .inr (.inr h.cursor)

/-- Where a return goes back to, the caller is in the state that it called with, and has the
slots that are handed over. -/
theorem Sound.padded_of_back (hsound : w.Sound code) {path : Path} {ins : Instruction}
    {net : Nat} {frame : Frame} {state : State}
    (h : w.Executing code path ins (.back net frame) state) :
    ∃ c ∈ path.state.contexts, ∃ rest, c.frames = frame :: rest ∧
      state = (⟨⟨c.below, frame.callerBase⟩, rest⟩ : State).padded net := by
  obtain ⟨hexecutes, hframe⟩ := hsound.executes (.inr h.cursor) h.executes
  have hhead := State.head_mem_contextsOf path.state.stack.below path.state.frames
  cases hexecutes with
  | @returnsub _ rest _ hframes =>
    refine ⟨_, hhead, rest, hframes, ?_⟩
    rw [← State.restoreBase_slots _ (hframe _ _ hframes).1]

end Walk

namespace Evidence

variable {code : Code} {w w' : Walk}

/-- There is evidence for all that the walk still has to do. -/
structure Given (e : Evidence code) (w : Walk) : Prop where
  /-- The paths that do not wait. -/
  paths : ∀ path, w.Ready path → e.path path
  /-- The calls that led there. -/
  contexts : ∀ path, w.Live path → ∀ c ∈ path.state.contexts, c.Made e.call
  /-- The callers that wait, up to their calls. -/
  callers : ∀ caller ∈ w.waiting, e.call caller.callee caller.path.pc caller.path.state
  /-- The returns that fixed what routines leave. -/
  nets : ∀ entry net : Nat, w.nets[entry]? = some net → e.back entry net

variable {e : Evidence code}

theorem Given.calls (h : e.Given w) (hw : w ∈ code.walks) {path : Path} {ins : Instruction}
    {entry : Nat} {state : State} (hexecuting : w.Executing code path ins (.call entry) state) :
    e.call entry ins.next state :=
  e.calls hw hexecuting (h.paths path hexecuting.ready)

theorem Given.returns (h : e.Given w) (hw : w ∈ code.walks) {path : Path} {ins : Instruction}
    {net : Nat} {frame : Frame} {state : State}
    (hexecuting : w.Executing code path ins (.back net frame) state) : e.back frame.entry net :=
  e.returns hw hexecuting (h.paths path hexecuting.ready)
    (h.contexts path hexecuting.ready.live)

theorem Given.paths_of_step (h : e.Given w) (hw : w ∈ code.walks) (hstep : Walk.Step code w w') :
    ∀ path, w'.Ready path → e.path path := by
  intro path hready
  cases Walk.onward_of_step hstep hready with
  | same hbefore => exact h.paths path hbefore
  | sent hexecuting hgoes =>
    exact e.goes hw hexecuting hgoes (h.paths _ hexecuting.ready)
  | entered => exact e.enters _ _ _
  | skipped hexecuting hnet hpad =>
    rw [State.eq_padded_of_pad hpad]
    exact e.resumes (h.calls hw hexecuting) (h.nets _ _ hnet)
  | released hexecuting hcaller hcallee hresumes =>
    rw [hresumes.eq_padded]
    exact e.resumes (h.callers _ hcaller) (hcallee ▸ h.returns hw hexecuting)
  | @returned current _ _ frame _ hexecuting =>
    obtain ⟨c, hc, rest, hframes, rfl⟩ :=
      (Code.sound_of_mem_walks hw).padded_of_back hexecuting
    have hmade := h.contexts current hexecuting.ready.live c hc
    rw [Context.Made, hframes] at hmade
    exact e.resumes hmade (h.returns hw hexecuting)

/-- **Every step keeps the evidence.** -/
theorem Given.step (h : e.Given w) (hw : w ∈ code.walks) (hstep : Walk.Step code w w') :
    e.Given w' where
  paths := h.paths_of_step hw hstep
  contexts path hlive c hc := by
    rcases ((Code.sound_of_mem_walks hw).contexts_of_step hstep hlive).2 c hc with
      ⟨before, hbefore, hc⟩ | ⟨caller, ins, state, hcursor, hdecode, hexecute, -, -, -, rfl⟩
    · exact h.contexts before hbefore c hc
    · exact h.calls hw ⟨hcursor, hdecode, hexecute⟩
  callers caller hcaller := by
    rcases Walk.waiting_or_calls hstep hcaller with hbefore | ⟨_, _, _, hexecuting, -, hpath⟩
    · exact h.callers caller hbefore
    · rw [hpath]
      exact h.calls hw hexecuting
  nets entry net hnet := by
    rcases Walk.nets_of_step hstep hnet with hnet |
      ⟨path, ins, state, frame, hcursor, hdecode, hexecute, rfl, -⟩
    · exact h.nets entry net hnet
    · exact h.returns hw ⟨hcursor, hdecode, hexecute⟩

theorem given_start (e : Evidence code) : e.Given Walk.start where
  paths path hready := by
    rw [Walk.eq_of_live_start hready.live]
    exact e.start
  contexts path hlive c hc := by
    rw [Walk.eq_of_live_start hlive] at hc
    rw [List.mem_singleton.1 hc]
    rfl
  callers caller hcaller := by cases hcaller
  nets entry net hnet := by simp [Walk.start] at hnet

/-- **At every moment there is evidence for all that the walk still has to do.** -/
theorem given_of_mem_walks (e : Evidence code) (hw : w ∈ code.walks) : e.Given w :=
  Code.walks_induction (motive := e.Given) e.given_start
    (fun _ _ hw _ hstep h => h.step hw hstep) w hw

end Evidence

end EvmSafety
