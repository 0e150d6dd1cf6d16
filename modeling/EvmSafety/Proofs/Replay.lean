/-
Replaying a routine.

A routine sees only the slots above its base, and where it returns to is written in its frame.
So what the walk did in it for its first caller can be done again for any other one, on top of
whatever that one has on its stack: `Replays` says that a plain walk can be led from the entry
of a routine to some place in it, with these slots above the base, whatever lies below and
whoever called.

The walk goes on behind a call as soon as it is known what the routine leaves, and does not
look into the routine again.  A plain walk has to, but it can replay the one return that
fixed the net, and comes out where the walk does.  In the routine there may be calls that the
walk went past in the same way, of the same routine even; they were replayed by then.  This
order is kept by every step of the walk, and it follows that plain walks come wherever the
walk comes.
-/
import EvmSafety.Proofs.Evidence
import EvmSafety.Proofs.Plain

namespace EvmSafety

theorem Flow.GoesTo.mem_paths {ins : Instruction} {flow : Flow} {pc : Nat}
    (h : flow.GoesTo ins pc) : ∀ state, ⟨pc, state⟩ ∈ flow.paths ins state := by
  intro state
  cases h <;> simp [paths]

/-- Where the code of a routine starts. -/
def Routine.entry : Routine → Nat
  | main => 0
  | sub entry => entry

theorem State.own_padded (net : Nat) {state : State} (h : state.stack.base ≤ state.stack.size) :
    (state.padded net).stack.own = List.replicate net .unknown ++ state.stack.own := by
  rw [eq_on h, padded_on, Stack.own_on, Stack.own_on]

theorem State.own_entered (returnTo entry : Nat) (state : State) :
    (state.entered returnTo entry).stack.own = [] := by
  have hbased : (state.entered returnTo entry).stack.base
      ≤ (state.entered returnTo entry).stack.size := Nat.le_refl _
  rw [← List.length_eq_zero_iff, Stack.length_own hbased]
  exact Stack.depth_raiseBase _

namespace Code

/-- A plain walk can be led from the entry of the routine to `pc`, with the slots `own` above
the base, whatever lies below and whoever called. -/
def Replays (code : Code) (routine : Routine) (pc : Nat) (own : List Slot) : Prop :=
  ∀ (below : List Slot) (frames : List Frame), State.routine ⟨.on [] below, frames⟩ = routine →
    Relation.ReflTransGen code.PlainStep ⟨routine.entry, ⟨.on [] below, frames⟩⟩
      ⟨pc, ⟨.on own below, frames⟩⟩

/-- A path that calls the routine at `entry` and returns to `returnTo` can be replayed up to
its call, and is in this state once the destination is taken. -/
inductive CallsTo (code : Code) (entry returnTo : Nat) (state : State) : Prop
  | intro {site : Nat} {ins : Instruction} {own : List Slot}
      (hbased : state.stack.base ≤ state.stack.size)
      (hreplays : code.Replays state.routine site own) (hdecode : code.decode site = .ok ins)
      (hperforms : ins.Performs code own (.call entry) state.stack.own)
      (hnext : ins.next = returnTo)

/-- Some plain walk returns from the routine at `entry` along this path. -/
def ReturnsFrom (code : Code) (entry : Nat) (path : Path) : Prop :=
  code.PlainlyReaches path ∧ path.state.routine = .sub entry ∧
    ∃ ins, code.decode path.pc = .ok ins ∧ ins.opcode.move = .returnsub

/-- Some plain walk returns from the routine at `entry` with `net` slots above the base, and
this can be replayed. -/
inductive Returns (code : Code) (entry net : Nat) : Prop
  | intro {path : Path} (hreturns : code.ReturnsFrom entry path)
      (hbased : path.state.stack.base ≤ path.state.stack.size)
      (hdepth : path.state.stack.depth = net)
      (hreplays : code.Replays (.sub entry) path.pc path.state.stack.own)

variable {code : Code}

theorem replays_entry (code : Code) (routine : Routine) : code.Replays routine routine.entry [] :=
  fun _ _ _ => .refl

/-- What an instruction does to the own slots can be replayed after what came before it. -/
theorem Replays.step {routine : Routine} {pc pc' : Nat} {own own' : List Slot}
    {ins : Instruction} {flow : Flow} (h : code.Replays routine pc own)
    (hdecode : code.decode pc = .ok ins)
    (hperforms : ins.Performs code own flow own')
    (hpath : ∀ state, ⟨pc', state⟩ ∈ flow.paths ins state) :
    code.Replays routine pc' own' := by
  intro below frames hroutine
  exact (h below frames hroutine).tail
    (plainStep_of_perform hdecode (hperforms below frames) (hpath _))

theorem CallsTo.based {entry returnTo : Nat} {state : State}
    (h : code.CallsTo entry returnTo state) : state.stack.base ≤ state.stack.size := by
  obtain ⟨hbased, -⟩ := h
  exact hbased

/-- A call that can be replayed leads into the routine. -/
theorem CallsTo.enters {entry returnTo : Nat} {state : State}
    (h : code.CallsTo entry returnTo state) (below : List Slot) (frames : List Frame)
    (hroutine : State.routine ⟨.on [] below, frames⟩ = state.routine) :
    Relation.ReflTransGen code.PlainStep ⟨state.routine.entry, ⟨.on [] below, frames⟩⟩
      ⟨entry, ⟨.on [] (state.stack.own ++ below), ⟨returnTo, below.length, entry⟩ :: frames⟩⟩ := by
  obtain ⟨-, hreplays, hdecode, hperforms, rfl⟩ := h
  refine (hreplays below frames hroutine).tail ?_
  refine plainStep_of_perform hdecode (hperforms below frames) ?_
  rw [Flow.paths, State.entered, Stack.raiseBase_on, Stack.base_on]
  exact List.mem_singleton_self _

/-- **A call of a routine that returns can be replayed to behind it.** -/
theorem CallsTo.returns {entry returnTo net : Nat} {state : State}
    (h : code.CallsTo entry returnTo state) (hreturns : code.Returns entry net) :
    code.Replays state.routine returnTo (state.padded net).stack.own := by
  obtain ⟨⟨-, -, ins, hdecode, hmove⟩, hbased, rfl, hreplays⟩ := hreturns
  intro below frames hroutine
  -- Into the routine, through it to the return that is known, and back.
  refine ((h.enters below frames hroutine).trans (hreplays _ _ rfl)).tail ?_
  refine plainStep_of_perform hdecode (Instruction.perform_returnsub hmove _ _ _ _) ?_
  have hle : below.length ≤ (state.stack.own ++ below).length := by
    rw [List.length_append]
    exact Nat.le_add_left _ _
  have hcount : (state.stack.own ++ below).length - below.length = state.stack.own.length := by
    rw [List.length_append, Nat.add_sub_cancel]
  rw [Flow.paths, Stack.restoreBase_on hle, hcount, List.take_left, List.drop_left,
    State.own_padded _ h.based, Stack.length_own hbased]
  exact List.mem_singleton_self _

end Code

/-! ### Callers -/

namespace Code

variable {code : Code}

/-- If all calls that are open can be replayed, a plain walk comes to the entry of the routine
that was called last, with the callers below it. -/
theorem plainlyReaches_entry : ∀ {frames : List Frame} {below : List Slot},
    (∀ c ∈ State.contextsOf below frames, c.Made code.CallsTo) →
    code.PlainlyReaches
      ⟨(State.routine ⟨.on [] below, frames⟩).entry, ⟨.on [] below, frames⟩⟩ := by
  -- The outermost call is replayed first, each further one on top of the slots of its callers.
  intro frames
  induction frames with
  | nil =>
    intro below h
    have hnone : below = [] := h _ (State.head_mem_contextsOf below [])
    rw [hnone]
    exact .refl
  | cons frame rest ih =>
    intro below h
    have hcalls : code.CallsTo frame.entry frame.returnTo ⟨⟨below, frame.callerBase⟩, rest⟩ :=
      h _ (State.head_mem_contextsOf below (frame :: rest))
    have hle : frame.callerBase ≤ below.length := hcalls.based
    have hlength : (below.drop (below.length - frame.callerBase)).length = frame.callerBase :=
      Stack.length_below (s := ⟨below, frame.callerBase⟩) hle
    have hsplit : (⟨below, frame.callerBase⟩ : Stack).own
        ++ below.drop (below.length - frame.callerBase) = below := List.take_append_drop _ _
    have hcaller := ih fun c hc => h c (List.mem_cons_of_mem _ hc)
    have henters := hcalls.enters (below.drop (below.length - frame.callerBase)) rest rfl
    rw [hlength, hsplit] at henters
    exact hcaller.trans henters

/-- **A plain walk comes to a path that can be replayed in its routine,** if the calls that led
there can be replayed too. -/
theorem Replays.plainlyReaches {path : Path}
    (h : code.Replays path.state.routine path.pc path.state.stack.own)
    (hbased : path.state.stack.base ≤ path.state.stack.size)
    (hcontexts : ∀ c ∈ path.state.contexts, c.Made code.CallsTo) : code.PlainlyReaches path := by
  have hreplayed := (plainlyReaches_entry hcontexts).trans (h path.state.stack.below _ rfl)
  rw [← State.eq_on hbased] at hreplayed
  exact hreplayed

end Code

namespace Walk

variable {code : Code} {w : Walk}

section

variable {path : Path} {ins : Instruction} {state : State}

/-- An instruction that neither calls nor returns can be replayed after what came before it. -/
theorem Executing.replays {flow : Flow} {pc : Nat} (hw : w ∈ code.walks)
    (h : w.Executing code path ins flow state) (hgoes : flow.GoesTo ins pc)
    (hreplays : code.Replays path.state.routine path.pc path.state.stack.own) :
    code.Replays state.routine pc state.stack.own := by
  obtain ⟨hexecutes, -⟩ := (Code.sound_of_mem_walks hw).executes (.inr h.cursor) h.executes
  obtain ⟨own', rfl, hperforms⟩ := hexecutes.performs hgoes.ne_back
  rw [Stack.own_on]
  exact hreplays.step h.decodes hperforms hgoes.mem_paths

theorem Executing.callsTo {entry : Nat} (hw : w ∈ code.walks)
    (h : w.Executing code path ins (.call entry) state)
    (hreplays : code.Replays path.state.routine path.pc path.state.stack.own) :
    code.CallsTo entry ins.next state := by
  have hsound := Code.sound_of_mem_walks hw
  have hbased := (hsound.contexts_of_execute (.inr h.cursor) h.executes).1
  obtain ⟨hexecutes, -⟩ := hsound.executes (.inr h.cursor) h.executes
  obtain ⟨own', rfl, hperforms⟩ := hexecutes.performs (by simp)
  refine .intro hbased hreplays h.decodes ?_ rfl
  rw [Stack.own_on]
  exact hperforms

theorem Executing.returnsFrom {net : Nat} {frame : Frame} (hw : w ∈ code.walks)
    (h : w.Executing code path ins (.back net frame) state)
    (hreaches : code.PlainlyReaches path) :
    code.ReturnsFrom frame.entry path ∧ path.state.stack.depth = net := by
  have hsound := Code.sound_of_mem_walks hw
  obtain ⟨hexecutes, -⟩ := hsound.executes (.inr h.cursor) h.executes
  have hbased := hsound.based path (.inr h.cursor)
  cases hexecutes with
  | returnsub hmove hframes =>
    have hroutine : path.state.routine = .sub frame.entry := by
      rw [State.routine, hframes]
    exact ⟨⟨hreaches, hroutine, ins, h.decodes, hmove⟩, (Stack.length_own hbased).symm⟩

theorem Executing.replaysBack {net : Nat} {frame : Frame} (hw : w ∈ code.walks)
    (h : w.Executing code path ins (.back net frame) state)
    (hreplays : code.Replays path.state.routine path.pc path.state.stack.own)
    (hcontexts : ∀ c ∈ path.state.contexts, c.Made code.CallsTo) :
    code.Returns frame.entry net := by
  have hbased := (Code.sound_of_mem_walks hw).based path (.inr h.cursor)
  obtain ⟨hreturns, hdepth⟩ := h.returnsFrom hw (hreplays.plainlyReaches hbased hcontexts)
  rw [hreturns.2.1] at hreplays
  exact .intro hreturns hbased hdepth hreplays

end

end Walk

namespace Code

variable {code : Code} {w : Walk}

theorem replays_entered (code : Code) (entry returnTo : Nat) (state : State) :
    code.Replays (state.entered returnTo entry).routine entry
      (state.entered returnTo entry).stack.own := by
  have hentry := code.replays_entry (.sub entry)
  rw [← State.own_entered returnTo entry state] at hentry
  exact hentry

/-- Whatever the walk goes on with can be replayed. -/
def replayed (code : Code) : Evidence code where
  path path := code.Replays path.state.routine path.pc path.state.stack.own
  call := code.CallsTo
  back := code.Returns
  start := code.replays_entry .main
  goes hw hexecuting hgoes hreplays := hexecuting.replays hw hgoes hreplays
  calls hw hexecuting hreplays := hexecuting.callsTo hw hreplays
  returns hw hexecuting hreplays hcontexts := hexecuting.replaysBack hw hreplays hcontexts
  enters := code.replays_entered
  resumes hcalls hreturns := hcalls.returns hreturns

/-- **Plain walks come wherever the walk comes,** on the same stack and with the same
frames. -/
theorem plainlyReaches_of_ready (hw : w ∈ code.walks) {path : Path} (hready : w.Ready path) :
    code.PlainlyReaches path := by
  have hgiven := code.replayed.given_of_mem_walks hw
  have hreplays : code.Replays path.state.routine path.pc path.state.stack.own :=
    hgiven.paths path hready
  exact hreplays.plainlyReaches ((sound_of_mem_walks hw).based path hready.live)
    (hgiven.contexts path hready.live)

theorem Visited.plainlyReaches {path : Path} (h : code.Visited path) :
    code.PlainlyReaches path := by
  obtain ⟨w, hw, hcursor⟩ := h
  exact plainlyReaches_of_ready hw (.inr (.inr hcursor))

end Code

end EvmSafety
