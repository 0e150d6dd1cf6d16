/-
Callers are left alone.

A path in a subroutine carries its callers along: their open frames, and their slots under
the base.  A context is what a routine on the path sees below itself, its frame and the slots
under its base; the contexts of a state are those of the routine it is in and of all that
wait for it to return.

No instruction changes a context.  A call adds one, a return takes the innermost away, and
everything else leaves them as they are.  As a routine is entered by a call only if no path
has reached it before, all contexts in which it ever runs come from that one call.  This is
what lets a later caller be resumed from what the first one showed.
-/
import EvmSafety.Proofs.Walks

namespace EvmSafety

/-- What a routine sees below itself: the slots under its base, and the open frames. -/
structure Context where
  below : List Slot
  frames : List Frame

namespace State

/-- The contexts of a state with these slots under its base and these frames. -/
def contextsOf : List Slot → List Frame → List Context
  | below, [] => [⟨below, []⟩]
  | below, frame :: rest =>
    ⟨below, frame :: rest⟩ :: contextsOf (below.drop (below.length - frame.callerBase)) rest

/-- The contexts of the routines on a path, the innermost first. -/
def contexts (state : State) : List Context :=
  contextsOf state.stack.below state.frames

/-- The state with `net` unknown slots more. -/
def padded (net : Nat) (state : State) : State :=
  { state with
    stack := { state.stack with slots := List.replicate net .unknown ++ state.stack.slots } }

/-- The state in which a call with this state enters a routine. -/
def entered (returnTo entry : Nat) (state : State) : State where
  stack := state.stack.raiseBase
  frames := ⟨returnTo, state.stack.base, entry⟩ :: state.frames

theorem head_mem_contextsOf (below : List Slot) (frames : List Frame) :
    ⟨below, frames⟩ ∈ contextsOf below frames := by
  cases frames <;> simp [contextsOf]

theorem padded_on (net : Nat) (own below : List Slot) (frames : List Frame) :
    padded net ⟨.on own below, frames⟩
      = ⟨.on (List.replicate net .unknown ++ own) below, frames⟩ := by
  simp [padded, Stack.on]

/-- A state whose base is not above its top, in two parts. -/
theorem eq_on {state : State} (h : state.stack.base ≤ state.stack.size) :
    state = ⟨.on state.stack.own state.stack.below, state.frames⟩ := by
  rw [Stack.on_own_below h]

theorem contexts_on (own below : List Slot) (frames : List Frame) :
    contexts ⟨.on own below, frames⟩ = contextsOf below frames := by
  rw [contexts, Stack.below_on]

theorem contexts_padded {net : Nat} {state : State}
    (h : state.stack.base ≤ state.stack.size) : (state.padded net).contexts = state.contexts := by
  rw [eq_on h, padded_on, contexts_on, contexts_on]

/-- A call adds the context of the routine it enters. -/
theorem contexts_entered {returnTo entry : Nat} {state : State}
    (h : state.stack.base ≤ state.stack.size) :
    (state.entered returnTo entry).contexts
      = ⟨state.stack.slots, ⟨returnTo, state.stack.base, entry⟩ :: state.frames⟩
        :: state.contexts := by
  have hlen (own below : List Slot) : (own ++ below).length - below.length = own.length := by
    simp
  rw [eq_on h, entered, Stack.raiseBase_on, contexts_on, contexts_on, contextsOf, Stack.base_on,
    Stack.slots_on, hlen, List.drop_left]

theorem size_padded (net : Nat) (state : State) :
    (state.padded net).stack.size = net + state.stack.size := by
  simp [padded, Stack.size]

theorem depth_padded (net : Nat) {state : State} (h : state.stack.base ≤ state.stack.size) :
    (state.padded net).stack.depth = state.stack.depth + net := by
  rw [eq_on h, padded_on, Stack.depth_on, Stack.depth_on, List.length_append,
    List.length_replicate, Nat.add_comm]

theorem onStack_pad (net : Nat) (state : State) :
    onStack (Stack.pad net) state =
      if state.stack.size + net ≤ stackCapacity then .ok () (state.padded net)
      else .error .overflow state := by
  rw [onStack, Stack.pad_apply]
  by_cases hroom : state.stack.size + net ≤ stackCapacity
  · simp only [if_pos hroom]
    rfl
  · simp only [if_neg hroom]

theorem eq_padded_of_pad {net : Nat} {state state' : State} {u : Unit}
    (h : onStack (Stack.pad net) state = .ok u state') : state' = state.padded net := by
  rw [onStack_pad] at h
  by_cases hroom : state.stack.size + net ≤ stackCapacity
  · rw [if_pos hroom] at h
    cases h
    rfl
  · rw [if_neg hroom] at h
    cases h

end State

namespace Instruction

/-- **An instruction leaves the contexts alone,** but for the one a return closes. -/
theorem Executes.contexts {code : Code} {ins : Instruction} {own below : List Slot}
    {frames : List Frame} {flow : Flow} {state : State}
    (h : Executes code ins own below frames flow state)
    (hbase : ∀ frame rest, frames = frame :: rest → frame.callerBase ≤ below.length) :
    state.stack.base ≤ state.stack.size ∧
      ∀ c ∈ state.contexts, c ∈ State.contextsOf below frames := by
  have hbased (own' below' : List Slot) :
      (Stack.on own' below').base ≤ (Stack.on own' below').size := by
    rw [Stack.base_on, Stack.size_on]
    exact Nat.le_add_left ..
  cases h with
  | returnsub _ hframes =>
    rw [Stack.restoreBase_on (hbase _ _ hframes)]
    refine ⟨hbased _ _, ?_⟩
    intro c hc
    rw [State.contexts_on] at hc
    rw [hframes]
    exact List.mem_cons_of_mem _ hc
  | _ => exact ⟨hbased _ _, fun c hc => by rwa [State.contexts_on] at hc⟩

end Instruction

namespace Walk

variable {code : Code}

/-! ### The paths a walk still has to follow -/

/-- The path is left for later, waits for a routine, or comes to a block entry. -/
def Due (w : Walk) (path : Path) : Prop :=
  path ∈ w.pending ∨ (∃ caller ∈ w.waiting, caller.path = path) ∨ w.cursor = .arriving path

/-- The path is still to be followed, or is being followed. -/
def Live (w : Walk) (path : Path) : Prop :=
  w.Due path ∨ w.cursor = .inside path

/-- Where the walk sends a path with the flow of an instruction, if it sends it to the
beginning of a block. -/
inductive Lands (code : Code) (ins : Instruction) : Flow → Nat → Prop
  | advance (hdest : code.isDest ins.next = true) : Lands code ins .advance ins.next
  | jump {dest : Nat} : Lands code ins (.jump dest) dest
  | taken {dest : Nat} : Lands code ins (.branch dest) dest
  | passed {dest : Nat} : Lands code ins (.branch dest) ins.next
  | behind {entry : Nat} : Lands code ins (.call entry) ins.next
  | back {net : Nat} {frame : Frame} : Lands code ins (.back net frame) frame.returnTo

/-- Why a path is still to be followed: it was so before, an instruction sent it, a return
let it go on, or a call opened a routine that no path had reached. -/
inductive Origin (code : Code) (w w' : Walk) : Path → Prop
  | same {path : Path} (h : w.Due path) : Origin code w w' path
  | sent {path : Path} {ins : Instruction} {flow : Flow} {state : State} {pc net : Nat}
      (hcursor : w.cursor = .inside path) (hdecode : code.decode path.pc = .ok ins)
      (hexecute : ins.execute code path.state = .ok flow state)
      (hlands : Lands code ins flow pc) : Origin code w w' ⟨pc, state.padded net⟩
  | resumed {caller : Waiting} {net : Nat} (hcaller : caller ∈ w.waiting) :
      Origin code w w' ⟨caller.path.pc, caller.path.state.padded net⟩
  | entered {path : Path} {ins : Instruction} {entry : Nat} {state : State}
      (hcursor : w.cursor = .inside path) (hdecode : code.decode path.pc = .ok ins)
      (hexecute : ins.execute code path.state = .ok (.call entry) state)
      (hnew : w.arrivals[entry]? = none)
      (hcursor' : w'.cursor = .arriving ⟨entry, state.entered ins.next entry⟩) :
      Origin code w w' ⟨entry, state.entered ins.next entry⟩

theorem Resumes.eq_padded {net : Nat} {caller : Waiting} {path : Path}
    (h : Resumes net caller path) :
    path = ⟨caller.path.pc, caller.path.state.padded net⟩ := by
  obtain ⟨hpc, hpad⟩ := h
  obtain ⟨pc, state⟩ := path
  simp only at hpc hpad
  rw [hpc, State.eq_padded_of_pad hpad]

theorem Follows.origin {w w' : Walk} {path : Path} {ins : Instruction} {flow : Flow}
    {state : State} (h : Follows code w ins state flow w') (hcursor : w.cursor = .inside path)
    (hdecode : code.decode path.pc = .ok ins)
    (hexecute : ins.execute code path.state = .ok flow state) {path' : Path}
    (hdue : w'.Due path') : Origin code w w' path' := by
  have hsent {pc : Nat} (hlands : Lands code ins flow pc) : Origin code w w' ⟨pc, state⟩ := by
    have h : Origin code w w' ⟨pc, state.padded 0⟩ := .sent hcursor hdecode hexecute hlands
    exact h
  have hpending : path' ∈ w.pending → Origin code w w' path' := fun h => .same (.inl h)
  have hwaiting : (∃ caller ∈ w.waiting, caller.path = path') → Origin code w w' path' :=
    fun h => .same (.inr (.inl h))
  cases h with
  | halt =>
    rcases hdue with h | h | h
    · exact hpending h
    · exact hwaiting h
    · cases h
  | advance =>
    unfold goOn at hdue
    split at hdue
    · next hdest =>
      rcases hdue with h | h | h
      · exact hpending h
      · exact hwaiting h
      · cases h
        exact hsent (.advance hdest)
    · rcases hdue with h | h | h
      · exact hpending h
      · exact hwaiting h
      · cases h
  | jump =>
    rcases hdue with h | h | h
    · exact hpending h
    · exact hwaiting h
    · cases h
      exact hsent .jump
  | branch =>
    rcases hdue with h | h | h
    · rcases List.mem_cons.1 h with rfl | h
      · exact hsent .passed
      · exact hpending h
    · exact hwaiting h
    · cases h
      exact hsent .taken
  | enter hnew =>
    rcases hdue with h | h | h
    · exact hpending h
    · exact hwaiting h
    · cases h
      exact .entered hcursor hdecode hexecute hnew rfl
  | skip _ _ _ hpad =>
    rcases hdue with h | h | h
    · exact hpending h
    · exact hwaiting h
    · cases h
      rw [State.eq_padded_of_pad hpad]
      exact .sent hcursor hdecode hexecute .behind
  | wait =>
    rcases hdue with h | ⟨caller, hcaller, h⟩ | h
    · exact hpending h
    · rcases List.mem_cons.1 hcaller with rfl | hcaller
      · subst h
        exact hsent .behind
      · exact hwaiting ⟨caller, hcaller, h⟩
    · cases h
  | back hfix =>
    have hfixed := fixed_of_fixNet hfix
    rcases hdue with h | ⟨caller, hcaller, h⟩ | h
    · rcases hfixed.origin path' h with h | ⟨caller, hcaller, hresumes⟩
      · exact hpending h
      · rw [hresumes.eq_padded]
        exact .resumed hcaller
    · exact hwaiting ⟨caller, hfixed.waiting caller hcaller, h⟩
    · cases h
      exact hsent .back

theorem origin_of_step {w w' : Walk} (h : Step code w w') {path : Path} (hdue : w'.Due path) :
    Origin code w w' path := by
  cases h with
  | take _ hpending =>
    rcases hdue with h | h | h
    · exact .same (.inl (hpending ▸ List.mem_cons_of_mem _ h))
    · exact .same (.inr (.inl h))
    · cases h
      exact .same (.inl (hpending ▸ List.mem_cons_self))
  | opens =>
    rcases hdue with h | h | h
    · exact .same (.inl h)
    · exact .same (.inr (.inl h))
    · cases h
  | rejoin =>
    rcases hdue with h | h | h
    · exact .same (.inl h)
    · exact .same (.inr (.inl h))
    · cases h
  | execute hcursor hdecode hexecute hfollow => exact hfollow.origin hcursor hdecode hexecute hdue

/-- A path that is followed has opened a block, or went on inside one. -/
theorem inside_of_step {w w' : Walk} (h : Step code w w') {path : Path}
    (hinside : w'.cursor = .inside path) :
    (w.cursor = .arriving path ∧ w.arrivals[path.pc]? = none ∧
      w'.arrivals[path.pc]? = some path.arrival) ∨
    ∃ before ins, w.cursor = .inside before ∧ code.decode before.pc = .ok ins ∧
      ins.execute code before.state = .ok .advance path.state ∧ ins.next = path.pc ∧
      code.isDest path.pc ≠ true := by
  cases h with
  | take => cases hinside
  | opens hcursor hnew =>
    cases hinside
    exact .inl ⟨hcursor, hnew, by simp⟩
  | rejoin => cases hinside
  | execute hcursor hdecode hexecute hfollow =>
    cases hfollow with
    | advance =>
      unfold goOn at hinside
      split at hinside
      · cases hinside
      · next hdest =>
        cases hinside
        exact .inr ⟨_, _, hcursor, hdecode, hexecute, rfl, hdest⟩
    | _ => cases hinside

/-! ### What holds of all contexts -/

/-- The routine at `entry` has been entered by a call, or is about to be. -/
def Entered (w : Walk) (entry : Nat) : Prop :=
  w.arrivals[entry]? = some ⟨.sub entry, 0⟩ ∨
    ∃ path, w.cursor = .arriving path ∧ path.pc = entry ∧ path.arrival = ⟨.sub entry, 0⟩

/-- A routine that has been entered stays entered. -/
theorem entered_of_step {w w' : Walk} (h : Step code w w') {entry : Nat}
    (hentered : w.Entered entry) : w'.Entered entry := by
  rcases hentered with hseen | ⟨path, hcursor, rfl, harrival⟩
  · exact .inl ((grows_of_step h).arrivals entry _ hseen)
  · exact .inl (harrival ▸ h.of_arriving hcursor)

end Walk

/-- A context that a call made: the caller's base lies in the slots below, the frame leads
behind the call, and its routine has been entered.  Nothing lies below the main routine. -/
def Context.Sound (code : Code) (w : Walk) (c : Context) : Prop :=
  match c.frames with
  | [] => c.below = []
  | frame :: _ =>
    frame.callerBase ≤ c.below.length ∧ code.BeginsBlock frame.returnTo ∧ w.Entered frame.entry

theorem Context.Sound.mono {code : Code} {w w' : Walk} (h : Walk.Step code w w') {c : Context}
    (hc : c.Sound code w) : c.Sound code w' := by
  obtain ⟨below, frames⟩ := c
  cases frames with
  | nil => exact hc
  | cons frame rest => exact ⟨hc.1, hc.2.1, Walk.entered_of_step h hc.2.2⟩

namespace Walk

/-- What holds of a walk at every moment. -/
structure Sound (code : Code) (w : Walk) : Prop where
  /-- No path has its base above its top. -/
  based : ∀ path, w.Live path → path.state.stack.base ≤ path.state.stack.size
  /-- Every context was made by a call. -/
  contexts : ∀ path, w.Live path → ∀ c ∈ path.state.contexts, c.Sound code w
  /-- Paths go on at the beginnings of blocks. -/
  begins : ∀ path, w.Due path → code.BeginsBlock path.pc
  /-- Only a routine that has been entered returns. -/
  fixed : ∀ entry net : Nat, w.nets[entry]? = some net → w.Entered entry

variable {code : Code} {w w' : Walk}

/-- What an instruction does on a sound walk, and the frame it finds on top. -/
theorem Sound.executes (hsound : w.Sound code) {path : Path} {ins : Instruction} {flow : Flow}
    {state : State} (hlive : w.Live path)
    (hexecute : ins.execute code path.state = .ok flow state) :
    Instruction.Executes code ins path.state.stack.own path.state.stack.below path.state.frames
        flow state ∧
      ∀ frame rest, path.state.frames = frame :: rest →
        frame.callerBase ≤ path.state.stack.below.length ∧ code.BeginsBlock frame.returnTo ∧
          w.Entered frame.entry := by
  have hon := State.eq_on (hsound.based path hlive)
  constructor
  · rw [hon] at hexecute
    exact Instruction.executes_of_execute hexecute
  · intro frame rest hframes
    have hhead := State.head_mem_contextsOf path.state.stack.below path.state.frames
    have hc := hsound.contexts path hlive _ hhead
    rw [hframes] at hc
    exact hc

/-- What an instruction leaves is based, and has no contexts but those it found. -/
theorem Sound.contexts_of_execute (hsound : w.Sound code) {path : Path} {ins : Instruction}
    {flow : Flow} {state : State} (hlive : w.Live path)
    (hexecute : ins.execute code path.state = .ok flow state) :
    state.stack.base ≤ state.stack.size ∧
      ∀ c ∈ state.contexts, c ∈ path.state.contexts := by
  obtain ⟨hexecutes, hframe⟩ := hsound.executes hlive hexecute
  exact hexecutes.contexts fun frame rest hframes => (hframe frame rest hframes).1

/-- What is still to be followed after a step is based, and its contexts were there before,
but for the one that a call adds. -/
theorem Sound.contexts_of_step (hsound : w.Sound code) (hstep : Step code w w') {path : Path}
    (hlive : w'.Live path) :
    path.state.stack.base ≤ path.state.stack.size ∧
      ∀ c ∈ path.state.contexts,
        (∃ before, w.Live before ∧ c ∈ before.state.contexts) ∨
        ∃ caller ins state,
          w.cursor = .inside caller ∧ code.decode caller.pc = .ok ins ∧
          ins.execute code caller.state = .ok (.call path.pc) state ∧
          w.arrivals[path.pc]? = none ∧
          w'.cursor = .arriving ⟨path.pc, state.entered ins.next path.pc⟩ ∧
          state.stack.base ≤ state.stack.size ∧
          c = ⟨state.stack.slots, ⟨ins.next, state.stack.base, path.pc⟩ :: state.frames⟩ := by
  have hpadded (net : Nat) {state : State} (h : state.stack.base ≤ state.stack.size) :
      (state.padded net).stack.base ≤ (state.padded net).stack.size := by
    rw [State.size_padded]
    exact Nat.le_trans h (Nat.le_add_left _ _)
  rcases hlive with hdue | hinside
  · cases origin_of_step hstep hdue with
    | same h => exact ⟨hsound.based _ (.inl h), fun c hc => .inl ⟨_, .inl h, hc⟩⟩
    | sent hcursor _ hexecute =>
      obtain ⟨hbased, hcontexts⟩ := hsound.contexts_of_execute (.inr hcursor) hexecute
      refine ⟨hpadded _ hbased, ?_⟩
      intro c hc
      rw [State.contexts_padded hbased] at hc
      exact .inl ⟨_, .inr hcursor, hcontexts c hc⟩
    | @resumed caller _ hcaller =>
      have hcallerLive : w.Live caller.path := .inl (.inr (.inl ⟨caller, hcaller, rfl⟩))
      have hbased := hsound.based _ hcallerLive
      refine ⟨hpadded _ hbased, ?_⟩
      intro c hc
      rw [State.contexts_padded hbased] at hc
      exact .inl ⟨_, hcallerLive, hc⟩
    | @entered caller ins entry state hcursor hdecode hexecute hnew hcursor' =>
      obtain ⟨hbased, hcontexts⟩ := hsound.contexts_of_execute (.inr hcursor) hexecute
      refine ⟨Nat.le_refl _, ?_⟩
      intro c hc
      -- The context that the call makes comes first, and behind it those of the caller.
      rw [State.contexts_entered hbased] at hc
      rcases List.mem_cons.1 hc with rfl | hc
      · exact .inr ⟨caller, ins, state, hcursor, hdecode, hexecute, hnew, hcursor', hbased, rfl⟩
      · exact .inl ⟨caller, .inr hcursor, hcontexts c hc⟩
  · rcases inside_of_step hstep hinside with ⟨hcursor, -⟩ | ⟨before, ins, hcursor, -, hexecute, -⟩
    · have hbefore : w.Live path := .inl (.inr (.inr hcursor))
      exact ⟨hsound.based _ hbefore, fun c hc => .inl ⟨_, hbefore, hc⟩⟩
    · obtain ⟨hbased, hcontexts⟩ := hsound.contexts_of_execute (.inr hcursor) hexecute
      exact ⟨hbased, fun c hc => .inl ⟨_, .inr hcursor, hcontexts c hc⟩⟩

theorem routine_entered (returnTo entry : Nat) (state : State) :
    (state.entered returnTo entry).routine = .sub entry := rfl

theorem arrival_entered (returnTo entry : Nat) (state : State) :
    Path.arrival ⟨entry, state.entered returnTo entry⟩ = ⟨.sub entry, 0⟩ := by
  have hdepth : (state.entered returnTo entry).stack.depth = 0 := Stack.depth_raiseBase _
  rw [Path.arrival, hdepth, routine_entered]

/-- Only a call that enters a new routine adds a context, and that context is sound. -/
theorem Sound.contexts_sound (hsound : w.Sound code) (hstep : Step code w w') {path : Path}
    (hlive : w'.Live path) : ∀ c ∈ path.state.contexts, c.Sound code w' := by
  intro c hc
  rcases (hsound.contexts_of_step hstep hlive).2 c hc with ⟨before, hbefore, hc⟩ |
    ⟨caller, ins, state, hcursor, hdecode, hexecute, -, hcursor', hbased, rfl⟩
  · exact (hsound.contexts before hbefore c hc).mono hstep
  · obtain ⟨hexecutes, -⟩ := hsound.executes (.inr hcursor) hexecute
    obtain ⟨hmove, -⟩ := hexecutes.of_call
    refine ⟨hbased, Code.beginsBlock_next hdecode (.inr (.inr hmove)), .inr ?_⟩
    exact ⟨_, hcursor', rfl, arrival_entered _ _ _⟩

theorem Lands.beginsBlock {ins : Instruction} {offset : Nat} {own below : List Slot}
    {frames : List Frame} {flow : Flow} {state : State} {pc : Nat} (h : Lands code ins flow pc)
    (hdecode : code.decode offset = .ok ins)
    (hexecutes : Instruction.Executes code ins own below frames flow state)
    (hreturns : ∀ frame rest, frames = frame :: rest → code.BeginsBlock frame.returnTo) :
    code.BeginsBlock pc := by
  cases h with
  | advance hdest => exact Code.beginsBlock_of_isDest hdest
  | jump =>
    cases hexecutes with
    | jump _ _ hdest => exact Code.beginsBlock_of_isDest hdest
    | rjump _ _ hdest => exact Code.beginsBlock_of_isDest hdest
  | taken =>
    cases hexecutes with
    | jumpi _ _ hdest => exact Code.beginsBlock_of_isDest hdest
    | rjumpi _ _ _ hdest => exact Code.beginsBlock_of_isDest hdest
  | passed =>
    cases hexecutes with
    | jumpi hmove => exact Code.beginsBlock_next hdecode (.inl hmove)
    | rjumpi hmove => exact Code.beginsBlock_next hdecode (.inr (.inl hmove))
  | behind =>
    cases hexecutes with
    | jumpsub hmove => exact Code.beginsBlock_next hdecode (.inr (.inr hmove))
  | back =>
    cases hexecutes with
    | returnsub _ hframes => exact hreturns _ _ hframes

/-- Where a path is left for later or brought to a block entry, a block begins. -/
theorem Sound.begins_of_step (hsound : w.Sound code) (hstep : Step code w w') {path : Path}
    (hdue : w'.Due path) : code.BeginsBlock path.pc := by
  cases origin_of_step hstep hdue with
  | same h => exact hsound.begins _ h
  | sent hcursor hdecode hexecute hlands =>
    obtain ⟨hexecutes, hframe⟩ := hsound.executes (.inr hcursor) hexecute
    refine hlands.beginsBlock hdecode hexecutes ?_
    intro frame rest hframes
    exact (hframe frame rest hframes).2.1
  | @resumed caller _ hcaller =>
    exact hsound.begins caller.path (.inr (.inl ⟨caller, hcaller, rfl⟩))
  | entered hcursor _ hexecute =>
    obtain ⟨hexecutes, -⟩ := hsound.executes (.inr hcursor) hexecute
    cases hexecutes with
    | jumpsub _ _ hdest => exact Code.beginsBlock_of_isDest hdest

/-- Only a return fixes what a routine leaves. -/
theorem nets_of_step (hstep : Step code w w') {entry net : Nat}
    (hnet : w'.nets[entry]? = some net) :
    w.nets[entry]? = some net ∨
    ∃ (path : Path) (ins : Instruction) (state : State) (frame : Frame),
      w.cursor = .inside path ∧ code.decode path.pc = .ok ins ∧
        ins.execute code path.state = .ok (.back net frame) state ∧
        frame.entry = entry ∧ w'.cursor = .arriving ⟨frame.returnTo, state⟩ := by
  cases hstep with
  | take => exact .inl hnet
  | opens => exact .inl hnet
  | rejoin => exact .inl hnet
  | execute hcursor hdecode hexecute hfollow =>
    cases hfollow with
    | advance =>
      unfold goOn at hnet
      split at hnet
      · exact .inl hnet
      · exact .inl hnet
    | @back returned frame _ hfix =>
      have hfixed := fixed_of_fixNet hfix
      by_cases hentry : frame.entry = entry
      · have heq : returned = net :=
          Option.some.inj ((hentry ▸ hfixed.fixes).symm.trans hnet)
        subst heq
        exact .inr ⟨_, _, _, _, hcursor, hdecode, hexecute, hentry, rfl⟩
      · have hother := hfixed.others entry (Ne.symm hentry)
        exact .inl (hother.symm.trans hnet)
    | _ => exact .inl hnet

theorem Sound.step (hsound : w.Sound code) (hstep : Step code w w') : w'.Sound code where
  based path hlive := (hsound.contexts_of_step hstep hlive).1
  contexts path hlive := hsound.contexts_sound hstep hlive
  begins path hdue := hsound.begins_of_step hstep hdue
  fixed entry net hnet := by
    rcases nets_of_step hstep hnet with hnet |
      ⟨path, ins, state, frame, hcursor, -, hexecute, rfl, -⟩
    · exact entered_of_step hstep (hsound.fixed entry net hnet)
    · obtain ⟨hexecutes, hframe⟩ := hsound.executes (.inr hcursor) hexecute
      cases hexecutes with
      | returnsub _ hframes => exact entered_of_step hstep (hframe _ _ hframes).2.2

/-- At the start there is one path to follow. -/
theorem eq_of_live_start {path : Path} (h : Walk.start.Live path) : path = ⟨0, {}⟩ := by
  rcases h with (h | ⟨caller, h, -⟩ | h) | h
  · exact List.mem_singleton.1 h
  · cases h
  · cases h
  · cases h

theorem sound_start : Walk.start.Sound code := by
  refine ⟨?_, ?_, ?_, ?_⟩
  · intro path hlive
    rw [eq_of_live_start hlive]
    exact Nat.le_refl _
  · intro path hlive c hc
    rw [eq_of_live_start hlive] at hc
    rw [List.mem_singleton.1 hc]
    rfl
  · intro path hdue
    rw [eq_of_live_start (.inl hdue)]
    exact .inl rfl
  · intro entry net h
    simp [start] at h

end Walk

/-- **The walk of a code is sound at every moment.** -/
theorem Code.sound_of_mem_walks {code : Code} {w : Walk} (hw : w ∈ code.walks) : w.Sound code :=
  walks_induction (motive := fun w => w.Sound code) Walk.sound_start
    (fun _ _ _ _ hstep hsound => hsound.step hstep) w hw

theorem Code.Visited.based {code : Code} {path : Path} (h : code.Visited path) :
    path.state.stack.base ≤ path.state.stack.size := by
  obtain ⟨w, hw, hcursor⟩ := h
  exact (sound_of_mem_walks hw).based path (.inr hcursor)

/-! ### Where frames lead -/

theorem Opcode.width_of_jumpsub : ∀ op ∈ table, op.move = .jumpsub → op.width = 0 := by
  decide +kernel

namespace Code

variable {code : Code}

/-- A call has no immediate, so the byte before the offset behind it is the call itself. -/
theorem isBehindCall_next {offset : Nat} {ins : Instruction}
    (hdecode : code.decode offset = .ok ins) (hmove : ins.opcode.move = .jumpsub) :
    code.isBehindCall ins.next = true := by
  have hwidth := Opcode.width_of_jumpsub _ (mem_table_of_decode hdecode) hmove
  have hnext : ins.next = offset + 1 := by
    rw [Instruction.next, hwidth, offset_of_decode hdecode]
  rw [hnext, isBehindCall, hdecode]
  exact decide_eq_true hmove

/-- **Every frame of a path leads right behind a call.** -/
theorem isBehindCall_of_live {w : Walk} (hw : w ∈ code.walks) :
    ∀ path, w.Live path → ∀ c ∈ path.state.contexts, ∀ frame rest, c.frames = frame :: rest →
      code.isBehindCall frame.returnTo = true := by
  refine walks_induction (motive := fun w => ∀ path, w.Live path →
    ∀ c ∈ path.state.contexts, ∀ frame rest, c.frames = frame :: rest →
      code.isBehindCall frame.returnTo = true) ?_ ?_ w hw
  · intro path hlive c hc frame rest hframes
    rw [Walk.eq_of_live_start hlive] at hc
    rw [List.mem_singleton.1 hc] at hframes
    cases hframes
  · intro w w' hw _ hstep ih path hlive c hc frame rest hframes
    have hsound := sound_of_mem_walks hw
    rcases (hsound.contexts_of_step hstep hlive).2 c hc with ⟨before, hbefore, hc⟩ |
      ⟨caller, ins, state, hcursor, hdecode, hexecute, -, -, -, rfl⟩
    · exact ih before hbefore c hc frame rest hframes
    · cases hframes
      exact isBehindCall_next hdecode (hsound.executes (.inr hcursor) hexecute).1.of_call.1

end Code

end EvmSafety
