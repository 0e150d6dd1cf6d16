/-
The stacks keep to their limits.

Every operation that makes the data stack grow asks first whether there is room, and none
takes a slot from under the base.  So what an operation leaves is a proper stack if it found
one, whether it succeeds or fails on the way; and as a caller that waits is let go only if
what the routine leaves fits, no path that the walk follows or keeps ever has another one.

What is noted of the routines is then bounded too.  A peak is the depth of some path that was
followed in the routine, and a call is noted when a path in the routine makes it; nothing else
enters the call graph.
-/
import EvmSafety.Proofs.Replay

namespace EvmSafety

/-! ### Operations -/

section

variable {ε σ α β : Type} {P : σ → Prop}

/-- Whatever the operation finds is like this, what it leaves is too, whether it succeeds or
fails. -/
def Keeps (P : σ → Prop) (op : EStateM ε σ α) : Prop :=
  ∀ s, P s →
    match op s with
    | .ok _ s' => P s'
    | .error _ s' => P s'

theorem Keeps.ok {op : EStateM ε σ α} (h : Keeps P op) {s s' : σ} {a : α} (hs : P s)
    (hrun : op s = .ok a s') : P s' := by
  have hleft := h s hs
  rw [hrun] at hleft
  exact hleft

theorem Keeps.error {op : EStateM ε σ α} (h : Keeps P op) {s s' : σ} {e : ε} (hs : P s)
    (hrun : op s = .error e s') : P s' := by
  have hleft := h s hs
  rw [hrun] at hleft
  exact hleft

theorem keeps_pure (a : α) : Keeps P (pure a : EStateM ε σ α) :=
  fun _ hs => hs

theorem keeps_throw (e : ε) : Keeps P (throw e : EStateM ε σ α) :=
  fun _ hs => hs

theorem Keeps.bind {op : EStateM ε σ α} {rest : α → EStateM ε σ β} (hop : Keeps P op)
    (hrest : ∀ a, Keeps P (rest a)) : Keeps P (op >>= rest) := by
  intro s hs
  rw [bind_apply]
  cases hrun : op s with
  | ok a t => exact hrest a t (hop.ok hs hrun)
  | error e t => exact hop.error hs hrun

end

namespace Stack

/-- The base is not above the top, and there are no more slots than there may be. -/
structure Proper (s : Stack) : Prop where
  based : s.base ≤ s.size
  within : s.size ≤ stackCapacity

theorem proper_of_length {slots : List Slot} {base size : Nat} (hlength : slots.length = size)
    (hbased : base ≤ size) (hwithin : size ≤ stackCapacity) : Proper ⟨slots, base⟩ := by
  subst hlength
  exact ⟨hbased, hwithin⟩

theorem proper_empty : Proper {} :=
  ⟨Nat.le_refl _, Nat.zero_le _⟩

theorem Proper.raiseBase {s : Stack} (h : s.Proper) : s.raiseBase.Proper :=
  ⟨Nat.le_refl _, h.within⟩

theorem Proper.restoreBase {s : Stack} (h : s.Proper) (base : Nat) :
    (s.restoreBase base).Proper :=
  ⟨Nat.min_le_right _ _, h.within⟩

theorem size_forget (n : Nat) {s : Stack} (h : s.base ≤ s.size) :
    (s.forget n).size = s.size := by
  have hle : min n s.depth ≤ s.slots.length := Nat.le_trans (Nat.min_le_right _ _) (depth_le h)
  unfold forget
  simp only [size, List.length_append, List.length_replicate, List.length_drop]
  omega

theorem Proper.forget {s : Stack} (h : s.Proper) (n : Nat) : (s.forget n).Proper := by
  constructor
  · rw [size_forget n h.based]
    exact h.based
  · rw [size_forget n h.based]
    exact h.within

theorem keeps_push (slot : Slot) : Keeps Proper (push slot) := by
  intro s hs
  unfold push
  by_cases hroom : s.size < stackCapacity
  · rw [if_pos hroom]
    exact ⟨Nat.le_succ_of_le hs.based, hroom⟩
  · rw [if_neg hroom]
    exact hs

theorem keeps_pad (n : Nat) : Keeps Proper (pad n) := by
  intro s hs
  rw [pad_apply]
  by_cases hroom : s.size + n ≤ stackCapacity
  · have hsize : (List.replicate n Slot.unknown ++ s.slots).length = s.size + n := by
      rw [List.length_append, List.length_replicate, Nat.add_comm, size]
    rw [if_pos hroom]
    exact proper_of_length hsize (Nat.le_trans hs.based (Nat.le_add_right _ _)) hroom
  · rw [if_neg hroom]
    exact hs

/-- Slots can be removed down to the base. -/
theorem Proper.drop {s : Stack} (h : s.Proper) {n : Nat} (hle : n ≤ s.depth) :
    Proper { s with slots := s.slots.drop n } := by
  have hbased := h.based
  have hwithin := h.within
  have hsize : (s.slots.drop n).length = s.size - n := List.length_drop
  rw [depth_eq hbased] at hle
  exact proper_of_length hsize (by omega) (by omega)

theorem keeps_pop : Keeps Proper pop := by
  intro s hs
  unfold pop
  match hdepth : s.depth, hslots : s.slots with
  | 0, _ => exact hs
  | _ + 1, [] => exact hs
  | depth + 1, slot :: rest =>
    have hone : 1 ≤ s.depth := hdepth ▸ Nat.le_add_left 1 depth
    have hdrop := hs.drop hone
    rw [hslots] at hdrop
    exact hdrop

theorem keeps_discard (n : Nat) : Keeps Proper (discard n) := by
  intro s hs
  rw [discard_apply n hs.based]
  by_cases hle : n ≤ s.depth
  · rw [if_pos hle]
    exact hs.drop hle
  · rw [if_neg hle]
    exact hs

theorem keeps_dup (n : Nat) : Keeps Proper (dup n) := by
  intro s hs
  unfold dup
  by_cases hfew : n = 0 ∨ s.depth < n
  · rw [if_pos hfew]
    exact hs
  · rw [if_neg hfew]
    exact keeps_push _ s hs

theorem keeps_swap (n : Nat) : Keeps Proper (swap n) := by
  intro s hs
  unfold swap
  by_cases hfew : n = 0 ∨ s.depth ≤ n
  · rw [if_pos hfew]
    exact hs
  · have hsize : (exchange n s.slots).length = s.size := length_exchange n
    rw [if_neg hfew]
    exact proper_of_length hsize hs.based hs.within

theorem keeps_replaceTop (pops pushes : Nat) : Keeps Proper (replaceTop pops pushes) :=
  (keeps_discard pops).bind fun _ => keeps_pad pushes

theorem keeps_takeDestination (code : Code) : Keeps Proper (takeDestination code) := by
  refine keeps_pop.bind fun slot => ?_
  match slot with
  | .unknown => exact keeps_throw _
  | .constant word =>
    dsimp only
    by_cases hdest : code.isDest word.toNat = true
    · rw [if_pos hdest]
      exact keeps_pure _
    · rw [if_neg hdest]
      exact keeps_throw _

end Stack

/-- The data stack is a proper one. -/
def State.Proper (st : State) : Prop :=
  st.stack.Proper

theorem State.keeps_onStack {α : Type} {op : StackOp α} (h : Keeps Stack.Proper op) :
    Keeps State.Proper (onStack op) := by
  intro st hst
  unfold onStack
  cases hrun : op st.stack with
  | ok a stack => exact h.ok hst hrun
  | error fault stack => exact h.error hst hrun

theorem State.keeps_admitCall : Keeps State.Proper admitCall := by
  intro st hst
  unfold admitCall
  by_cases hroom : st.frames.length < stackCapacity
  · rw [if_pos hroom]
    exact hst
  · rw [if_neg hroom]
    exact hst

theorem State.keeps_ret : Keeps State.Proper ret := by
  intro st hst
  unfold ret
  match hframes : st.frames with
  | [] => exact hst
  | frame :: rest => exact Stack.Proper.restoreBase hst frame.callerBase

namespace Instruction

variable {code : Code} {ins : Instruction}

theorem keeps_attempt {α : Type} {op : StateOp α} (h : Keeps State.Proper op) :
    Keeps State.Proper (attempt op) := by
  intro st hst
  unfold attempt
  cases hrun : op st with
  | ok a st' => exact h.ok hst hrun
  | error fault st' => exact h.error hst hrun

theorem keeps_onStack {α : Type} {op : StackOp α} (h : Keeps Stack.Proper op) :
    Keeps State.Proper (onStack op) :=
  keeps_attempt (State.keeps_onStack h)

theorem keeps_leave : Keeps State.Proper leave := by
  intro st hst
  have hforget : State.Proper { st with stack := st.stack.forget st.stack.depth } :=
    Stack.Proper.forget hst _
  unfold leave
  dsimp only
  cases hrun : State.ret { st with stack := st.stack.forget st.stack.depth } with
  | ok frame st' => exact State.keeps_ret.ok hforget hrun
  | error fault st' => exact State.keeps_ret.error hforget hrun

theorem keeps_goRelative {flow : Nat → Flow} :
    Keeps State.Proper (goRelative code ins flow) := by
  unfold goRelative
  match ins.relativeLanding code with
  | some dest => exact keeps_pure _
  | none => exact keeps_throw _

/-- **No instruction leaves a data stack over its limit, or a base above the top,** whether it
succeeds or fails. -/
theorem keeps_execute : Keeps State.Proper (ins.execute code) := by
  have htake : Keeps State.Proper (onStack (Stack.takeDestination code)) :=
    keeps_onStack (Stack.keeps_takeDestination code)
  have hpop : Keeps State.Proper (onStack Stack.pop) := keeps_onStack Stack.keeps_pop
  have hthen {op : StackOp Unit} (hop : Keeps Stack.Proper op) (flow : Flow) :
      Keeps State.Proper (do onStack op; return flow) :=
    (keeps_onStack hop).bind fun _ => keeps_pure _
  unfold execute
  match ins.opcode.move with
  | .halt => exact hthen (Stack.keeps_discard _) _
  | .invalid => exact keeps_throw _
  | .push => exact hthen (Stack.keeps_push _) _
  | .dup n => exact hthen (Stack.keeps_dup n) _
  | .swap n => exact hthen (Stack.keeps_swap n) _
  | .jumpdest => exact hthen (Stack.keeps_replaceTop _ _) _
  | .effect => exact hthen (Stack.keeps_replaceTop _ _) _
  | .jump => exact htake.bind fun _ => keeps_pure _
  | .jumpi => exact htake.bind fun _ => hpop.bind fun _ => keeps_pure _
  | .rjump => exact keeps_goRelative
  | .rjumpi => exact hpop.bind fun _ => keeps_goRelative
  | .jumpsub =>
    exact htake.bind fun _ => (keeps_attempt State.keeps_admitCall).bind fun _ => keeps_pure _
  | .returnsub => exact keeps_attempt keeps_leave

end Instruction

/-! ### Paths -/

namespace Walk

variable {code : Code} {w w' : Walk}

/-- A path that is still to be followed is ready, or a caller waits with it. -/
theorem Live.ready_or_waiting {path : Path} (h : w.Live path) :
    w.Ready path ∨ ∃ caller ∈ w.waiting, caller.path = path := by
  rcases h with (h | h | h) | h
  · exact .inl (.inl h)
  · exact .inr h
  · exact .inl (.inr (.inl h))
  · exact .inl (.inr (.inr h))

/-- Every path that the walk follows or keeps has a proper data stack. -/
def Proper (w : Walk) : Prop :=
  ∀ path, w.Live path → path.state.Proper

theorem Proper.executing (h : w.Proper) {path : Path} {ins : Instruction} {flow : Flow}
    {state : State} (hexecuting : w.Executing code path ins flow state) : state.Proper :=
  Instruction.keeps_execute.ok (h path (.inr hexecuting.cursor)) hexecuting.executes

theorem Proper.step (h : w.Proper) (hstep : Step code w w') : w'.Proper := by
  have hpadded {net : Nat} {state padded : State} {u : Unit} (hstate : state.Proper)
      (hpad : State.onStack (Stack.pad net) state = .ok u padded) : padded.Proper :=
    (State.keeps_onStack (Stack.keeps_pad net)).ok hstate hpad
  have hcaller {caller : Waiting} (hcaller : caller ∈ w.waiting) : caller.path.state.Proper :=
    h caller.path (.inl (.inr (.inl ⟨caller, hcaller, rfl⟩)))
  intro path hlive
  rcases hlive.ready_or_waiting with hready | ⟨caller, hwaits, rfl⟩
  · cases onward_of_step hstep hready with
    | same hbefore => exact h path hbefore.live
    | sent hexecuting => exact h.executing hexecuting
    | entered hexecuting => exact (h.executing hexecuting).raiseBase
    | skipped hexecuting _ hpad => exact hpadded (h.executing hexecuting) hpad
    | released _ hwaits _ hresumes => exact hpadded (hcaller hwaits) hresumes.2
    | returned hexecuting => exact h.executing hexecuting
  · rcases waiting_or_calls hstep hwaits with hbefore | ⟨_, _, _, hexecuting, -, hpath⟩
    · exact hcaller hbefore
    · rw [hpath]
      exact h.executing hexecuting

end Walk

/-- **Every path of every run has a proper data stack.** -/
theorem Code.proper_of_mem_walks {code : Code} {w : Walk} (hw : w ∈ code.walks) : w.Proper := by
  refine walks_induction (motive := Walk.Proper) ?_ (fun _ _ _ _ hstep h => h.step hstep) w hw
  intro path hlive
  rw [Walk.eq_of_live_start hlive]
  exact Stack.proper_empty

/-! ### What is noted -/

namespace CallGraph

/-- What is new in the second graph: peaks and calls of these kinds. -/
structure Adds (depths : Routine → Nat → Prop) (made : Routine → Call → Prop)
    (graph graph' : CallGraph) : Prop where
  peak : ∀ routine, (graph'.usage routine).peak = (graph.usage routine).peak ∨
    depths routine (graph'.usage routine).peak
  calls : ∀ routine, ∀ call ∈ (graph'.usage routine).calls,
    call ∈ (graph.usage routine).calls ∨ made routine call

variable {depths depths' : Routine → Nat → Prop} {made made' : Routine → Call → Prop}
  {graph graph' graph'' : CallGraph}

theorem Adds.refl (graph : CallGraph) : Adds depths made graph graph :=
  ⟨fun _ => .inl rfl, fun _ _ h => .inl h⟩

theorem Adds.trans (h : Adds depths made graph graph') (h' : Adds depths made graph' graph'') :
    Adds depths made graph graph'' := by
  constructor
  · intro routine
    rcases h'.peak routine with hsame | hnew
    · rw [hsame]
      exact h.peak routine
    · exact .inr hnew
  · intro routine call hcall
    rcases h'.calls routine call hcall with hsame | hnew
    · exact h.calls routine call hsame
    · exact .inr hnew

theorem Adds.mono (h : Adds depths made graph graph')
    (hdepths : ∀ routine depth, depths routine depth → depths' routine depth)
    (hmade : ∀ routine call, made routine call → made' routine call) :
    Adds depths' made' graph graph' :=
  ⟨fun routine => (h.peak routine).imp_right (hdepths routine _),
    fun routine call hcall => (h.calls routine call hcall).imp_right (hmade routine call)⟩

theorem adds_noteDepth (graph : CallGraph) {routine : Routine} {depth : Nat}
    (h : depths routine depth) : Adds depths made graph (graph.noteDepth routine depth) := by
  constructor
  · intro other
    rw [usage_noteDepth]
    by_cases hother : routine = other
    · subst hother
      rw [if_pos rfl]
      rcases Nat.le_total depth (graph.usage routine).peak with hle | hle
      · exact .inl (Nat.max_eq_left hle)
      · refine .inr ?_
        show depths routine (max (graph.usage routine).peak depth)
        rw [Nat.max_eq_right hle]
        exact h
    · rw [if_neg hother]
      exact .inl rfl
  · intro other call hcall
    rw [usage_noteDepth] at hcall
    by_cases hother : routine = other
    · subst hother
      rw [if_pos rfl] at hcall
      exact .inl hcall
    · rw [if_neg hother] at hcall
      exact .inl hcall

theorem adds_noteCall (graph : CallGraph) {routine : Routine} {call : Call}
    (h : made routine call) : Adds depths made graph (graph.noteCall routine call) := by
  constructor
  · intro other
    rw [usage_noteCall]
    by_cases hother : routine = other
    · subst hother
      rw [if_pos rfl]
      exact .inl rfl
    · rw [if_neg hother]
      exact .inl rfl
  · intro other noted hnoted
    rw [usage_noteCall] at hnoted
    by_cases hother : routine = other
    · subst hother
      rw [if_pos rfl] at hnoted
      rcases List.mem_cons.1 hnoted with rfl | hold
      · exact .inr h
      · exact .inl hold
    · rw [if_neg hother] at hnoted
      exact .inl hnoted

end CallGraph

namespace Walk

variable {code : Code} {w w' : Walk}

/-- Some path among these is in the routine at this depth. -/
def DepthAmong (paths : Path → Prop) (routine : Routine) (depth : Nat) : Prop :=
  ∃ path, paths path ∧ path.state.routine = routine ∧ path.state.stack.depth = depth

theorem DepthAmong.mono {paths paths' : Path → Prop} (hsub : ∀ path, paths path → paths' path)
    {routine : Routine} {depth : Nat} (h : DepthAmong paths routine depth) :
    DepthAmong paths' routine depth := by
  obtain ⟨path, hpath, hroutine, hdepth⟩ := h
  exact ⟨path, hsub path hpath, hroutine, hdepth⟩

/-- The walk is about to execute this call in this routine. -/
def MakesCall (code : Code) (w : Walk) (routine : Routine) (call : Call) : Prop :=
  ∃ path ins state, w.Executing code path ins (.call call.callee) state ∧
    path.pc = call.site ∧ state.routine = routine ∧ state.stack.depth = call.depth

/-- Callers that are let go are noted where they go on. -/
theorem adds_foldlM {net : Nat} {made : Routine → Call → Prop} :
    ∀ {callers : List Waiting} {w w' : Walk}, callers.foldlM (resume net) w = .ok w' →
      CallGraph.Adds (DepthAmong (· ∈ w'.pending)) made w.graph w'.graph := by
  intro callers
  induction callers with
  | nil =>
    intro w w' h
    cases h
    exact .refl _
  | cons caller rest ih =>
    intro w w' h
    rw [List.foldlM_cons] at h
    cases hresume : w.resume net caller with
    | error _ => simp [hresume, bind, Except.bind] at h
    | ok w₁ =>
      simp only [hresume, bind, Except.bind] at h
      have hfirst : CallGraph.Adds (DepthAmong (· ∈ w₁.pending)) made w.graph w₁.graph := by
        unfold resume at hresume
        split at hresume
        · cases hresume
        · next state _ =>
          cases hresume
          exact CallGraph.adds_noteDepth _
            ⟨⟨caller.path.pc, state⟩, List.mem_cons_self, rfl, rfl⟩
      have hkept := (resumed_foldlM h).pending
      exact (hfirst.mono (fun _ _ hdepth => hdepth.mono hkept) (fun _ _ hmade => hmade)).trans
        (ih h)

theorem adds_fixNet {site entry net : Nat} {made : Routine → Call → Prop}
    (h : w.fixNet site entry net = .ok w') :
    CallGraph.Adds (DepthAmong (· ∈ w'.pending)) made w.graph w'.graph := by
  unfold fixNet at h
  split at h
  · split at h
    · cases h
      exact .refl _
    · cases h
  · have hadds : CallGraph.Adds (DepthAmong (· ∈ w'.pending)) made _ w'.graph := adds_foldlM h
    exact hadds

/-- What following an instruction notes: depths of paths that it goes on with, and its own
call. -/
theorem Follows.adds {path : Path} {ins : Instruction} {flow : Flow} {state : State}
    (h : Follows code w ins state flow w') (hexecuting : w.Executing code path ins flow state) :
    CallGraph.Adds (DepthAmong w'.Ready) (MakesCall code w) w.graph w'.graph := by
  have hoffset := Code.offset_of_decode hexecuting.decodes
  have hmade {entry : Nat} (hexecuting : w.Executing code path ins (.call entry) state) :
      CallGraph.Adds (DepthAmong w'.Ready) (MakesCall code w) w.graph
        (w.noteCall ins.offset entry state).graph :=
    CallGraph.adds_noteCall _ ⟨path, ins, state, hexecuting, hoffset.symm, rfl, rfl⟩
  cases h with
  | halt => exact .refl _
  | advance =>
    unfold goOn
    by_cases hdest : code.isDest ins.next = true
    · rw [if_pos hdest]
      exact CallGraph.adds_noteDepth _ ⟨⟨ins.next, state⟩, .inr (.inl rfl), rfl, rfl⟩
    · rw [if_neg hdest]
      exact CallGraph.adds_noteDepth _ ⟨⟨ins.next, state⟩, .inr (.inr rfl), rfl, rfl⟩
  | jump => exact .refl _
  | branch => exact .refl _
  | enter => exact hmade hexecuting
  | @skip _ _ _ padded =>
    exact (hmade hexecuting).trans
      (CallGraph.adds_noteDepth _ ⟨⟨ins.next, padded⟩, .inr (.inl rfl), rfl, rfl⟩)
  | wait => exact hmade hexecuting
  | back hfix =>
    exact (adds_fixNet hfix).mono (fun _ _ hdepth => hdepth.mono fun _ => .inl)
      (fun _ _ hmade => hmade)

theorem adds_of_step (hstep : Step code w w') :
    CallGraph.Adds (DepthAmong w'.Ready) (MakesCall code w) w.graph w'.graph := by
  cases hstep with
  | take => exact .refl _
  | opens => exact .refl _
  | rejoin => exact .refl _
  | execute hcursor hdecode hexecute hfollow =>
    exact hfollow.adds ⟨hcursor, hdecode, hexecute⟩

end Walk

namespace Code

variable {code : Code}

/-- At some moment the walk has the path on the list or follows it. -/
def Followed (code : Code) (path : Path) : Prop :=
  ∃ w ∈ code.walks, w.Ready path

/-- Everything in the call graph was seen of a path: a peak is the depth of one that was
followed in the routine, and a call was made by one. -/
structure Attested (code : Code) (graph : CallGraph) : Prop where
  peaks : ∀ routine, (graph.usage routine).peak = 0 ∨
    Walk.DepthAmong code.Followed routine (graph.usage routine).peak
  calls : ∀ routine, ∀ call ∈ (graph.usage routine).calls, ∃ path ins state,
    code.Calls path ins call.callee state ∧ path.pc = call.site ∧ state.routine = routine ∧
      state.stack.depth = call.depth

/-- **Nothing is noted that no path showed.** -/
theorem attested_of_mem_walks {w : Walk} (hw : w ∈ code.walks) : code.Attested w.graph := by
  refine walks_induction (motive := fun w => code.Attested w.graph) ?_ ?_ w hw
  · refine ⟨fun routine => .inl ?_, fun routine call hcall => ?_⟩
    · show (CallGraph.usage ∅ routine).peak = 0
      rw [CallGraph.usage_empty]
    · have hcall : call ∈ (CallGraph.usage ∅ routine).calls := hcall
      rw [CallGraph.usage_empty] at hcall
      cases hcall
  · intro w w' hw hw' hstep h
    have hadds := Walk.adds_of_step hstep
    constructor
    · intro routine
      rcases hadds.peak routine with hsame | hnew
      · rw [hsame]
        exact h.peaks routine
      · exact .inr (hnew.mono fun path hready => ⟨w', hw', hready⟩)
    · intro routine call hcall
      rcases hadds.calls routine call hcall with hsame | hnew
      · exact h.calls routine call hsame
      · obtain ⟨path, ins, state, hexecuting, hpc, hroutine, hdepth⟩ := hnew
        have hcalls : code.Calls path ins call.callee state :=
          ⟨⟨w, hw, hexecuting.cursor⟩, hexecuting.decodes, hexecuting.executes⟩
        exact ⟨path, ins, state, hcalls, hpc, hroutine, hdepth⟩

/-- A peak that is noted keeps to the limit of the data stack. -/
theorem peak_le_of_mem_walks {w : Walk} (hw : w ∈ code.walks) (routine : Routine) :
    (w.graph.usage routine).peak ≤ stackCapacity := by
  rcases (attested_of_mem_walks hw).peaks routine with hzero | ⟨path, ⟨v, hv, hready⟩, -, hdepth⟩
  · rw [hzero]
    exact Nat.zero_le _
  · rw [← hdepth]
    have hproper := proper_of_mem_walks hv path hready.live
    exact Nat.le_trans (Stack.depth_le hproper.based) hproper.within

end Code

end EvmSafety
