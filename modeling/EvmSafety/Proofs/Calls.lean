/-
What becomes of a call.

A call is answered in one of three ways.  The first caller's path goes into the routine; a
caller that comes when the routine's net is fixed goes on behind its call at once; one that
comes in between waits.  `Pledged` says in which of these phases a call is, and every step
keeps the pledge: once the net is fixed, the path behind the call, with that many unknown
slots more, is on the list or has arrived.

The phase that takes an argument is the first.  The routine is entered once, so every path
that is ever in it has the context of that one call, and the first return from it hands
exactly the caller's state back.
-/
import EvmSafety.Proofs.Once

namespace EvmSafety

/-- The state that a return restores is the caller's, with the slots that are handed over. -/
theorem State.restoreBase_slots (net : Nat) {state : State}
    (h : state.stack.base ≤ state.stack.size) :
    (⟨(Stack.on (List.replicate net .unknown) state.stack.slots).restoreBase state.stack.base,
      state.frames⟩ : State) = state.padded net := by
  have hlen : state.stack.slots.length - state.stack.base ≤ state.stack.slots.length :=
    Nat.sub_le _ _
  have hbase : state.stack.slots.length - (state.stack.slots.length - state.stack.base)
      = state.stack.base := by
    rw [Stack.size] at h
    omega
  rw [Stack.restoreBase_on h]
  simp only [padded, Stack.on, List.append_assoc, List.take_append_drop, List.length_drop, hbase]

namespace Code

/-- The walk calls the routine at `entry` from this path, and is in this state once the
destination is taken. -/
structure Calls (code : Code) (path : Path) (ins : Instruction) (entry : Nat) (state : State) :
    Prop where
  visited : code.Visited path
  decodes : code.decode path.pc = .ok ins
  executes : ins.execute code path.state = .ok (.call entry) state

end Code

namespace Walk

variable {code : Code} {w w' : Walk} {entry : Nat} {path : Path}

/-- All that is still followed in the routine at `entry` has this context. -/
def Only (w : Walk) (entry : Nat) (context : Context) : Prop :=
  ∀ live, w.Live live → ∀ c ∈ live.state.contexts, ∀ frame rest,
    c.frames = frame :: rest → frame.entry = entry → c = context

/-- What the routine at `entry` sees below itself if it is called with this path behind. -/
def contextOf (entry : Nat) (path : Path) : Context where
  below := path.state.stack.slots
  frames := ⟨path.pc, path.state.stack.base, entry⟩ :: path.state.frames

/-- In which phase a call is: `path` is the one behind it, without what the routine leaves. -/
inductive Pledged (code : Code) (w : Walk) (entry : Nat) (path : Path) : Prop
  /-- It waits for the first return. -/
  | waits {site : Nat} (hnet : w.nets[entry]? = none) (hcaller : ⟨entry, site, path⟩ ∈ w.waiting)
  /-- It is the call through which the routine is entered, and nothing has returned yet. -/
  | inside (hnet : w.nets[entry]? = none) (hentered : w.Entered entry)
      (hbased : path.state.stack.base ≤ path.state.stack.size)
      (honly : w.Only entry (contextOf entry path))
  /-- The net is fixed, and the path goes on. -/
  | answered {net : Nat} (hnet : w.nets[entry]? = some net)
      (hgoes : ⟨path.pc, path.state.padded net⟩ ∈ w.pending ∨
        code.Arrives ⟨path.pc, path.state.padded net⟩)

/-- A routine that no path has reached is not entered while an instruction is executed. -/
theorem not_entered {before : Path} (hcursor : w.cursor = .inside before)
    (hnew : w.arrivals[entry]? = none) : ¬ w.Entered entry := by
  rintro (hseen | ⟨_, hcursor', -⟩)
  · rw [hnew] at hseen
    cases hseen
  · rw [hcursor] at hcursor'
    cases hcursor'

/-- A caller that waits goes on waiting, or its routine returns and it is let go. -/
theorem waiting_of_step (hstep : Step code w w') {caller : Waiting}
    (hcaller : caller ∈ w.waiting) (hnet : w.nets[caller.callee]? = none) :
    (w'.nets[caller.callee]? = none ∧ caller ∈ w'.waiting) ∨
      ∃ net, w'.nets[caller.callee]? = some net ∧ ∃ path ∈ w'.pending, Resumes net caller path := by
  cases hstep with
  | take => exact .inl ⟨hnet, hcaller⟩
  | opens => exact .inl ⟨hnet, hcaller⟩
  | rejoin => exact .inl ⟨hnet, hcaller⟩
  | execute hcursor hdecode hexecute hfollow =>
    cases hfollow with
    | advance =>
      unfold goOn
      split
      · exact .inl ⟨hnet, hcaller⟩
      · exact .inl ⟨hnet, hcaller⟩
    | wait => exact .inl ⟨hnet, List.mem_cons_of_mem _ hcaller⟩
    | @back net frame _ hfix =>
      have hfixed := fixed_of_fixNet hfix
      by_cases hcallee : caller.callee = frame.entry
      · rw [hcallee] at hnet ⊢
        exact .inr ⟨net, hfixed.fixes, hfixed.released hnet caller hcaller hcallee⟩
      · have hother := hfixed.others _ hcallee
        exact .inl ⟨hother.trans hnet, hfixed.kept caller hcaller hcallee⟩
    | _ => exact .inl ⟨hnet, hcaller⟩

/-- As long as nothing returns, all paths in the routine keep the context of its one call. -/
theorem Only.step {context : Context} (honly : w.Only entry context) (hsound : w.Sound code)
    (hstep : Step code w w') (hentered : w.Entered entry) : w'.Only entry context := by
  intro live hlive c hc frame rest hframes hentry
  rcases (hsound.contexts_of_step hstep hlive).2 c hc with ⟨before, hbefore, hc⟩ |
    ⟨caller, ins, state, hcursor, -, -, hnew, -, -, rfl⟩
  · exact honly before hbefore c hc frame rest hframes hentry
  · cases hframes
    cases hentry
    exact absurd hentered (not_entered hcursor hnew)

/-- The first return from a routine hands the state of its one caller back. -/
theorem returns_of_only (hsound : w.Sound code) (hstep : Step code w w') {net : Nat}
    (hnet : w.nets[entry]? = none) (hnet' : w'.nets[entry]? = some net)
    (hbased : path.state.stack.base ≤ path.state.stack.size)
    (honly : w.Only entry (contextOf entry path)) :
    w'.cursor = .arriving ⟨path.pc, path.state.padded net⟩ := by
  rcases nets_of_step hstep hnet' with h |
    ⟨current, ins, state, frame, hcursor, -, hexecute, hentry, hcursor'⟩
  · rw [hnet] at h
    cases h
  · obtain ⟨hexecutes, -⟩ := hsound.executes (.inr hcursor) hexecute
    have hhead := State.head_mem_contextsOf current.state.stack.below current.state.frames
    cases hexecutes with
    | returnsub _ hframes =>
      have hcontext := honly current (.inr hcursor) _ hhead _ _ hframes hentry
      rw [hframes, contextOf, Context.mk.injEq, List.cons.injEq] at hcontext
      obtain ⟨hbelow, rfl, rfl⟩ := hcontext
      rw [hcursor', hbelow]
      exact congrArg (fun s => Cursor.arriving ⟨path.pc, s⟩) (State.restoreBase_slots _ hbased)

/-- **Every step keeps the pledge.** -/
theorem Pledged.step (hw' : w' ∈ code.walks) (hsound : w.Sound code) (hstep : Step code w w')
    (h : Pledged code w entry path) : Pledged code w' entry path := by
  cases h with
  | @waits site hnet hcaller =>
    rcases waiting_of_step hstep hcaller hnet with ⟨hnet', hcaller'⟩ |
      ⟨net, hnet', resumed, hpending, hresumes⟩
    · exact .waits hnet' hcaller'
    · rw [hresumes.eq_padded] at hpending
      exact .answered hnet' (.inl hpending)
  | inside hnet hentered hbased honly =>
    cases hnet' : w'.nets[entry]? with
    | none =>
      exact .inside hnet' (entered_of_step hstep hentered) hbased
        (honly.step hsound hstep hentered)
    | some net =>
      have hcursor := returns_of_only hsound hstep hnet hnet' hbased honly
      exact .answered hnet' (.inr ⟨w', hw', hcursor⟩)
  | @answered net hnet hgoes =>
    refine .answered ((grows_of_step hstep).nets entry net hnet) ?_
    rcases hgoes with hpending | harrives
    · rcases pending_of_step hstep hpending with hpending' | hcursor
      · exact .inl hpending'
      · exact .inr ⟨w', hw', hcursor⟩
    · exact .inr harrives

/-- The step that makes a call makes the pledge. -/
theorem pledged_of_call (hw' : w' ∈ code.walks) (hsound : w.Sound code) {caller : Path}
    {ins : Instruction} {state : State} (hcursor : w.cursor = .inside caller)
    (hdecode : code.decode caller.pc = .ok ins)
    (hexecute : ins.execute code caller.state = .ok (.call entry) state)
    (hfollow : Follows code w ins state (.call entry) w') :
    Pledged code w' entry ⟨ins.next, state⟩ := by
  have hstep : Step code w w' := .execute hcursor hdecode hexecute hfollow
  cases hfollow with
  | enter hnew =>
    have hnot := not_entered hcursor hnew
    have hnet : w.nets[entry]? = none := by
      cases hnet : w.nets[entry]? with
      | none => rfl
      | some net => exact absurd (hsound.fixed entry net hnet) hnot
    have hbased := (hsound.contexts_of_execute (.inr hcursor) hexecute).1
    refine .inside hnet (.inr ⟨_, rfl, rfl, arrival_entered _ _ _⟩) hbased ?_
    intro live hlive c hc frame rest hframes hentry
    rcases (hsound.contexts_of_step hstep hlive).2 c hc with ⟨before, hbefore, hc⟩ |
      ⟨caller', ins', state', hcursor', hdecode', hexecute', -, -, -, rfl⟩
    · have hc := hsound.contexts before hbefore c hc
      rw [Context.Sound, hframes] at hc
      exact absurd (hentry ▸ hc.2.2) hnot
    · rw [hcursor] at hcursor'
      cases hcursor'
      rw [hdecode] at hdecode'
      cases hdecode'
      cases hframes
      cases hentry
      rw [hexecute] at hexecute'
      cases hexecute'
      rfl
  | skip _ _ hnet hpad =>
    rw [State.eq_padded_of_pad hpad] at hw' ⊢
    exact .answered hnet (.inr ⟨_, hw', rfl⟩)
  | wait _ _ hnet => exact .waits hnet List.mem_cons_self

end Walk

/-! ### At the end of a run -/

namespace Code

variable {code : Code} {last : Walk} {path : Path}

/-- Where the walk goes from a path that is visited, and what it leaves on record. -/
inductive Sends (code : Code) (last : Walk) (path : Path) (ins : Instruction) :
    Flow → State → Prop
  | halt {state : State} : Sends code last path ins .halt state
  | advance {state : State} (hreaches : code.Reaches ins.next state)
      (hpeak : state.stack.depth ≤ (last.graph.usage state.routine).peak) :
      Sends code last path ins .advance state
  | jump {dest : Nat} {state : State} (hreaches : code.Reaches dest state) :
      Sends code last path ins (.jump dest) state
  | branch {dest : Nat} {state : State} (hreaches : code.Reaches dest state)
      (hnext : code.Reaches ins.next state) : Sends code last path ins (.branch dest) state
  | call {entry : Nat} {state : State} (hcalls : code.Calls path ins entry state) :
      Sends code last path ins (.call entry) state
  | back {net : Nat} {frame : Frame} {state : State}
      (hnet : last.nets[frame.entry]? = some net) : Sends code last path ins (.back net frame) state

/-- The instruction of a path that is visited, its outcome, and where the walk goes. -/
theorem sends_of_visited (hfinish : Walk.start.finish code = .ok last)
    (h : code.Visited path) :
    ∃ ins flow state, code.decode path.pc = .ok ins ∧
      ins.execute code path.state = .ok flow state ∧
      ins.Executes code path.state.stack.own path.state.stack.below path.state.frames flow state ∧
      code.Sends last path ins flow state := by
  obtain ⟨w, hw, ins, flow, state, w', hw', hcursor, hdecode, hexecute, hfollow⟩ :=
    follows_of_visited hfinish h
  have hgrows := grows_last hfinish hw'
  refine ⟨ins, flow, state, hdecode, hexecute,
    ((sound_of_mem_walks hw).executes (.inr hcursor) hexecute).1, ?_⟩
  cases hfollow with
  | halt => exact .halt
  | advance =>
    unfold Walk.goOn at hgrows hw'
    by_cases hdest : code.isDest ins.next = true
    · rw [if_pos hdest] at hgrows hw'
      exact .advance (.inl ⟨_, hw', rfl⟩)
        (Nat.le_trans (CallGraph.le_peak_noteDepth ..) (hgrows.graph.peak _))
    · rw [if_neg hdest] at hgrows hw'
      exact .advance (.inr ⟨_, hw', rfl⟩)
        (Nat.le_trans (CallGraph.le_peak_noteDepth ..) (hgrows.graph.peak _))
  | jump => exact .jump (.inl ⟨_, hw', rfl⟩)
  | branch =>
    have hnext : code.Arrives ⟨ins.next, state⟩ :=
      arrives_of_pending hfinish hw' List.mem_cons_self
    exact .branch (.inl ⟨_, hw', rfl⟩) (.inl hnext)
  | enter => exact .call ⟨h, hdecode, hexecute⟩
  | skip => exact .call ⟨h, hdecode, hexecute⟩
  | wait => exact .call ⟨h, hdecode, hexecute⟩
  | back hfix => exact .back (hgrows.nets _ _ (Walk.fixed_of_fixNet hfix).fixes)

variable {ins : Instruction} {entry : Nat} {state : State}

theorem Calls.follows (hfinish : Walk.start.finish code = .ok last)
    (h : code.Calls path ins entry state) :
    ∃ w ∈ code.walks, ∃ w' ∈ code.walks, w.cursor = .inside path ∧
      Walk.Follows code w ins state (.call entry) w' := by
  obtain ⟨hvisited, hdecode, hexecute⟩ := h
  obtain ⟨w, hw, ins', flow, state', w', hw', hcursor, hdecode', hexecute', hfollow⟩ :=
    follows_of_visited hfinish hvisited
  rw [hdecode] at hdecode'
  cases hdecode'
  rw [hexecute] at hexecute'
  cases hexecute'
  exact ⟨w, hw, w', hw', hcursor, hfollow⟩

theorem Calls.based (h : code.Calls path ins entry state) :
    state.stack.base ≤ state.stack.size := by
  obtain ⟨⟨w, hw, hcursor⟩, -, hexecute⟩ := h
  exact ((sound_of_mem_walks hw).contexts_of_execute (.inr hcursor) hexecute).1

/-- **If the routine that is called ever returns, the caller goes on with what it leaves.** -/
theorem Calls.arrives (hfinish : Walk.start.finish code = .ok last)
    (h : code.Calls path ins entry state) {net : Nat} (hnet : last.nets[entry]? = some net) :
    code.Arrives ⟨ins.next, state.padded net⟩ := by
  obtain ⟨w, hw, w', hw', hcursor, hfollow⟩ := h.follows hfinish
  have hpledged : Walk.Pledged code last entry ⟨ins.next, state⟩ := by
    have hfirst := Walk.pledged_of_call hw' (sound_of_mem_walks hw) hcursor h.decodes h.executes
      hfollow
    exact Walk.finish_induction (motive := fun w => Walk.Pledged code w entry ⟨ins.next, state⟩)
      (fun _ _ hw hw' hstep hp => hp.step hw' (sound_of_mem_walks hw) hstep) hw'
      (Walk.finish_of_mem_walks hfinish hw') hfirst
  cases hpledged with
  | waits hnone => rw [hnone] at hnet; cases hnet
  | inside hnone => rw [hnone] at hnet; cases hnet
  | answered hnet' hgoes =>
    rw [hnet] at hnet'
    cases hnet'
    rcases hgoes with hpending | harrives
    · exact arrives_of_pending hfinish (last_mem_walks hfinish) hpending
    · exact harrives

/-- A path in a subroutine is there because a call entered it. -/
theorem entered_of_visited (hfinish : Walk.start.finish code = .ok last)
    (h : code.Visited path) (hroutine : path.state.routine = .sub entry) :
    last.arrivals[entry]? = some ⟨.sub entry, 0⟩ := by
  obtain ⟨w, hw, hcursor⟩ := h
  have hhead := State.head_mem_contextsOf path.state.stack.below path.state.frames
  have hcontext := (sound_of_mem_walks hw).contexts path (.inr hcursor) _ hhead
  unfold State.routine at hroutine
  cases hframes : path.state.frames with
  | nil => rw [hframes] at hroutine; cases hroutine
  | cons frame rest =>
    rw [hframes] at hroutine hcontext
    cases hroutine
    rcases hcontext.2.2 with hseen | ⟨_, hcursor', -⟩
    · exact (grows_last hfinish hw).arrivals _ _ hseen
    · rw [hcursor] at hcursor'
      cases hcursor'

/-- A routine that is called begins where the call leads, with nothing above its base. -/
theorem Calls.enters (hfinish : Walk.start.finish code = .ok last)
    (h : code.Calls path ins entry state) : last.arrivals[entry]? = some ⟨.sub entry, 0⟩ := by
  obtain ⟨w, hw, w', hw', -, hfollow⟩ := h.follows hfinish
  have hseen {arrival : Arrival} (hseen : w.arrivals[entry]? = some arrival)
      (howner : arrival.routine = .sub entry) :
      last.arrivals[entry]? = some ⟨.sub entry, 0⟩ := by
    obtain ⟨opener, hopener, -, harrival⟩ := exists_visited_of_arrivals hw hseen
    refine entered_of_visited hfinish hopener ?_
    rw [← harrival] at howner
    exact howner
  cases hfollow with
  | enter =>
    have hcalled : code.Arrives ⟨entry, state.entered ins.next entry⟩ := ⟨_, hw', rfl⟩
    have harrival := arrival_of_arrives hfinish hcalled
    rw [Walk.arrival_entered] at harrival
    exact harrival
  | skip h howner => exact hseen h howner
  | wait h howner => exact hseen h howner

/-- Every call is noted with the depth it is made at. -/
theorem Calls.noted (hfinish : Walk.start.finish code = .ok last)
    (h : code.Calls path ins entry state) :
    ⟨ins.offset, state.stack.depth, entry⟩ ∈ (last.graph.usage state.routine).calls := by
  obtain ⟨w, hw, w', hw', -, hfollow⟩ := h.follows hfinish
  have hnoted := CallGraph.mem_calls_noteCall w.graph state.routine
    ⟨ins.offset, state.stack.depth, entry⟩
  refine (grows_last hfinish hw').graph.calls _ _ ?_
  cases hfollow with
  | enter => exact hnoted
  | skip => exact (CallGraph.grows_noteDepth ..).calls _ _ hnoted
  | wait => exact hnoted

end Code

end EvmSafety
