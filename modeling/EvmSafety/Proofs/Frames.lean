/-
The shape of a state.

A frame is opened by a call that enters a routine which no path has reached yet, and from then
on it travels with the states that are copied at branches, put aside while a caller waits, and
taken up again.  What was true of it when it was opened is true of every copy: the base it
saved is not above the one that replaced it, it leads right behind a call, its routine is on
record under its own name, and none of the frames below it is of the same routine.

The bases need no induction over the run.  The contexts of a state say how its slots are
divided among the routines that wait, and each division is the base that the next frame saved.

Two checks of the walk turn out to be superfluous.  The depth of a routine is the number of
slots less the base, and the base is never above the top when it is taken; and a return never
finds a frame that does not lead behind a call.
-/
import EvmSafety.Proofs.Capacity
import EvmSafety.Proofs.Waiting

namespace EvmSafety

/-! ### Bases -/

/-- Under this base lie the frames: each of them saved a base that is not above the one that
replaced it, and the outermost saved none. -/
inductive Nested : Nat → List Frame → Prop
  | outermost : Nested 0 []
  | opened {base : Nat} {frame : Frame} {rest : List Frame} (hle : frame.callerBase ≤ base)
      (hrest : Nested frame.callerBase rest) : Nested base (frame :: rest)

/-- The base of a state and those that its frames saved, the innermost first. -/
def State.bases (state : State) : List Nat :=
  state.stack.base :: state.frames.map Frame.callerBase

theorem Nested.le_of_mem {base : Nat} {frames : List Frame} (h : Nested base frames) :
    ∀ saved ∈ frames.map Frame.callerBase, saved ≤ base := by
  induction h with
  | outermost =>
    intro saved hsaved
    cases hsaved
  | opened hle _ ih =>
    intro saved hsaved
    rw [List.map_cons] at hsaved
    rcases List.mem_cons.1 hsaved with rfl | hsaved
    · exact hle
    · exact Nat.le_trans (ih saved hsaved) hle

/-- Saved bases fall from the innermost frame to the outermost. -/
theorem Nested.pairwise {base : Nat} {frames : List Frame} (h : Nested base frames) :
    (base :: frames.map Frame.callerBase).Pairwise (· ≥ ·) := by
  induction h with
  | outermost => exact List.pairwise_singleton _ _
  | opened hle hrest ih => exact List.pairwise_cons.2 ⟨(Nested.opened hle hrest).le_of_mem, ih⟩

/-- The last of them is zero. -/
theorem Nested.getLast {base : Nat} {frames : List Frame} (h : Nested base frames) :
    (base :: frames.map Frame.callerBase).getLast? = some 0 := by
  induction h with
  | outermost => rfl
  | opened _ _ ih =>
    rw [List.map_cons, List.getLast?_cons_cons]
    exact ih

namespace State

/-- The contexts of a state divide its slots at the bases that its frames saved. -/
theorem nested_of_contextsOf {code : Code} {w : Walk} :
    ∀ {frames : List Frame} {below : List Slot},
      (∀ c ∈ contextsOf below frames, c.Sound code w) → Nested below.length frames := by
  intro frames
  induction frames with
  | nil =>
    intro below h
    have hnone : below = [] := h _ (head_mem_contextsOf below [])
    rw [hnone]
    exact .outermost
  | cons frame rest ih =>
    intro below h
    obtain ⟨hle, -⟩ := h _ (head_mem_contextsOf below (frame :: rest))
    have hle : frame.callerBase ≤ below.length := hle
    have hlength : (below.drop (below.length - frame.callerBase)).length = frame.callerBase :=
      Stack.length_below (s := ⟨below, frame.callerBase⟩) hle
    have hrest := ih fun c hc => h c (List.mem_cons_of_mem _ hc)
    rw [hlength] at hrest
    exact .opened hle hrest

/-- Every open frame is the innermost one of some context. -/
theorem exists_context_of_mem {frame : Frame} : ∀ {frames : List Frame} {below : List Slot},
    frame ∈ frames → ∃ c ∈ contextsOf below frames, ∃ rest, c.frames = frame :: rest := by
  intro frames
  induction frames with
  | nil =>
    intro below hframe
    cases hframe
  | cons other rest ih =>
    intro below hframe
    rcases List.mem_cons.1 hframe with rfl | hframe
    · exact ⟨_, head_mem_contextsOf below _, rest, rfl⟩
    · obtain ⟨c, hc, hinner⟩ := ih hframe
      exact ⟨c, List.mem_cons_of_mem _ hc, hinner⟩

end State

namespace Walk

variable {code : Code} {w w' : Walk}

/-- The base of a path and those that its frames saved do not rise towards the outermost. -/
theorem Sound.nested (hsound : w.Sound code) {path : Path} (hlive : w.Live path) :
    Nested path.state.stack.base path.state.frames := by
  have hnested := State.nested_of_contextsOf (hsound.contexts path hlive)
  rw [Stack.length_below (hsound.based path hlive)] at hnested
  exact hnested

/-- The routine of every open frame has been entered. -/
theorem Sound.entered_of_mem (hsound : w.Sound code) {path : Path} (hlive : w.Live path)
    {frame : Frame} (hframe : frame ∈ path.state.frames) : w.Entered frame.entry := by
  obtain ⟨c, hc, rest, hframes⟩ :
      ∃ c ∈ path.state.contexts, ∃ rest, c.frames = frame :: rest :=
    State.exists_context_of_mem hframe
  have hcontext := hsound.contexts path hlive c hc
  rw [Context.Sound, hframes] at hcontext
  exact hcontext.2.2

end Walk

/-! ### Frames -/

/-- Where a frame leads and which routine it runs. -/
structure Frame.Opened (code : Code) (frame : Frame) : Prop where
  /-- A jump may land where the routine begins. -/
  isDest : code.isDest frame.entry = true
  /-- It leads right behind a call. -/
  behind : code.isBehindCall frame.returnTo = true

/-- The open frames of a state. -/
structure FramesOpened (code : Code) (frames : List Frame) : Prop where
  opened : ∀ frame ∈ frames, frame.Opened code
  /-- No routine is open twice. -/
  distinct : (frames.map Frame.entry).Nodup
  /-- There are no more of them than there may be. -/
  within : frames.length ≤ stackCapacity

namespace FramesOpened

variable {code : Code}

theorem nil : FramesOpened code [] where
  opened _ hframe := by cases hframe
  distinct := List.nodup_nil
  within := Nat.zero_le _

theorem cons {frame : Frame} {rest : List Frame} (h : FramesOpened code rest)
    (hframe : frame.Opened code) (hnew : ∀ other ∈ rest, other.entry ≠ frame.entry)
    (hroom : rest.length < stackCapacity) : FramesOpened code (frame :: rest) where
  opened other hother := by
    rcases List.mem_cons.1 hother with rfl | hother
    · exact hframe
    · exact h.opened other hother
  distinct := by
    rw [List.map_cons, List.nodup_cons]
    refine ⟨fun hmem => ?_, h.distinct⟩
    obtain ⟨other, hother, hentry⟩ := List.mem_map.1 hmem
    exact hnew other hother hentry
  within := hroom

end FramesOpened

namespace Instruction

/-- A call keeps the frames as they are until it opens its own, for which there is room. -/
theorem Executes.frames_of_call {code : Code} {ins : Instruction} {own below : List Slot}
    {frames : List Frame} {entry : Nat} {state : State}
    (h : Executes code ins own below frames (.call entry) state) :
    state.frames = frames ∧ frames.length < stackCapacity := by
  cases h with
  | jumpsub _ _ _ hroom => exact ⟨rfl, hroom⟩

theorem Executes.frames_of_branch {code : Code} {ins : Instruction} {own below : List Slot}
    {frames : List Frame} {dest : Nat} {state : State}
    (h : Executes code ins own below frames (.branch dest) state) : state.frames = frames := by
  cases h with
  | jumpi => rfl
  | rjumpi => rfl

end Instruction

namespace Code

variable {code : Code}

/-- A call opens a frame as it should be. -/
theorem opened_of_call {w : Walk} (hw : w ∈ code.walks) {path : Path} {ins : Instruction}
    {entry : Nat} {state : State} (hcursor : w.cursor = .inside path)
    (hdecode : code.decode path.pc = .ok ins)
    (hexecute : ins.execute code path.state = .ok (.call entry) state)
    (hnew : w.arrivals[entry]? = none) (hframes : FramesOpened code path.state.frames) :
    FramesOpened code (⟨ins.next, state.stack.base, entry⟩ :: state.frames) := by
  have hsound := sound_of_mem_walks hw
  obtain ⟨hexecutes, -⟩ := hsound.executes (.inr hcursor) hexecute
  obtain ⟨hmove, hdest, -⟩ := hexecutes.of_call
  obtain ⟨hsame, hroom⟩ := hexecutes.frames_of_call
  rw [hsame]
  refine hframes.cons ⟨hdest, isBehindCall_next hdecode hmove⟩ ?_ hroom
  -- The routines of the frames below have been entered, and this one has not.
  rintro other hother rfl
  exact Walk.not_entered hcursor hnew (hsound.entered_of_mem (.inr hcursor) hother)

/-- **The frames of every path are as the calls opened them.** -/
theorem framesOpened_of_live {w : Walk} (hw : w ∈ code.walks) :
    ∀ path, w.Live path → ∀ c ∈ path.state.contexts, FramesOpened code c.frames := by
  refine walks_induction (motive := fun w => ∀ path, w.Live path →
    ∀ c ∈ path.state.contexts, FramesOpened code c.frames) ?_ ?_ w hw
  · intro path hlive c hc
    rw [Walk.eq_of_live_start hlive] at hc
    rw [List.mem_singleton.1 hc]
    exact .nil
  · intro w w' hw _ hstep ih path hlive c hc
    rcases ((sound_of_mem_walks hw).contexts_of_step hstep hlive).2 c hc with
      ⟨before, hbefore, hc⟩ | ⟨caller, ins, state, hcursor, hdecode, hexecute, hnew, -, -, rfl⟩
    · exact ih before hbefore c hc
    · have hcaller := ih caller (.inr hcursor) _ (State.head_mem_contextsOf _ _)
      exact opened_of_call hw hcursor hdecode hexecute hnew hcaller

end Code

/-! ### Records -/

namespace Walk

variable {code : Code} {w w' : Walk}

/-- The path is on the list, or a caller waits with it. -/
def Kept (w : Walk) (path : Path) : Prop :=
  path ∈ w.pending ∨ ∃ caller ∈ w.waiting, caller.path = path

theorem Kept.live {path : Path} (h : w.Kept path) : w.Live path :=
  .inl (h.imp_right .inl)

/-- The routine of every frame is on record, entered with nothing above its base. -/
def OnRecord (w : Walk) (frames : List Frame) : Prop :=
  ∀ frame ∈ frames, w.arrivals[frame.entry]? = some ⟨.sub frame.entry, 0⟩

/-- What is kept after a step was kept before, or has the frames of the path that was
executed. -/
theorem kept_of_step (hsound : w.Sound code) (hstep : Step code w w') {path : Path}
    (hkept : w'.Kept path) : ∃ before, (w.Kept before ∨ w.cursor = .inside before) ∧
      path.state.frames = before.state.frames := by
  have hlisted {path : Path} (h : path ∈ w.pending) : ∃ before,
      (w.Kept before ∨ w.cursor = .inside before) ∧ path.state.frames = before.state.frames :=
    ⟨path, .inl (.inl h), rfl⟩
  have hwaits {caller : Waiting} (h : caller ∈ w.waiting) : ∃ before,
      (w.Kept before ∨ w.cursor = .inside before) ∧
        caller.path.state.frames = before.state.frames :=
    ⟨caller.path, .inl (.inr ⟨caller, h, rfl⟩), rfl⟩
  cases transfers_of_step hstep with
  | takes hpending hwaiting =>
    rcases hkept with h | ⟨caller, hcaller, rfl⟩
    · rcases hpending with hsame | ⟨taken, htaken⟩
      · exact hlisted (hsame ▸ h)
      · exact hlisted (htaken ▸ List.mem_cons_of_mem _ h)
    · exact hwaits (hwaiting ▸ hcaller)
  | @leaves before _ _ _ hcursor _ hexecute hpending hwaiting =>
    rcases hkept with h | ⟨caller, hcaller, rfl⟩
    · rw [hpending] at h
      rcases List.mem_cons.1 h with rfl | h
      · have hframes := (hsound.executes (.inr hcursor) hexecute).1.frames_of_branch
        exact ⟨before, .inr hcursor, hframes⟩
      · exact hlisted h
    · exact hwaits (hwaiting ▸ hcaller)
  | @waits before _ _ _ hcursor _ hexecute hpending hwaiting =>
    rcases hkept with h | ⟨caller, hcaller, rfl⟩
    · exact hlisted (hpending ▸ h)
    · rw [hwaiting] at hcaller
      rcases List.mem_cons.1 hcaller with rfl | hcaller
      · have hframes := (hsound.executes (.inr hcursor) hexecute).1.frames_of_call.1
        exact ⟨before, .inr hcursor, hframes⟩
      · exact hwaits hcaller
  | releases hpending hwaiting =>
    rcases hkept with h | ⟨caller, hcaller, rfl⟩
    · rw [hpending] at h
      rcases List.mem_append.1 h with h | h
      · obtain ⟨caller, hcaller, rfl⟩ := List.mem_map.1 h
        exact hwaits (List.mem_filter.1 hcaller).1
      · exact hlisted h
    · rw [hwaiting] at hcaller
      exact hwaits (List.mem_filter.1 hcaller).1

/-- While an instruction is executed no routine is about to be entered. -/
theorem Sound.onRecord (hsound : w.Sound code) {path : Path} (hcursor : w.cursor = .inside path) :
    w.OnRecord path.state.frames := by
  intro frame hframe
  rcases hsound.entered_of_mem (.inr hcursor) hframe with hseen | ⟨_, harriving, -⟩
  · exact hseen
  · rw [hcursor] at harriving
    cases harriving

end Walk

namespace Code

variable {code : Code}

/-- **The routines that are open on a path that is kept are on record.** -/
theorem onRecord_of_kept {w : Walk} (hw : w ∈ code.walks) :
    ∀ path, w.Kept path → w.OnRecord path.state.frames := by
  refine walks_induction (motive := fun w => ∀ path, w.Kept path → w.OnRecord path.state.frames)
    ?_ ?_ w hw
  · intro path hkept frame hframe
    rw [Walk.eq_of_live_start hkept.live] at hframe
    cases hframe
  · intro w w' hw _ hstep ih path hkept frame hframe
    have hsound := sound_of_mem_walks hw
    obtain ⟨before, hbefore, hframes⟩ := Walk.kept_of_step hsound hstep hkept
    rw [hframes] at hframe
    have hseen : w.OnRecord before.state.frames := by
      rcases hbefore with hbefore | hcursor
      · exact ih before hbefore
      · exact hsound.onRecord hcursor
    exact (Walk.grows_of_step hstep).arrivals _ _ (hseen frame hframe)

end Code

/-! ### States -/

/-- A state as it should be at some moment of a walk. -/
structure State.WellFramed (code : Code) (w : Walk) (state : State) : Prop where
  /-- The base is not above the top. -/
  based : state.stack.base ≤ state.stack.size
  /-- The data stack keeps to its limit. -/
  slots : state.stack.size ≤ stackCapacity
  /-- So does the return stack. -/
  frames : state.frames.length ≤ stackCapacity
  /-- Saved bases do not fall from the outermost frame to the innermost, and none of them is
  above the base. -/
  bases : state.bases.Pairwise (· ≥ ·)
  /-- The outermost frame saved zero; if no frame is open, the base is zero. -/
  bottom : state.bases.getLast? = some 0
  /-- The routine of an open frame begins where a jump may land, and is on record. -/
  owned : ∀ frame ∈ state.frames, code.isDest frame.entry = true ∧
    w.arrivals[frame.entry]? = some ⟨.sub frame.entry, 0⟩
  /-- No routine is open twice. -/
  distinct : (state.frames.map Frame.entry).Nodup
  /-- A call stands right before the place an open frame leads to. -/
  behind : ∀ frame ∈ state.frames, ∃ site ins, frame.returnTo = site + 1 ∧
    code.isStart site = true ∧ code.decode site = .ok ins ∧ ins.opcode.move = .jumpsub

/-- The walk takes the depth of this state, at this moment or in the step that comes. -/
inductive Walk.Measures (code : Code) (w : Walk) : State → Prop
  /-- A path that it follows or keeps. -/
  | live {path : Path} (h : w.Live path) : Measures code w path.state
  /-- What an instruction leaves. -/
  | left {path : Path} {ins : Instruction} {flow : Flow} {state : State}
      (hcursor : w.cursor = .inside path) (hdecode : code.decode path.pc = .ok ins)
      (hexecute : ins.execute code path.state = .ok flow state) : Measures code w state
  /-- What an instruction leaves that fails on the way. -/
  | failed {path : Path} {ins : Instruction} {kind : Violation.Kind} {state : State}
      (hcursor : w.cursor = .inside path) (hdecode : code.decode path.pc = .ok ins)
      (hexecute : ins.execute code path.state = .error kind state) : Measures code w state
  /-- What one of these becomes with the slots that a routine leaves. -/
  | padded {net : Nat} {state padded : State} (h : Measures code w state)
      (hpad : State.onStack (Stack.pad net) state = .ok () padded) :
      Measures code w padded

namespace Code

/-- What holds of the states of a run. -/
structure KeepsFrames (code : Code) : Prop where
  /-- The paths that are left for later. -/
  pending : ∀ w ∈ code.walks, ∀ path ∈ w.pending, path.state.WellFramed code w
  /-- The callers that wait. -/
  waiting : ∀ w ∈ code.walks, ∀ caller ∈ w.waiting, caller.path.state.WellFramed code w
  /-- The path with which an instruction is about to be executed. -/
  inside : ∀ w ∈ code.walks, ∀ path, w.cursor = .inside path → path.state.WellFramed code w
  /-- Wherever the walk takes a depth, the base is not above the top. -/
  measured : ∀ w ∈ code.walks, ∀ state, w.Measures code state →
    state.stack.base ≤ state.stack.size
  /-- A return leads behind a call, so nothing but the net of its routine is compared. -/
  returns : ∀ w ∈ code.walks, ∀ path ins net frame state, w.cursor = .inside path →
    code.decode path.pc = .ok ins → ins.execute code path.state = .ok (.back net frame) state →
    code.isBehindCall frame.returnTo = true ∧
      w.back code ins.offset net frame state
        = (w.fixNet ins.offset frame.entry net).map (·.goTo frame.returnTo state)

variable {code : Code}

theorem call_of_isBehindCall {offset : Nat} (h : code.isBehindCall offset = true) :
    ∃ site ins, offset = site + 1 ∧ code.isStart site = true ∧ code.decode site = .ok ins ∧
      ins.opcode.move = .jumpsub := by
  match offset with
  | 0 => cases h
  | site + 1 =>
    unfold isBehindCall at h
    dsimp only at h
    split at h
    · next ins hdecode =>
      obtain ⟨_, hstart, -⟩ := decode_eq_ok hdecode
      exact ⟨site, ins, rfl, hstart, hdecode, of_decide_eq_true h⟩
    · cases h

theorem wellFramed_of_live {w : Walk} (hw : w ∈ code.walks) {path : Path} (hlive : w.Live path)
    (hrecord : w.OnRecord path.state.frames) : path.state.WellFramed code w := by
  have hproper := proper_of_mem_walks hw path hlive
  have hnested := (sound_of_mem_walks hw).nested hlive
  have hframes := framesOpened_of_live hw path hlive _ (State.head_mem_contextsOf _ _)
  exact {
    based := hproper.based
    slots := hproper.within
    frames := hframes.within
    bases := hnested.pairwise
    bottom := hnested.getLast
    owned := fun frame hframe => ⟨(hframes.opened frame hframe).isDest, hrecord frame hframe⟩
    distinct := hframes.distinct
    behind := fun frame hframe => call_of_isBehindCall (hframes.opened frame hframe).behind }

theorem proper_of_measures {w : Walk} (hw : w ∈ code.walks) {state : State}
    (h : w.Measures code state) : state.Proper := by
  have hproper := proper_of_mem_walks hw
  induction h with
  | live hlive => exact hproper _ hlive
  | left hcursor _ hexecute =>
    exact Instruction.keeps_execute.ok (hproper _ (.inr hcursor)) hexecute
  | failed hcursor _ hexecute =>
    exact Instruction.keeps_execute.error (hproper _ (.inr hcursor)) hexecute
  | padded _ hpad ih => exact (State.keeps_onStack (Stack.keeps_pad _)).ok ih hpad

theorem back_of_isBehindCall {w : Walk} {site net : Nat} {frame : Frame} {state : State}
    (h : code.isBehindCall frame.returnTo = true) :
    w.back code site net frame state
      = (w.fixNet site frame.entry net).map (·.goTo frame.returnTo state) := by
  unfold Walk.back
  rw [if_pos h]
  cases w.fixNet site frame.entry net with
  | error rejection => rfl
  | ok fixed => rfl

/-- **Every state of every run is well framed,** whatever the program is. -/
theorem keepsFrames (code : Code) : code.KeepsFrames where
  pending w hw path hpath :=
    wellFramed_of_live hw (.inl (.inl hpath)) (onRecord_of_kept hw path (.inl hpath))
  waiting w hw caller hcaller := by
    have hkept : w.Kept caller.path := .inr ⟨caller, hcaller, rfl⟩
    exact wellFramed_of_live hw hkept.live (onRecord_of_kept hw _ hkept)
  inside w hw path hcursor :=
    wellFramed_of_live hw (.inr hcursor) ((sound_of_mem_walks hw).onRecord hcursor)
  measured w hw state hmeasures := (proper_of_measures hw hmeasures).based
  returns w hw path ins net frame state hcursor _ hexecute := by
    have hbehind := isBehindCall_of_back hw hcursor hexecute
    exact ⟨hbehind, back_of_isBehindCall hbehind⟩

end Code

end EvmSafety
