/-
The walk comes nowhere that no execution comes.

Executions are tracked by the walk, so a block that one of them reaches is on record.  Here is
the converse.  An execution takes every call, where the walk goes past most of them, and it has
no say in where a jump on a popped destination leads; still it can be led to every path that
the walk goes on with, and has the same heights and the same frames there.

The reason is again that a routine shows every caller the same.  `Retraces` says that from the
entry of a routine an execution can be led to some place in it, whoever called and however high
the stack is; a call whose routine is known to return is retraced through the routine.  This is
one kind of evidence, and such evidence is kept by every step of the walk.

Both directions together say that the analysis of an accepted program lists exactly the blocks
and counts exactly the routines of its executions.
-/
import EvmSafety.Proofs.Evidence
import EvmSafety.Proofs.Replay
import EvmSafety.Proofs.Tally
import EvmSafety.Proofs.Waiting

namespace EvmSafety

/-- What is left of a path if the slots are forgotten. -/
def Path.tally (path : Path) : Tally where
  pc := path.pc
  height := path.state.stack.size
  base := path.state.stack.base
  frames := path.state.frames

namespace Tally

/-- The execution is at the entry of the routine, with nothing above the base. -/
structure Begins (routine : Routine) (s : Tally) : Prop where
  pc : s.pc = routine.entry
  height : s.height = s.base
  runs : s.routine = routine

theorem Begins.eq {routine : Routine} {s : Tally} (h : s.Begins routine) :
    s = ⟨routine.entry, s.base, s.base, s.frames⟩ := by
  obtain ⟨pc, height, base, frames⟩ := s
  obtain ⟨hpc, hheight, -⟩ := h
  dsimp only at hpc hheight ⊢
  rw [hpc, hheight]

/-- Some execution is about to execute a call, and the walk popped `entry` there. -/
def Calls (code : Code) (entry : Nat) : Prop :=
  ∃ s ins, Reachable code s ∧ code.decode s.pc = .ok ins ∧ ins.opcode.move = .jumpsub ∧
    code.target s.pc = some entry

end Tally

namespace Code

/-! ### Retracing a routine -/

/-- Wherever an execution begins the routine, one can be led on to `pc`, with so many words
above the base. -/
def Retraces (code : Code) (routine : Routine) (pc depth : Nat) : Prop :=
  ∀ s, Tally.Reachable code s → s.Begins routine →
    Tally.Reachable code ⟨pc, s.base + depth, s.base, s.frames⟩

/-- A call of the routine at `entry` that returns to `returnTo` can be retraced up to the call,
and `state` is what the walk has there once the destination is taken. -/
inductive Enters (code : Code) (entry returnTo : Nat) (state : State) : Prop
  | intro {site : Nat} {ins : Instruction} (hbased : state.stack.base ≤ state.stack.size)
      (hdecode : code.decode site = .ok ins) (hmove : ins.opcode.move = .jumpsub)
      (htarget : code.target site = some entry) (hnext : ins.next = returnTo)
      (hretraces : code.Retraces state.routine site (state.stack.depth + 1))

/-- A return from the routine at `entry` with `net` words above the base can be retraced. -/
inductive Leaves (code : Code) (entry net : Nat) : Prop
  | intro {site : Nat} {ins : Instruction} (hdecode : code.decode site = .ok ins)
      (hmove : ins.opcode.move = .returnsub) (hretraces : code.Retraces (.sub entry) site net)

variable {code : Code}

theorem retraces_entry (code : Code) (routine : Routine) :
    code.Retraces routine routine.entry 0 := by
  intro s hreachable hbegins
  rw [hbegins.eq] at hreachable
  exact hreachable

/-- One step more. -/
theorem Retraces.step {routine : Routine} {pc pc' depth depth' : Nat}
    (h : code.Retraces routine pc depth)
    (hstep : ∀ (base : Nat) (frames : List Frame),
      Tally.Step code ⟨pc, base + depth, base, frames⟩ ⟨pc', base + depth', base, frames⟩) :
    code.Retraces routine pc' depth' :=
  fun s hreachable hbegins => (h s hreachable hbegins).tail (hstep s.base s.frames)

theorem Enters.based {entry returnTo : Nat} {state : State}
    (h : code.Enters entry returnTo state) : state.stack.base ≤ state.stack.size := by
  obtain ⟨hbased, -⟩ := h
  exact hbased

/-- A call that can be retraced leads into the routine. -/
theorem Enters.begins {entry returnTo : Nat} {state : State}
    (h : code.Enters entry returnTo state) {s : Tally} (hreachable : Tally.Reachable code s)
    (hbegins : s.Begins state.routine) :
    Tally.Reachable code ⟨entry, s.base + state.stack.depth, s.base + state.stack.depth,
      ⟨returnTo, s.base, entry⟩ :: s.frames⟩ := by
  obtain ⟨-, hdecode, hmove, htarget, rfl, hretraces⟩ := h
  have hcounted := counted_of_decode hdecode
  rw [Opcode.Counted, hmove] at hcounted
  refine (hretraces s hreachable hbegins).tail ?_
  rw [Tally.Step, Tally.next_of_decode hdecode, Tally.moves, hmove]
  dsimp only
  rw [htarget]
  refine List.mem_singleton.2 ?_
  simp only [Tally.enter, Tally.goTo, hcounted, Nat.add_zero]
  rfl

/-- **A call of a routine that returns can be retraced to behind it.** -/
theorem Enters.retraces {entry returnTo net : Nat} {state : State}
    (h : code.Enters entry returnTo state) (hleaves : code.Leaves entry net) :
    code.Retraces state.routine returnTo (state.padded net).stack.depth := by
  have hbased := h.based
  obtain ⟨hdecode, hmove, hretraces⟩ := hleaves
  intro s hreachable hbegins
  -- Into the routine, through it to the return that is known, and back.
  refine (hretraces _ (h.begins hreachable hbegins) ⟨rfl, rfl, rfl⟩).tail ?_
  rw [Tally.Step, Tally.next_of_decode hdecode, Tally.moves, hmove, State.depth_padded net hbased,
    ← Nat.add_assoc]
  exact List.mem_singleton_self _

/-- If all calls that are open can be retraced, an execution comes to the entry of the routine
that was called last. -/
theorem reachable_entry : ∀ {frames : List Frame} {below : List Slot},
    (∀ c ∈ State.contextsOf below frames, c.Made code.Enters) →
    Tally.Reachable code
      ⟨(State.routine ⟨{}, frames⟩).entry, below.length, below.length, frames⟩ := by
  -- The routine of the caller is begun first, retraced to the call, and left through it.
  intro frames
  induction frames with
  | nil =>
    intro below h
    have hnone : below = [] := h _ (State.head_mem_contextsOf below [])
    rw [hnone]
    exact .refl
  | cons frame rest ih =>
    intro below h
    have henters : code.Enters frame.entry frame.returnTo ⟨⟨below, frame.callerBase⟩, rest⟩ :=
      h _ (State.head_mem_contextsOf below (frame :: rest))
    have hle : frame.callerBase ≤ below.length := henters.based
    have hlength : (below.drop (below.length - frame.callerBase)).length = frame.callerBase :=
      Stack.length_below (s := ⟨below, frame.callerBase⟩) hle
    have hcaller := ih fun c hc => h c (List.mem_cons_of_mem _ hc)
    rw [hlength] at hcaller
    have hentered := henters.begins hcaller ⟨rfl, rfl, rfl⟩
    have hheight : frame.callerBase + (⟨below, frame.callerBase⟩ : Stack).depth = below.length :=
      Stack.base_add_depth (s := ⟨below, frame.callerBase⟩) hle
    dsimp only at hentered
    rw [hheight] at hentered
    exact hentered

/-- If the calls that are open can be retraced, the one that opened the innermost frame is made
by some execution. -/
theorem calls_of_contexts {frame : Frame} {frames : List Frame} {below : List Slot}
    (h : ∀ c ∈ State.contextsOf below (frame :: frames), c.Made code.Enters) :
    Tally.Calls code frame.entry := by
  have henters : code.Enters frame.entry frame.returnTo ⟨⟨below, frame.callerBase⟩, frames⟩ :=
    h _ (State.head_mem_contextsOf below (frame :: frames))
  obtain ⟨-, hdecode, hmove, htarget, -, hretraces⟩ := henters
  have hcaller := reachable_entry fun c hc => h c (List.mem_cons_of_mem _ hc)
  exact ⟨_, _, hretraces _ hcaller ⟨rfl, rfl, rfl⟩, hdecode, hmove, htarget⟩

/-! ### What the walk executes -/

/-- The walk popped the entry of the routine that it calls. -/
theorem Calls.target {path : Path} {ins : Instruction} {entry : Nat} {state : State}
    (h : code.Calls path ins entry state) : code.target path.pc = some entry := by
  obtain ⟨w, hw, hcursor⟩ := h.visited
  obtain ⟨hexecutes, -⟩ := (sound_of_mem_walks hw).executes (.inr hcursor) h.executes
  obtain ⟨-, hdest, word, own, hown, rfl, -⟩ := hexecutes.of_call
  exact target_of_own h.visited hown hdest

/-- An execution may go wherever the walk sends a path in its routine. -/
theorem mem_moves_of_goesTo {path : Path} (hvisited : code.Visited path) {ins : Instruction}
    {below : List Slot} {frames : List Frame} {flow : Flow} {state : State} {pc : Nat}
    (hexecutes : ins.Executes code path.state.stack.own below frames flow state)
    (hgoes : flow.GoesTo ins pc) {s : Tally} (hpc : s.pc = path.pc) :
    s.goTo ins pc ∈ s.moves code ins := by
  unfold Tally.moves
  cases hexecutes with
  | straight h =>
    cases hgoes with
    | advance =>
      have hmoves : s.moves code ins = [s.goTo ins ins.next] :=
        Tally.moves_of_straight h.isStraight
      unfold Tally.moves at hmoves
      rw [hmoves]
      exact List.mem_singleton_self _
  | jump hmove hown hdest =>
    cases hgoes with
    | jump => simp [hmove, hpc, target_of_own hvisited hown hdest]
  | rjump hmove htarget =>
    cases hgoes with
    | jump => simp [hmove, htarget]
  | jumpi hmove hown hdest =>
    cases hgoes with
    | taken => simp [hmove, hpc, target_of_own hvisited hown hdest]
    | passed => simp [hmove]
  | rjumpi hmove _ htarget =>
    cases hgoes with
    | taken => simp [hmove, htarget]
    | passed => simp [hmove]
  | halt => cases hgoes
  | jumpsub => cases hgoes
  | returnsub => cases hgoes

end Code

namespace Walk

variable {code : Code} {w : Walk} {path : Path} {ins : Instruction} {state : State}

/-- An instruction that neither calls nor returns can be retraced after what came before it. -/
theorem Executing.retraces {flow : Flow} {pc : Nat} (hw : w ∈ code.walks)
    (h : w.Executing code path ins flow state) (hgoes : flow.GoesTo ins pc)
    (hretraces : code.Retraces path.state.routine path.pc path.state.stack.depth) :
    code.Retraces state.routine pc state.stack.depth := by
  have hsound := Code.sound_of_mem_walks hw
  have hbased := hsound.based path (.inr h.cursor)
  obtain ⟨hexecutes, -⟩ := hsound.executes (.inr h.cursor) h.executes
  obtain ⟨hpops, hcounts⟩ := hexecutes.counts (Code.counted_of_decode h.decodes)
  obtain ⟨own', rfl, hlength⟩ := hcounts hgoes.ne_back
  refine hretraces.step fun base frames => ?_
  rw [Stack.length_own hbased] at hpops hlength
  have hmem := Code.mem_moves_of_goesTo ⟨w, hw, h.cursor⟩ hexecutes hgoes
    (s := ⟨path.pc, base + path.state.stack.depth, base, frames⟩) rfl
  have hheight : base + path.state.stack.depth - ins.opcode.pops + ins.opcode.pushes
      = base + own'.length := by omega
  rw [Tally.Step, Tally.next_of_decode h.decodes, Stack.depth_on]
  rw [Tally.goTo, hheight] at hmem
  exact hmem

theorem Executing.enters {entry : Nat} (hw : w ∈ code.walks)
    (h : w.Executing code path ins (.call entry) state)
    (hretraces : code.Retraces path.state.routine path.pc path.state.stack.depth) :
    code.Enters entry ins.next state := by
  have hcalls : code.Calls path ins entry state := ⟨⟨w, hw, h.cursor⟩, h.decodes, h.executes⟩
  have htarget := hcalls.target
  have hbased := hcalls.based
  obtain ⟨hexecutes, -⟩ := (Code.sound_of_mem_walks hw).executes (.inr h.cursor) h.executes
  obtain ⟨hmove, -, word, own', hown, rfl, rfl⟩ := hexecutes.of_call
  have hdepth : path.state.stack.depth = own'.length + 1 := by
    rw [← Stack.length_own hcalls.visited.based, hown, List.length_cons]
  refine .intro hbased h.decodes hmove htarget rfl ?_
  rw [Stack.depth_on, ← hdepth]
  exact hretraces

theorem Executing.leaves {net : Nat} {frame : Frame} (hw : w ∈ code.walks)
    (h : w.Executing code path ins (.back net frame) state)
    (hretraces : code.Retraces path.state.routine path.pc path.state.stack.depth) :
    code.Leaves frame.entry net := by
  have hsound := Code.sound_of_mem_walks hw
  have hbased := hsound.based path (.inr h.cursor)
  obtain ⟨hexecutes, -⟩ := hsound.executes (.inr h.cursor) h.executes
  cases hexecutes with
  | returnsub hmove hframes =>
    have hroutine : path.state.routine = .sub frame.entry := by rw [State.routine, hframes]
    rw [hroutine] at hretraces
    rw [Stack.length_own hbased]
    exact .intro h.decodes hmove hretraces

end Walk

namespace Code

variable {code : Code}

theorem retraces_entered (code : Code) (entry returnTo : Nat) (state : State) :
    code.Retraces (state.entered returnTo entry).routine entry
      (state.entered returnTo entry).stack.depth := by
  have hdepth : (state.entered returnTo entry).stack.depth = 0 :=
    Stack.depth_raiseBase _
  rw [hdepth]
  exact code.retraces_entry (.sub entry)

/-- Whatever the walk goes on with can be retraced. -/
def retraced (code : Code) : Evidence code where
  path path := code.Retraces path.state.routine path.pc path.state.stack.depth
  call := code.Enters
  back := code.Leaves
  start := code.retraces_entry .main
  goes hw hexecuting hgoes hretraces := hexecuting.retraces hw hgoes hretraces
  calls hw hexecuting hretraces := hexecuting.enters hw hretraces
  returns hw hexecuting hretraces _ := hexecuting.leaves hw hretraces
  enters := code.retraces_entered
  resumes henters hleaves := henters.retraces hleaves

/-- **Wherever the walk comes, some execution comes,** with the same heights and the same
frames. -/
theorem reachable_of_ready {w : Walk} (hw : w ∈ code.walks) {path : Path}
    (hready : w.Ready path) : Tally.Reachable code path.tally := by
  have hbased := (sound_of_mem_walks hw).based path hready.live
  have hgiven := code.retraced.given_of_mem_walks hw
  have hretraces : code.Retraces path.state.routine path.pc path.state.stack.depth :=
    hgiven.paths path hready
  have hentry := reachable_entry (hgiven.contexts path hready.live)
  have hreachable := hretraces _ hentry ⟨rfl, rfl, rfl⟩
  have hlength := Stack.length_below hbased
  have hheight : path.state.stack.base + path.state.stack.depth = path.state.stack.size :=
    Stack.base_add_depth hbased
  dsimp only at hreachable
  rw [hlength, hheight] at hreachable
  exact hreachable

theorem Visited.reachable {path : Path} (h : code.Visited path) :
    Tally.Reachable code path.tally := by
  obtain ⟨w, hw, hcursor⟩ := h
  exact reachable_of_ready hw (.inr (.inr hcursor))

/-- The routine of a path that is visited was called by some execution. -/
theorem Visited.calls {path : Path} (h : code.Visited path) {entry : Nat}
    (hroutine : path.state.routine = .sub entry) : Tally.Calls code entry := by
  obtain ⟨w, hw, hcursor⟩ := h
  have hcontexts := (code.retraced.given_of_mem_walks hw).contexts path (.inr hcursor)
  unfold State.routine at hroutine
  unfold State.contexts at hcontexts
  match hframes : path.state.frames with
  | [] =>
    rw [hframes] at hroutine
    cases hroutine
  | frame :: rest =>
    rw [hframes] at hroutine hcontexts
    cases hroutine
    exact calls_of_contexts hcontexts

/-! ### Blocks -/

/-- Where a record is made, a block begins. -/
theorem beginsBlock_of_arrivals {w : Walk} (hw : w ∈ code.walks) :
    ∀ (pc : Nat) (arrival : Arrival), w.arrivals[pc]? = some arrival → code.BeginsBlock pc := by
  refine walks_induction (motive := fun w => ∀ (pc : Nat) (arrival : Arrival),
    w.arrivals[pc]? = some arrival → code.BeginsBlock pc) ?_ ?_ w hw
  · intro pc arrival h
    simp [Walk.start] at h
  · intro w w' hw _ hstep ih pc arrival h
    rcases Walk.recorded_of_step hstep h with hbefore | ⟨path, hcursor, -, rfl, -⟩
    · exact ih pc arrival hbefore
    · exact (sound_of_mem_walks hw).begins path (.inr (.inr hcursor))

end Code

namespace Walk

variable {code : Code} {last : Walk}

theorem mem_blockEntries {w : Walk} {pc : Nat} :
    pc ∈ w.blockEntries ↔ ∃ arrival, w.arrivals[pc]? = some arrival := by
  rw [blockEntries, Std.TreeMap.mem_keys, Std.TreeMap.mem_iff_isSome_getElem?,
    Option.isSome_iff_exists]

/-- **The blocks on record at the end are those that executions reach.** -/
theorem mem_blockEntries_iff (hfinish : Walk.start.finish code = .ok last) {pc : Nat} :
    pc ∈ last.blockEntries ↔
      code.BeginsBlock pc ∧ ∃ s, Tally.Reachable code s ∧ s.pc = pc := by
  rw [mem_blockEntries]
  constructor
  · rintro ⟨arrival, hseen⟩
    have hlast := Code.last_mem_walks hfinish
    obtain ⟨path, hvisited, hpc, -⟩ := Code.exists_visited_of_arrivals hlast hseen
    exact ⟨Code.beginsBlock_of_arrivals hlast pc arrival hseen, path.tally, hvisited.reachable,
      hpc⟩
  · rintro ⟨hbegins, s, hreachable, rfl⟩
    obtain ⟨path, htracks⟩ := Tally.tracked_of_reachable hfinish hreachable
    exact ⟨_, (Tally.safe_of_tracks hfinish htracks).recorded hbegins⟩

/-! ### Routines -/

/-- The entries that are on record as belonging to a routine of their own. -/
def routineEntries (w : Walk) : List Nat :=
  (w.arrivals.toList.filter fun entry => entry.2.routine = .sub entry.1).map Prod.fst

theorem length_routineEntries (w : Walk) : w.routineEntries.length = w.routineCount := by
  rw [routineEntries, List.length_map, ← List.countP_eq_length_filter, routineCount]

theorem nodup_routineEntries (w : Walk) : w.routineEntries.Nodup := by
  have hkeys : (w.arrivals.toList.map Prod.fst).Nodup := by
    rw [Std.TreeMap.map_fst_toList_eq_keys]
    exact w.arrivals.nodup_keys
  exact (List.filter_sublist.map Prod.fst).nodup hkeys

theorem mem_routineEntries {w : Walk} {entry : Nat} : entry ∈ w.routineEntries ↔
    ∃ arrival, w.arrivals[entry]? = some arrival ∧ arrival.routine = .sub entry := by
  simp [routineEntries, Std.TreeMap.mem_toList_iff_getElem?_eq_some]

/-- **The routines on record at the end are those that executions call.** -/
theorem mem_routineEntries_iff (hfinish : Walk.start.finish code = .ok last) {entry : Nat} :
    entry ∈ last.routineEntries ↔ Tally.Calls code entry := by
  rw [mem_routineEntries]
  constructor
  · rintro ⟨arrival, hseen, hroutine⟩
    obtain ⟨path, hvisited, -, harrival⟩ :=
      Code.exists_visited_of_arrivals (Code.last_mem_walks hfinish) hseen
    rw [← harrival] at hroutine
    exact hvisited.calls hroutine
  · rintro ⟨s, ins, hreachable, hdecode, hmove, htarget⟩
    obtain ⟨path, hvisited, hpc, -⟩ := Tally.tracked_of_reachable hfinish hreachable
    rw [← hpc] at hdecode htarget
    obtain ⟨entry', state, hcalls⟩ := Code.exists_calls hfinish hvisited hdecode hmove
    rw [hcalls.target, Option.some.injEq] at htarget
    rw [← htarget]
    exact ⟨_, hcalls.enters hfinish, rfl⟩

end Walk

/-! ### The analysis -/

namespace Code

variable {code : Code}

/-- The analysis lists the blocks and counts the routines of the executions, and nothing
else. -/
structure Describes (code : Code) (analysis : Analysis) : Prop where
  /-- The blocks are listed in code order, none of them twice. -/
  ascending : analysis.blockEntries.Pairwise (· < ·)
  /-- A block is listed if and only if some execution comes to it. -/
  entries : ∀ pc, pc ∈ analysis.blockEntries ↔
    code.BeginsBlock pc ∧ ∃ s, Tally.Reachable code s ∧ s.pc = pc
  /-- An instruction starts there: the first one, one that a jump may land on, or one right
  behind a conditional jump or a call. -/
  placed : ∀ pc ∈ analysis.blockEntries,
    pc < code.size ∧ code.isStart pc = true ∧ code.BeginsBlock pc
  /-- As many routines are counted as there are entries that some execution calls. -/
  routines : ∃ entries : List Nat, entries.Nodup ∧ entries.length = analysis.routines ∧
    ∀ entry, entry ∈ entries ↔ Tally.Calls code entry

/-- **The analysis of an accepted code is exact:** it lists the blocks that executions come to
and counts the routines that they call. -/
theorem describes_of_accepted {analysis : Analysis} (haccepted : code.validate = .ok analysis) :
    code.Describes analysis := by
  obtain ⟨last, hfinish, -, hanalysis⟩ := finish_of_validate haccepted
  have hblocks : analysis.blockEntries = last.blockEntries := by rw [hanalysis]
  have hroutines : analysis.routines = last.routineCount := by rw [hanalysis]
  have hentries (pc : Nat) : pc ∈ analysis.blockEntries ↔
      code.BeginsBlock pc ∧ ∃ s, Tally.Reachable code s ∧ s.pc = pc := by
    rw [hblocks]
    exact Walk.mem_blockEntries_iff hfinish
  refine ⟨?_, hentries, ?_, last.routineEntries, last.nodup_routineEntries, ?_,
    fun _ => Walk.mem_routineEntries_iff hfinish⟩
  · rw [hblocks, Walk.blockEntries]
    exact Std.TreeMap.ordered_keys.imp Nat.compare_eq_lt.1
  · intro pc hpc
    obtain ⟨hbegins, s, hreachable, rfl⟩ := (hentries pc).1 hpc
    obtain ⟨path, htracks⟩ := Tally.tracked_of_reachable hfinish hreachable
    obtain ⟨ins, hdecode, -⟩ := (Tally.safe_of_tracks hfinish htracks).executes
    obtain ⟨hlt, hstart, -⟩ := decode_eq_ok hdecode
    exact ⟨hlt, hstart, hbegins⟩
  · rw [hroutines, last.length_routineEntries]

theorem describes_callsTwice :
    Tally.callsTwice.validate = .ok ⟨2, [0, 3, 6, 7], 1⟩ ∧
      Tally.callsTwice.Describes ⟨2, [0, 3, 6, 7], 1⟩ :=
  ⟨Tally.accepted_callsTwice, describes_of_accepted Tally.accepted_callsTwice⟩

end Code

end EvmSafety
