/-
The machine that only counts.

A tally is what is left of an execution if the words on the stack are forgotten: the offset,
how high the stack is, where the base of the current routine lies, and the open frames.  A
jump or a call whose destination is popped goes where the walk found it to go, a conditional
jump goes both ways, and every call enters its routine; there are no ceilings.

The walk goes through every routine once and resumes all other callers from what the first
one showed.  `Tracked` relates the two: a tally is at an offset where a path is visited, at
that path's depth, and each of its frames was opened by a call that the walk made.  Every step
of the machine keeps that, and it says all that is needed of an offset: the walk found no
fault there, and the records hold for every execution and not only for the path that made
them.
-/
import EvmSafety.Proofs.Onward
import Mathlib.Logic.Relation

namespace EvmSafety

/-- An execution of which only the heights are known. -/
structure Tally where
  /-- The offset. -/
  pc : Nat := 0
  /-- How many words are on the stack. -/
  height : Nat := 0
  /-- How many of them belong to callers. -/
  base : Nat := 0
  /-- The open frames, the innermost first. -/
  frames : List Frame := []
  deriving DecidableEq, Repr

namespace Tally

/-- The routine that runs. -/
def routine (s : Tally) : Routine :=
  match s.frames with
  | [] => .main
  | frame :: _ => .sub frame.entry

/-- Go to an offset, with the words that an instruction leaves. -/
def goTo (s : Tally) (ins : Instruction) (pc : Nat) : Tally :=
  { s with pc, height := s.height - ins.opcode.pops + ins.opcode.pushes }

/-- Enter the routine at an offset; it returns behind the call. -/
def enter (s : Tally) (ins : Instruction) (entry : Nat) : Tally :=
  { s.goTo ins entry with
    base := (s.goTo ins entry).height
    frames := ⟨ins.next, s.base, entry⟩ :: s.frames }

/-- Return from the innermost routine, if there is one. -/
def leave (s : Tally) : List Tally :=
  match s.frames with
  | [] => []
  | frame :: rest => [⟨frame.returnTo, s.height, frame.callerBase, rest⟩]

/-- Where an instruction may take an execution. -/
def moves (code : Code) (s : Tally) (ins : Instruction) : List Tally :=
  match ins.opcode.move with
  | .halt | .invalid => []
  | .push | .dup _ | .swap _ | .jumpdest | .effect => [s.goTo ins ins.next]
  | .jump => (code.target s.pc).toList.map (s.goTo ins)
  | .jumpi => s.goTo ins ins.next :: (code.target s.pc).toList.map (s.goTo ins)
  | .rjump => ins.relativeTarget.toList.map (s.goTo ins)
  | .rjumpi => s.goTo ins ins.next :: ins.relativeTarget.toList.map (s.goTo ins)
  | .jumpsub => (code.target s.pc).toList.map (s.enter ins)
  | .returnsub => s.leave

/-- Where an execution may go from here. -/
def next (code : Code) (s : Tally) : List Tally :=
  match code.decode s.pc with
  | .error _ => []
  | .ok ins => s.moves code ins

/-- One step of an execution. -/
def Step (code : Code) (s s' : Tally) : Prop :=
  s' ∈ s.next code

/-- Some execution from the first byte, with nothing on the stacks, comes here. -/
def Reachable (code : Code) (s : Tally) : Prop :=
  Relation.ReflTransGen (Step code) {} s

/-- What the walk promises of a place that an execution comes to. -/
structure Safe (code : Code) (last : Walk) (s : Tally) : Prop where
  /-- The callers' words are there. -/
  based : s.base ≤ s.height
  /-- An instruction stands there, and the words it needs are the routine's own. -/
  executes : ∃ ins, code.decode s.pc = .ok ins ∧ ins.opcode.move ≠ .invalid ∧
    ins.opcode.pops ≤ s.height - s.base
  /-- A jump or a call has a destination, and may land there. -/
  aims : ∀ ins, code.decode s.pc = .ok ins →
    (ins.opcode.move.popsDestination → ∃ dest, code.target s.pc = some dest ∧ code.isDest dest) ∧
    (ins.opcode.move.isRelative → ∃ dest, ins.relativeTarget = some dest ∧ code.isDest dest)
  /-- A return finds a frame, and leaves what is fixed for the routine. -/
  returns : ∀ ins, code.decode s.pc = .ok ins → ins.opcode.move = .returnsub →
    ∃ frame rest, s.frames = frame :: rest ∧ last.nets[frame.entry]? = some (s.height - s.base)
  /-- Where a block begins, the routine and the depth are those on record. -/
  recorded : code.BeginsBlock s.pc → last.arrivals[s.pc]? = some ⟨s.routine, s.height - s.base⟩

theorem next_of_decode {code : Code} {s : Tally} {ins : Instruction}
    (hdecode : code.decode s.pc = .ok ins) : s.next code = s.moves code ins := by
  rw [next, hdecode]

theorem moves_of_straight {code : Code} {s : Tally} {ins : Instruction}
    (hmove : ins.opcode.move.isStraight = true) : s.moves code ins = [s.goTo ins ins.next] := by
  unfold moves
  cases hkind : ins.opcode.move <;> simp_all [Move.isStraight]

/-! ### Executions follow the walk -/

/-- The frames of a routine with this base were opened by calls that the walk made. -/
inductive Linked (code : Code) : Routine → Nat → List Frame → Prop
  | main : Linked code .main 0 []
  | sub {path : Path} {ins : Instruction} {entry base : Nat} {state : State}
      {frames : List Frame} (hcalls : code.Calls path ins entry state)
      (hlinked : Linked code state.routine base frames) :
      Linked code (.sub entry) (base + state.stack.depth) (⟨ins.next, base, entry⟩ :: frames)

/-- The path is visited where the execution is, and stands for it. -/
structure Tracks (code : Code) (path : Path) (s : Tally) : Prop where
  visited : code.Visited path
  pc : path.pc = s.pc
  height : s.height = s.base + path.state.stack.depth
  linked : Linked code path.state.routine s.base s.frames

/-- Some path stands for the execution. -/
def Tracked (code : Code) (s : Tally) : Prop :=
  ∃ path, Tracks code path s

variable {code : Code} {last : Walk} {s s' : Tally}

theorem Linked.routine_eq {routine : Routine} {base : Nat} {frames : List Frame}
    (h : Linked code routine base frames) :
    routine = Tally.routine ⟨0, 0, base, frames⟩ := by
  cases h <;> rfl

theorem Linked.of_sub {entry base : Nat} {frames : List Frame}
    (h : Linked code (.sub entry) base frames) :
    ∃ frame rest, frames = frame :: rest ∧ frame.entry = entry := by
  cases h with
  | sub => exact ⟨_, _, rfl, rfl⟩

theorem tracked_of_reaches (hfinish : Walk.start.finish code = .ok last) {pc : Nat}
    {state : State} {base : Nat} {frames : List Frame} (hreaches : code.Reaches pc state)
    (hlinked : Linked code state.routine base frames) :
    Tracked code ⟨pc, base + state.stack.depth, base, frames⟩ := by
  obtain ⟨path, hvisited, hpc, harrival⟩ := Code.exists_visited_of_reaches hfinish hreaches
  rw [Path.arrival, Arrival.mk.injEq] at harrival
  obtain ⟨hroutine, hdepth⟩ := harrival
  exact ⟨path, hvisited, hpc, by rw [hdepth], hroutine ▸ hlinked⟩

/-- Where an execution enters a routine that the walk called, it is tracked. -/
theorem tracked_of_calls (hfinish : Walk.start.finish code = .ok last) {path : Path}
    {ins : Instruction} {entry base : Nat} {state : State} {frames : List Frame}
    (hcalls : code.Calls path ins entry state)
    (hlinked : Linked code state.routine base frames) :
    Tracked code ⟨entry, base + state.stack.depth, base + state.stack.depth,
      ⟨ins.next, base, entry⟩ :: frames⟩ := by
  obtain ⟨opener, hvisited, hpc, harrival⟩ :=
    Code.exists_visited_of_arrivals (Code.last_mem_walks hfinish) (hcalls.enters hfinish)
  rw [Path.arrival, Arrival.mk.injEq] at harrival
  obtain ⟨hroutine, hdepth⟩ := harrival
  refine ⟨opener, hvisited, hpc, by rw [hdepth]; rfl, ?_⟩
  rw [hroutine]
  exact .sub hcalls hlinked

/-- Where an execution returns from a routine, it is tracked behind the call. -/
theorem tracked_of_returns (hfinish : Walk.start.finish code = .ok last) {entry base net : Nat}
    {frames : List Frame} (hlinked : Linked code (.sub entry) base frames)
    (hnet : last.nets[entry]? = some net) {height : Nat} (hheight : height = base + net) :
    ∀ s' ∈ leave ⟨0, height, base, frames⟩, Tracked code s' := by
  intro s' hs'
  cases hlinked with
  | @sub path ins _ base state frames hcalls hcaller =>
    obtain rfl := List.mem_singleton.1 hs'
    have hreaches : code.Reaches ins.next (state.padded net) :=
      .inl (hcalls.arrives hfinish hnet)
    have htracked := tracked_of_reaches hfinish hreaches hcaller
    rw [State.depth_padded net hcalls.based, ← Nat.add_assoc, ← hheight] at htracked
    exact htracked

variable {path : Path} {ins : Instruction} {flow : Flow} {state : State}

/-- Unless it returns, an instruction leaves both as many words above the base. -/
theorem Tracks.height_goTo (h : Tracks code path s) (hdecode : code.decode path.pc = .ok ins)
    (hexecutes : ins.Executes code path.state.stack.own path.state.stack.below path.state.frames
      flow state) (hflow : ∀ net frame, flow ≠ .back net frame) (pc : Nat) :
    (s.goTo ins pc).height = s.base + state.stack.depth := by
  obtain ⟨hpops, hcounts⟩ := hexecutes.counts (Code.counted_of_decode hdecode)
  obtain ⟨own, rfl, hlength⟩ := hcounts hflow
  have hheight := h.height
  rw [Stack.length_own h.visited.based] at hlength hpops
  have hsum : s.height - ins.opcode.pops + ins.opcode.pushes = s.base + own.length := by omega
  rw [Stack.depth_on]
  exact hsum

/-- Without a call or a return, an execution goes where the walk sends its path. -/
theorem Tracks.goesTo_of_mem_moves (h : Tracks code path s)
    (hexecutes : ins.Executes code path.state.stack.own path.state.stack.below path.state.frames
      flow state) (hmoves : s' ∈ s.moves code ins) (hcall : ins.opcode.move ≠ .jumpsub)
    (hreturn : ins.opcode.move ≠ .returnsub) : ∃ pc, flow.GoesTo ins pc ∧ s' = s.goTo ins pc := by
  have hnext := hmoves
  unfold moves at hnext
  cases hexecutes with
  | halt hmove => simp [hmove] at hnext
  | straight hstraight =>
    rw [moves_of_straight hstraight.isStraight] at hmoves
    exact ⟨_, .advance, List.mem_singleton.1 hmoves⟩
  | jump hmove hown hdest =>
    have htarget := h.pc ▸ Code.target_of_own h.visited hown hdest
    exact ⟨_, .jump, by simpa [hmove, htarget] using hnext⟩
  | rjump hmove htarget => exact ⟨_, .jump, by simpa [hmove, htarget] using hnext⟩
  | jumpi hmove hown hdest =>
    have htarget := h.pc ▸ Code.target_of_own h.visited hown hdest
    simp only [hmove, htarget, Option.toList_some, List.map_cons, List.map_nil, List.mem_cons,
      List.not_mem_nil, or_false] at hnext
    rcases hnext with rfl | rfl
    · exact ⟨_, .passed, rfl⟩
    · exact ⟨_, .taken, rfl⟩
  | rjumpi hmove _ htarget =>
    simp only [hmove, htarget, Option.toList_some, List.map_cons, List.map_nil, List.mem_cons,
      List.not_mem_nil, or_false] at hnext
    rcases hnext with rfl | rfl
    · exact ⟨_, .passed, rfl⟩
    · exact ⟨_, .taken, rfl⟩
  | jumpsub hmove => exact absurd hmove hcall
  | returnsub hmove => exact absurd hmove hreturn

/-- At a call, an execution enters the routine that the walk entered. -/
theorem Tracks.tracked_of_jumpsub (hfinish : Walk.start.finish code = .ok last)
    (h : Tracks code path s) (hdecode : code.decode path.pc = .ok ins)
    (hexecutes : ins.Executes code path.state.stack.own path.state.stack.below path.state.frames
      flow state) (hsends : code.Sends last path ins flow state)
    (hcall : ins.opcode.move = .jumpsub) (hmoves : s' ∈ s.moves code ins) : Tracked code s' := by
  have hheight := h.height_goTo hdecode hexecutes
  unfold moves at hmoves
  cases hexecutes with
  | @jumpsub word _ _ hown hdest =>
    cases hsends with
    | call hcalls =>
      have htarget := h.pc ▸ Code.target_of_own h.visited hown hdest
      obtain rfl : s' = s.enter ins word.toNat := by simpa [hcall, htarget] using hmoves
      have htracked := tracked_of_calls hfinish hcalls h.linked
      rwa [← hheight (by simp) word.toNat] at htracked
  | straight hstraight => cases hcall ▸ hstraight.isStraight
  | _ hmove => cases hcall.symm.trans hmove

/-- At a return, an execution goes back behind the call. -/
theorem Tracks.tracked_of_returnsub (hfinish : Walk.start.finish code = .ok last)
    (h : Tracks code path s)
    (hexecutes : ins.Executes code path.state.stack.own path.state.stack.below path.state.frames
      flow state) (hsends : code.Sends last path ins flow state)
    (hreturn : ins.opcode.move = .returnsub) (hmoves : s' ∈ s.moves code ins) :
    Tracked code s' := by
  have hlinked := h.linked
  unfold moves at hmoves
  cases hexecutes with
  | @returnsub frame _ _ hframes =>
    cases hsends with
    | back hnet =>
      have hroutine : path.state.routine = .sub frame.entry := by rw [State.routine, hframes]
      rw [Stack.length_own h.visited.based] at hnet
      rw [hroutine] at hlinked
      simp only [hreturn] at hmoves
      exact tracked_of_returns hfinish hlinked hnet h.height s' hmoves
  | straight hstraight => cases hreturn ▸ hstraight.isStraight
  | _ hmove => cases hreturn.symm.trans hmove

theorem Tracked.step (hfinish : Walk.start.finish code = .ok last) (h : Tracked code s)
    (hstep : Step code s s') : Tracked code s' := by
  obtain ⟨path, htracks⟩ := h
  obtain ⟨ins, flow, state, hdecode, -, hexecutes, hsends⟩ :=
    Code.sends_of_visited hfinish htracks.visited
  rw [Step, next_of_decode (htracks.pc ▸ hdecode)] at hstep
  by_cases hreturn : ins.opcode.move = .returnsub
  · exact htracks.tracked_of_returnsub hfinish hexecutes hsends hreturn hstep
  by_cases hcall : ins.opcode.move = .jumpsub
  · exact htracks.tracked_of_jumpsub hfinish hdecode hexecutes hsends hcall hstep
  · obtain ⟨pc, hgoes, rfl⟩ := htracks.goesTo_of_mem_moves hexecutes hstep hcall hreturn
    have hlinked : Linked code state.routine s.base s.frames :=
      hexecutes.routine_eq hreturn ▸ htracks.linked
    have htracked := tracked_of_reaches hfinish (hsends.reaches hgoes) hlinked
    rwa [← htracks.height_goTo hdecode hexecutes hgoes.ne_back pc] at htracked

/-- **Every execution is tracked.** -/
theorem tracked_of_reachable (hfinish : Walk.start.finish code = .ok last)
    (h : Reachable code s) : Tracked code s := by
  induction h with
  | refl =>
    have harrives : code.Arrives ⟨0, {}⟩ :=
      Code.arrives_of_pending hfinish Code.start_mem_walks List.mem_cons_self
    exact tracked_of_reaches hfinish (.inl harrives) .main
  | tail _ hstep ih => exact ih.step hfinish hstep

/-! ### What the walk promises -/

theorem safe_of_tracks (hfinish : Walk.start.finish code = .ok last) {path : Path}
    (h : Tracks code path s) : Safe code last s := by
  obtain ⟨hvisited, hpc, hheight, hlinked⟩ := h
  have hdepth : s.height - s.base = path.state.stack.depth := by omega
  obtain ⟨ins, flow, state, hdecode, -, hexecutes, hsends⟩ :=
    Code.sends_of_visited hfinish hvisited
  obtain ⟨hpops, -⟩ := hexecutes.counts (Code.counted_of_decode hdecode)
  rw [Stack.length_own hvisited.based] at hpops
  rw [hpc] at hdecode
  have hins {ins' : Instruction} (h : code.decode s.pc = .ok ins') : ins' = ins := by
    rw [hdecode] at h
    cases h
    rfl
  refine ⟨by omega, ⟨ins, hdecode, hexecutes.move_ne_invalid, by omega⟩, ?_, ?_, ?_⟩
  · intro ins' hdecode'
    obtain rfl := hins hdecode'
    obtain ⟨hpopped, hrelative⟩ := hexecutes.lands
    refine ⟨fun hmove => ?_, hrelative⟩
    obtain ⟨word, own, hown, hdest⟩ := hpopped hmove
    exact ⟨_, hpc ▸ Code.target_of_own hvisited hown hdest, hdest⟩
  · intro ins' hdecode' hmove'
    obtain rfl := hins hdecode'
    cases hexecutes with
    | @returnsub frame rest hmove hframes =>
      cases hsends with
      | back hnet =>
        have hroutine : path.state.routine = .sub frame.entry := by rw [State.routine, hframes]
        rw [Stack.length_own hvisited.based, ← hdepth] at hnet
        rw [hroutine] at hlinked
        obtain ⟨opened, below, hopened, hentry⟩ := hlinked.of_sub
        exact ⟨opened, below, hopened, hentry ▸ hnet⟩
    | straight h => cases hmove' ▸ h.isStraight
    | _ hmove => cases hmove'.symm.trans hmove
  · intro hbegins
    have hrecorded := Code.recorded_of_visited hfinish hvisited (hpc ▸ hbegins)
    rw [Path.arrival, hpc, ← hdepth] at hrecorded
    rw [hrecorded, hlinked.routine_eq]
    rfl

/-- **In every execution of an accepted code the records of the walk hold:** it never meets
an undefined instruction, a missing word or a missing frame, and it comes to a block, and
returns from a routine, in the one way that is on record. -/
theorem safe_of_reachable {analysis : Analysis} (haccepted : code.validate = .ok analysis) :
    ∃ last, Walk.start.finish code = .ok last ∧ analysis.blockEntries = last.blockEntries ∧
      ∀ s, Reachable code s → Safe code last s := by
  obtain ⟨last, hfinish, -, hanalysis⟩ := Code.finish_of_validate haccepted
  refine ⟨last, hfinish, by rw [hanalysis], ?_⟩
  intro s hreachable
  obtain ⟨path, htracks⟩ := tracked_of_reachable hfinish hreachable
  exact safe_of_tracks hfinish htracks

/-- A program that calls one routine at two depths. -/
def callsTwice : Code :=
  .ofBytes #[0x60, 0x07, 0xE3, 0x60, 0x07, 0xE3, 0x00, 0x5B, 0x34, 0xE4] .prague

theorem accepted_callsTwice : callsTwice.validate = .ok ⟨2, [0, 3, 6, 7], 1⟩ :=
  Code.eq_ok_of_toOption (by decide +kernel)

theorem safe_callsTwice :
    ∃ last, Walk.start.finish callsTwice = .ok last ∧ [0, 3, 6, 7] = last.blockEntries ∧
      ∀ s, Reachable callsTwice s → Safe callsTwice last s :=
  safe_of_reachable accepted_callsTwice

end Tally

end EvmSafety
