/-
Where the blame falls.

A rejection names an offset and a kind.  The offset is taken from different places: from the
instruction that is executed, from the block that a path comes to, from the call of a caller
that has waited since, or from a call of the main routine if it is the survey of the call graph
that finds a stack too small.  In each case something stands there that can have made a
violation of this kind.

That nothing is blamed past the end of the code but the end itself takes two invariants.  Paths
only come to places where an instruction starts or the code ends, since instructions tile the
code; and a block that was recorded has been read, as the walk reads it in the step after the
one that records it.
-/
import EvmSafety.Proofs.Chains
import EvmSafety.Proofs.Frames
import EvmSafety.Proofs.Rejections

namespace EvmSafety

/-! ### What can be blamed -/

/-- The opcodes that can find one of the stacks full. -/
def Opcode.NeedsRoom (op : Opcode) : Prop :=
  op.move = .push ∨ (∃ n, op.move = .dup n) ∨ (op.move = .effect ∧ op.pops < op.pushes) ∨
    op.move = .jumpsub

/-- A straight-line opcode that leaves more words than it takes is one of them. -/
theorem Opcode.Counted.needsRoom {op : Opcode} (hcounted : op.Counted)
    (hstraight : op.move.isStraight = true) (hgrows : op.pops < op.pushes) : op.NeedsRoom := by
  unfold Opcode.Counted at hcounted
  match hmove : op.move with
  | .push => exact .inl hmove
  | .dup n => exact .inr (.inl ⟨n, hmove⟩)
  | .effect => exact .inr (.inr (.inl ⟨hmove, hgrows⟩))
  | .swap n =>
    simp only [hmove] at hcounted
    omega
  | .jumpdest =>
    simp only [hmove] at hcounted
    omega
  | .halt | .invalid | .jump | .jumpi | .rjump | .rjumpi | .jumpsub | .returnsub =>
    simp [hmove, Move.isStraight] at hstraight

/-- The path comes to a block that is on record for another routine. -/
def Walk.OwnedByOther (w : Walk) (offset : Nat) : Prop :=
  ∃ path seen, w.cursor = .arriving path ∧ path.pc = offset ∧
    w.arrivals[offset]? = some seen ∧ seen.routine ≠ path.state.routine

/-- A violation of this kind can be met at the offset, for what stands there or for what is on
record of it. -/
def Walk.Blames (code : Code) (w : Walk) (offset : Nat) : Violation.Kind → Prop
  | .invalidInstruction => ∀ ins, code.decode offset = .ok ins → ins.opcode.move = .invalid
  | .dynamicJump => ∃ ins, code.decode offset = .ok ins ∧ ins.opcode.move.popsDestination = true
  | .stackUnderflow => ∃ ins, code.decode offset = .ok ins ∧
      (0 < ins.opcode.pops ∨ ins.opcode.move = .returnsub)
  | .stackOverflow => ∃ ins, code.decode offset = .ok ins ∧ ins.opcode.NeedsRoom
  | .stackMisalignment => (∃ arrival, w.arrivals[offset]? = some arrival) ∨
      ∃ ins, code.decode offset = .ok ins ∧ ins.opcode.move = .returnsub
  | .invalidDestination => w.OwnedByOther offset ∨ ∃ ins, code.decode offset = .ok ins ∧
      (ins.opcode.move.popsDestination = true ∨ ins.opcode.move.isRelative = true)

/-- The survey names this call for the ceiling that is broken first. -/
def Reach.Names (reach : Reach) (site : Nat) : Prop :=
  (stackCapacity < reach.peak → reach.peakVia = some site) ∧
    (reach.peak ≤ stackCapacity → stackCapacity < reach.frames ∧ reach.framesVia = some site)

namespace Code

/-- What holds of the offset and the kind that a program is rejected for. -/
structure Justifies (code : Code) (violation : Violation) : Prop where
  /-- An instruction starts there, or the code ends. -/
  boundary : code.isStart violation.offset = true ∨ violation.offset = code.size
  /-- At the end of the code only the missing instruction is blamed. -/
  pastEnd : violation.offset = code.size → violation.kind = .invalidInstruction
  /-- The kind fits what stands there or what is on record when the walk stops. -/
  blamed : ∃ w, code.walks.getLast? = some w ∧
    w.Blames code violation.offset violation.kind
  /-- If the walk met no violation itself, the offset is that of a call which the main routine
  makes, and it is the survey that names it. -/
  surveyed : ∀ last, Walk.start.finish code = .ok last →
    violation.kind = .stackOverflow ∧
      (last.graph.survey .main [] ∅).reach.Names violation.offset ∧
      ∃ path ins entry state, code.Calls path ins entry state ∧ path.pc = violation.offset ∧
        path.state.routine = .main ∧ ins.opcode.move = .jumpsub

variable {code : Code}

/-! ### Where paths come -/

/-- Paths come to places where an instruction starts or the code ends. -/
theorem Visited.onBoundary {path : Path} (h : code.Visited path) :
    code.OnBoundary path.pc := by
  rcases opened_or_advanced h with ⟨hbegins, -⟩ | ⟨-, before, ins, -, hdecode, hnext, -⟩
  · exact hbegins.onBoundary
  · exact hnext ▸ onBoundary_next hdecode

/-- **A block that is on record has been read,** or is about to be. -/
theorem decodes_of_arrivals {w : Walk} (hw : w ∈ code.walks) :
    ∀ (pc : Nat) (arrival : Arrival), w.arrivals[pc]? = some arrival →
      (∃ ins, code.decode pc = .ok ins) ∨ ∃ path, w.cursor = .inside path ∧ path.pc = pc := by
  refine walks_induction (motive := fun w => ∀ (pc : Nat) (arrival : Arrival),
    w.arrivals[pc]? = some arrival →
      (∃ ins, code.decode pc = .ok ins) ∨ ∃ path, w.cursor = .inside path ∧ path.pc = pc)
    ?_ ?_ w hw
  · intro pc arrival h
    simp [Walk.start] at h
  · intro w w' _ _ hstep ih pc arrival h
    have hread (hseen : w.arrivals[pc]? = some arrival) : ∃ ins, code.decode pc = .ok ins := by
      rcases ih pc arrival hseen with hdecodes | ⟨path, hcursor, rfl⟩
      · exact hdecodes
      · obtain ⟨ins, -, -, hdecode, -, -⟩ := hstep.of_inside hcursor
        exact ⟨ins, hdecode⟩
    rcases Walk.recorded_of_step hstep h with hbefore | ⟨path, -, hcursor, hpc, -⟩
    · exact .inl (hread hbefore)
    · exact .inr ⟨path, hcursor, hpc⟩

/-- Where a path comes to a block that is on record, an instruction stands. -/
theorem decodes_of_arriving {w : Walk} (hw : w ∈ code.walks) {path : Path} {seen : Arrival}
    (hcursor : w.cursor = .arriving path) (hseen : w.arrivals[path.pc]? = some seen) :
    ∃ ins, code.decode path.pc = .ok ins := by
  rcases decodes_of_arrivals hw path.pc seen hseen with hdecodes | ⟨_, hinside, -⟩
  · exact hdecodes
  · rw [hcursor] at hinside
    cases hinside

/-! ### Violations that a step meets -/

/-- A call along a path is a call of the routine that the path is in. -/
theorem Calls.routine {path : Path} {ins : Instruction} {entry : Nat} {state : State}
    (h : code.Calls path ins entry state) :
    ins.opcode.move = .jumpsub ∧ path.state.routine = state.routine := by
  obtain ⟨⟨w, hw, hcursor⟩, -, hexecute⟩ := h
  obtain ⟨hexecutes, -⟩ := (sound_of_mem_walks hw).executes (.inr hcursor) hexecute
  refine ⟨hexecutes.of_call.1, ?_⟩
  rw [State.routine, State.routine, hexecutes.frames_of_call.1]

theorem calls_of_overflows {w : Walk} (hw : w ∈ code.walks) {offset : Nat}
    (h : w.Overflows code offset) :
    ∃ path ins entry state, code.Calls path ins entry state ∧ path.pc = offset := by
  cases h with
  | calling hcursor hdecode hexecute =>
    exact ⟨_, _, _, _, ⟨⟨w, hw, hcursor⟩, hdecode, hexecute⟩, rfl⟩
  | waiting hcaller =>
    obtain ⟨path, ins, state, hcalls, hpc, -⟩ := callsFrom_of_mem_waiting hw hcaller
    exact ⟨path, ins, _, state, hcalls, hpc⟩

theorem blames_of_calls {w : Walk} {path : Path} {ins : Instruction} {entry : Nat}
    {state : State} (h : code.Calls path ins entry state) :
    w.Blames code path.pc .stackOverflow :=
  ⟨ins, h.decodes, .inr (.inr (.inr h.routine.1))⟩

/-- What makes an instruction fail stands in its opcode. -/
theorem blames_of_fault {w : Walk} (hw : w ∈ code.walks) {path : Path} {ins : Instruction}
    {kind : Violation.Kind} {state : State} (hcursor : w.cursor = .inside path)
    (hdecode : code.decode path.pc = .ok ins)
    (hexecute : ins.execute code path.state = .error kind state) :
    w.Blames code path.pc kind := by
  have hproper := proper_of_mem_walks hw path (.inr hcursor)
  have hcounted := counted_of_decode hdecode
  have hon := State.eq_on hproper.based
  rw [hon] at hexecute
  cases Instruction.fails_of_execute hcounted hexecute with
  | invalid hmove =>
    intro other hother
    rw [hdecode] at hother
    cases hother
    exact hmove
  | few hlt => exact ⟨ins, hdecode, .inl (Nat.zero_lt_of_lt hlt)⟩
  | unframed hmove => exact ⟨ins, hdecode, .inr hmove⟩
  | unknown hmove => exact ⟨ins, hdecode, hmove⟩
  | strays hstrays =>
    rcases hstrays with ⟨hmove, -⟩ | ⟨hmove, -⟩
    · exact .inr ⟨ins, hdecode, .inl hmove⟩
    · exact .inr ⟨ins, hdecode, .inr hmove⟩
  | full hmove hle hfull =>
    -- There was room for what the instruction found, so it leaves more than it takes.
    have hwithin := hproper.within
    rw [← Stack.on_own_below hproper.based, Stack.size_on] at hwithin
    exact ⟨ins, hdecode, hcounted.needsRoom hmove (by omega)⟩
  | deep hmove => exact ⟨ins, hdecode, .inr (.inr (.inr hmove))⟩

/-- **The kind of a violation that a step meets fits the offset.** -/
theorem blames_of_rejects {w : Walk} (hw : w ∈ code.walks) {violation : Violation}
    (h : w.Rejects code violation) : w.Blames code violation.offset violation.kind := by
  cases h with
  | overflow hoverflows =>
    obtain ⟨path, ins, entry, state, hcalls, rfl⟩ := calls_of_overflows hw hoverflows
    exact blames_of_calls hcalls
  | @unreadable path cause _ hdecode =>
    have hcause : cause.kind = .invalidInstruction := by cases cause <;> rfl
    rw [hcause]
    intro ins hins
    rw [hdecode] at hins
    cases hins
  | fault hcursor hdecode hexecute => exact blames_of_fault hw hcursor hdecode hexecute
  | foreign hcursor hseen hother => exact .inl ⟨_, _, hcursor, rfl, hseen, hother⟩
  | misaligned _ hseen => exact .inl ⟨_, hseen⟩
  | owned hcursor hdecode hexecute =>
    have hcalls : code.Calls _ _ _ _ := ⟨⟨w, hw, hcursor⟩, hdecode, hexecute⟩
    exact .inr ⟨_, hdecode, .inl (by rw [hcalls.routine.1]; rfl)⟩
  | uneven hcursor hdecode hexecute =>
    cases ((sound_of_mem_walks hw).executes (.inr hcursor) hexecute).1 with
    | returnsub hmove => exact .inr ⟨_, hdecode, hmove⟩
  | unframed hcursor hexecute hframe =>
    exact absurd (isBehindCall_of_back hw hcursor hexecute) hframe

/-- An instruction stands where a step meets a violation, or it is missing and that is the
violation. -/
theorem decodes_of_rejects {w : Walk} (hw : w ∈ code.walks) {violation : Violation}
    (h : w.Rejects code violation) :
    (∃ ins, code.decode violation.offset = .ok ins) ∨
      (violation.kind = .invalidInstruction ∧
        ∃ path, code.Visited path ∧ path.pc = violation.offset) := by
  cases h with
  | overflow hoverflows =>
    obtain ⟨path, ins, entry, state, hcalls, rfl⟩ := calls_of_overflows hw hoverflows
    exact .inl ⟨ins, hcalls.decodes⟩
  | @unreadable path cause hcursor _ =>
    have hcause : cause.kind = .invalidInstruction := by cases cause <;> rfl
    exact .inr ⟨hcause, path, ⟨w, hw, hcursor⟩, rfl⟩
  | fault _ hdecode => exact .inl ⟨_, hdecode⟩
  | foreign hcursor hseen => exact .inl (decodes_of_arriving hw hcursor hseen)
  | misaligned hcursor hseen => exact .inl (decodes_of_arriving hw hcursor hseen)
  | owned _ hdecode => exact .inl ⟨_, hdecode⟩
  | uneven _ hdecode => exact .inl ⟨_, hdecode⟩
  | unframed hcursor hexecute hframe =>
    exact absurd (isBehindCall_of_back hw hcursor hexecute) hframe

end Code

/-! ### Overflows that the survey finds -/

namespace Reach

/-- Taking a call into account leaves the peak and its call, or names this one. -/
theorem peakVia_through (reach : Reach) (call : Call) (callee : Reach) :
    ((reach.through call callee).peak = reach.peak ∧
        (reach.through call callee).peakVia = reach.peakVia) ∨
      (reach.through call callee).peakVia = some call.site := by
  unfold through
  dsimp only
  by_cases hpeak : reach.peak < call.depth + callee.peak
  · rw [if_pos hpeak]
    exact .inr (by split <;> rfl)
  · rw [if_neg hpeak]
    exact .inl (by split <;> exact ⟨rfl, rfl⟩)

theorem framesVia_through (reach : Reach) (call : Call) (callee : Reach) :
    ((reach.through call callee).frames = reach.frames ∧
        (reach.through call callee).framesVia = reach.framesVia) ∨
      (reach.through call callee).framesVia = some call.site := by
  unfold through
  dsimp only
  split
  · split
    · exact .inr rfl
    · exact .inl ⟨rfl, rfl⟩
  · split
    · exact .inr rfl
    · exact .inl ⟨rfl, rfl⟩

end Reach

namespace CallGraph

variable {graph : CallGraph}

/-- The second survey has the peak of the first, and the frames, or one of the calls is named
for them. -/
structure Attributes (calls : List Call) (first last : Survey) : Prop where
  peak : (last.reach.peak = first.reach.peak ∧ last.reach.peakVia = first.reach.peakVia) ∨
    ∃ call ∈ calls, last.reach.peakVia = some call.site
  frames : (last.reach.frames = first.reach.frames ∧
      last.reach.framesVia = first.reach.framesVia) ∨
    ∃ call ∈ calls, last.reach.framesVia = some call.site

theorem attributes_foldl {chain : List Routine} : ∀ (calls : List Call) (first : Survey),
    Attributes calls first (calls.foldl (graph.surveyCall chain) first) := by
  intro calls
  induction calls with
  | nil =>
    intro first
    exact ⟨.inl ⟨rfl, rfl⟩, .inl ⟨rfl, rfl⟩⟩
  | cons call rest ih =>
    intro first
    have hrest := ih (graph.surveyCall chain first call)
    rw [List.foldl_cons]
    constructor
    · rcases hrest.peak with ⟨hpeak, hvia⟩ | ⟨named, hnamed, hvia⟩
      · rw [hpeak, hvia]
        exact (Reach.peakVia_through first.reach call _).imp_right
          fun hthis => ⟨call, List.mem_cons_self, hthis⟩
      · exact .inr ⟨named, List.mem_cons_of_mem _ hnamed, hvia⟩
    · rcases hrest.frames with ⟨hframes, hvia⟩ | ⟨named, hnamed, hvia⟩
      · rw [hframes, hvia]
        exact (Reach.framesVia_through first.reach call _).imp_right
          fun hthis => ⟨call, List.mem_cons_self, hthis⟩
      · exact .inr ⟨named, List.mem_cons_of_mem _ hnamed, hvia⟩

theorem reach_close (survey : Survey) (routine : Routine) (place : Nat) :
    (survey.close routine place).reach = survey.reach := by
  unfold Survey.close
  split <;> rfl

/-- **Whatever the main routine does not reach by itself, the survey attributes to one of its
calls.** -/
theorem attributes_survey (graph : CallGraph) :
    Attributes (graph.usage .main).calls
      { reach := { peak := (graph.usage .main).peak }, settled := ∅ }
      (graph.survey .main [] ∅) := by
  have hempty : (∅ : Std.TreeMap Routine Reach)[Routine.main]? = none := by simp
  match husage : graph[Routine.main]? with
  | none =>
    rw [survey_of_unknown hempty husage, usage_of_none husage]
    exact ⟨.inl ⟨rfl, rfl⟩, .inl ⟨rfl, rfl⟩⟩
  | some usage =>
    have hfold : Attributes usage.calls.reverse { reach := { peak := usage.peak }, settled := ∅ }
        (graph.surveyCalls .main [] ∅ usage) := attributes_foldl _ _
    rw [survey_of_new hempty husage rfl, usage_of_getElem? husage]
    constructor
    · rw [reach_close]
      exact hfold.peak.imp_right fun ⟨call, hcall, hvia⟩ => ⟨call, List.mem_reverse.1 hcall, hvia⟩
    · rw [reach_close]
      exact hfold.frames.imp_right
        fun ⟨call, hcall, hvia⟩ => ⟨call, List.mem_reverse.1 hcall, hvia⟩

/-- An overflow is blamed on the call that the survey names, which the main routine makes. -/
theorem names_of_highestDepth {overflow : Overflow}
    (hpeak : (graph.usage .main).peak ≤ stackCapacity)
    (h : graph.highestDepth = .error overflow) :
    (graph.survey .main [] ∅).reach.Names overflow.violation.offset ∧
      ∃ call ∈ (graph.usage .main).calls, call.site = overflow.violation.offset := by
  have hattributes := attributes_survey graph
  unfold highestDepth at h
  dsimp only at h
  by_cases hslots : stackCapacity < (graph.survey .main [] ∅).reach.peak
  · rw [if_pos hslots] at h
    cases h
    rcases hattributes.peak with ⟨hsame, -⟩ | ⟨call, hcall, hvia⟩
    · rw [hsame] at hslots
      exact absurd hslots (Nat.not_lt.2 hpeak)
    · have hsite : (graph.survey .main [] ∅).reach.peakVia.getD 0 = call.site := by
        rw [hvia]
        rfl
      rw [hsite]
      exact ⟨⟨fun _ => hvia, fun hle => absurd hslots (Nat.not_lt.2 hle)⟩, call, hcall, rfl⟩
  · rw [if_neg hslots] at h
    by_cases hframes : stackCapacity < (graph.survey .main [] ∅).reach.frames
    · rw [if_pos hframes] at h
      cases h
      rcases hattributes.frames with ⟨hsame, -⟩ | ⟨call, hcall, hvia⟩
      · rw [hsame] at hframes
        exact absurd hframes (Nat.not_lt_zero _)
      · have hoffset : (Overflow.frames (graph.survey .main [] ∅).reach.frames
            ((graph.survey .main [] ∅).reach.framesVia.getD 0)).violation.offset = call.site := by
          rw [hvia]
          rfl
        rw [hoffset]
        exact ⟨⟨fun hlt => absurd hlt hslots, fun _ => ⟨hframes, hvia⟩⟩, call, hcall, rfl⟩
    · rw [if_neg hframes] at h
      cases h

end CallGraph

/-! ### Rejections -/

namespace Code

variable {code : Code}

/-- What a step of the walk meets is justified. -/
theorem justifies_of_rejects {w : Walk} {rejection : Rejection} {violation : Violation}
    (hfinish : Walk.start.finish code = .error rejection)
    (hlast : code.walks.getLast? = some w) (h : w.Rejects code violation) :
    code.Justifies violation := by
  have hw := List.mem_of_getLast? hlast
  refine ⟨?_, ?_, ⟨w, hlast, blames_of_rejects hw h⟩, fun last hends => ?_⟩
  · rcases decodes_of_rejects hw h with ⟨ins, hdecode⟩ | ⟨-, path, hvisited, hpc⟩
    · exact onBoundary_of_decode hdecode
    · exact hpc ▸ hvisited.onBoundary
  · intro hend
    rcases decodes_of_rejects hw h with ⟨ins, hdecode⟩ | ⟨hkind, -⟩
    · obtain ⟨-, hlt⟩ := offset_lt_of_decode hdecode
      exact absurd hend (Nat.ne_of_lt hlt)
    · exact hkind
  · rw [hfinish] at hends
    cases hends

/-- What the survey finds is justified. -/
theorem justifies_of_overflow {last : Walk} {overflow : CallGraph.Overflow}
    (hfinish : Walk.start.finish code = .ok last)
    (h : last.graph.highestDepth = .error overflow) : code.Justifies overflow.violation := by
  have hmem := last_mem_walks hfinish
  obtain ⟨hnames, call, hcall, hsite⟩ :=
    CallGraph.names_of_highestDepth (peak_le_of_mem_walks hmem .main) h
  obtain ⟨path, ins, state, hcalls, hpc, hroutine, -⟩ :=
    (attested_of_mem_walks hmem).calls .main call hcall
  obtain ⟨hmove, hsame⟩ := hcalls.routine
  have hoffset : path.pc = overflow.violation.offset := hpc.trans hsite
  have hkind : overflow.violation.kind = .stackOverflow := by cases overflow <;> rfl
  obtain ⟨-, hlt⟩ := offset_lt_of_decode hcalls.decodes
  rw [← hoffset] at hnames
  obtain ⟨w, hw⟩ : ∃ w, code.walks.getLast? = some w :=
    Option.isSome_iff_exists.1 (List.getLast?_isSome.2 (List.ne_nil_of_mem hmem))
  refine ⟨?_, fun hend => ?_, ⟨w, hw, ?_⟩, fun last' hlast' => ⟨hkind, ?_, ?_⟩⟩
  · exact hoffset ▸ onBoundary_of_decode hcalls.decodes
  · rw [← hoffset] at hend
    exact absurd hend (Nat.ne_of_lt hlt)
  · rw [hkind, ← hoffset]
    exact blames_of_calls hcalls
  · rw [hfinish] at hlast'
    cases hlast'
    exact hoffset ▸ hnames
  · exact ⟨path, ins, _, state, hcalls, hoffset, hsame.trans hroutine, hmove⟩

/-- **The offset and the kind that a program is rejected for always fit what stands there.** -/
theorem justifies_of_rejected {violation : Violation}
    (hrejected : code.validate = .error violation) : code.Justifies violation := by
  rcases validate_eq_error hrejected with ⟨rejection, w, hfinish, hlast, hrejects⟩ |
    ⟨last, overflow, hfinish, hoverflow, rfl⟩
  · exact justifies_of_rejects hfinish hlast hrejects
  · exact justifies_of_overflow hfinish hoverflow

/-- A loop that leaves one word more on the stack every time it is run through. -/
def pilesUp : Array UInt8 :=
  #[0x5B, 0x34, 0x5F, 0x56]

/-- The blame falls on the block that the loop begins with, which is on record by then. -/
theorem justifies_pilesUp :
    (ofBytes pilesUp .shanghai).validate = .error ⟨0, .stackMisalignment⟩ ∧
      (ofBytes pilesUp .shanghai).Justifies ⟨0, .stackMisalignment⟩ := by
  have hrejected : (ofBytes pilesUp .shanghai).validate = .error ⟨0, .stackMisalignment⟩ := by
    decide +kernel
  exact ⟨hrejected, justifies_of_rejected hrejected⟩

end Code

end EvmSafety
