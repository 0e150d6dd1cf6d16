/-
The depth that is reported is reached.

No execution of an accepted code grows its stack above the depth that is reported, unless it
enters a routine that is still open.  Here is the other half: where no routine calls itself,
directly or through others, some execution comes to a place with exactly that many words.  The
number is put together from depths that were seen on different paths, in different routines,
some of them behind calls that the walk never took; what is missing is one execution that does
all of it.

It follows the chain of calls that the survey found to rise highest.  Each call on it was seen
to be made by some path, and that path can be retraced from wherever an execution begins the
routine, so the execution makes the calls one after the other, each on top of what the callers
left there.  In the last routine it retraces the path that showed the peak.

That the survey finds what some chain has takes call graphs whose cycles are entered once.
Without cycles there is nothing to enter.
-/
import EvmSafety.Proofs.Capacity
import EvmSafety.Proofs.Coverage
import EvmSafety.Proofs.Cycles

namespace EvmSafety

/-! ### Call graphs without cycles -/

namespace CallGraph

/-- No routine calls itself, directly or through others. -/
def Acyclic (graph : CallGraph) : Prop :=
  ∀ routine, ¬ Relation.TransGen graph.Edge routine routine

/-- Every call leads to a routine that comes later in the order of routines. -/
def callsAscend (graph : CallGraph) : Bool :=
  graph.toList.all fun entry =>
    entry.2.calls.all fun call => decide (entry.1.rank < (Routine.sub call.callee).rank)

variable {graph : CallGraph} {routine : Routine}

theorem Acyclic.entersCyclesOnce (h : graph.Acyclic) : graph.EntersCyclesOnce := by
  intro routine other hmutual _ _
  obtain ⟨hthere, hback⟩ := hmutual
  rcases Relation.reflTransGen_iff_eq_or_transGen.1 hthere with heq | hcycle
  · exact heq.symm
  · exact absurd (hcycle.trans_left hback) (h routine)

/-- What makes calls is listed. -/
theorem mem_toList_of_mem_calls {call : Call} (h : call ∈ (graph.usage routine).calls) :
    (routine, graph.usage routine) ∈ graph.toList := by
  cases hentry : graph[routine]? with
  | none =>
    rw [usage_of_none hentry] at h
    cases h
  | some usage =>
    rw [usage_of_getElem? hentry]
    exact Std.TreeMap.mem_toList_iff_getElem?_eq_some.2 hentry

/-- Calls that all lead on in one order never come back. -/
theorem acyclic_of_callsAscend (h : graph.callsAscend = true) : graph.Acyclic := by
  have hedge {caller callee : Routine} (hcall : graph.Edge caller callee) :
      caller.rank < callee.rank := by
    obtain ⟨call, hcall, rfl⟩ := hcall
    have hcalls := List.all_eq_true.1 h _ (mem_toList_of_mem_calls hcall)
    exact of_decide_eq_true (List.all_eq_true.1 hcalls call hcall)
  have hleads {caller callee : Routine} (hcalls : Relation.TransGen graph.Edge caller callee) :
      caller.rank < callee.rank := by
    induction hcalls with
    | single hcall => exact hedge hcall
    | tail _ hcall ih => exact Nat.lt_trans ih (hedge hcall)
  intro routine hcycle
  exact Nat.lt_irrefl _ (hleads hcycle)

end CallGraph

/-! ### What was seen can be retraced -/

namespace Code

variable {code : Code} {w : Walk}

theorem Followed.retraces {path : Path} (h : code.Followed path) :
    code.Retraces path.state.routine path.pc path.state.stack.depth := by
  obtain ⟨w, hw, hready⟩ := h
  exact (code.retraced.given_of_mem_walks hw).paths path hready

/-- A call that the walk makes can be retraced. -/
theorem Calls.retraced {path : Path} {ins : Instruction} {entry : Nat} {state : State}
    (h : code.Calls path ins entry state) : code.Enters entry ins.next state := by
  obtain ⟨⟨w, hw, hcursor⟩, hdecode, hexecute⟩ := h
  have hexecuting : w.Executing code path ins (.call entry) state := ⟨hcursor, hdecode, hexecute⟩
  exact (code.retraced.given_of_mem_walks hw).calls hw hexecuting

/-- Wherever an execution begins a routine, one can be led on to the peak of the routine. -/
theorem exists_reachable_peak (hw : w ∈ code.walks) {routine : Routine} {s : Tally}
    (hreachable : Tally.Reachable code s) (hbegins : s.Begins routine) :
    ∃ s', Tally.Reachable code s' ∧ s'.height = s.base + (w.graph.usage routine).peak := by
  rcases (attested_of_mem_walks hw).peaks routine with hzero | ⟨path, hfollowed, rfl, hdepth⟩
  · refine ⟨s, hreachable, ?_⟩
    rw [hzero, hbegins.height, Nat.add_zero]
  · refine ⟨_, hfollowed.retraces s hreachable hbegins, ?_⟩
    rw [← hdepth]

/-- Wherever an execution begins a routine, one can be led into any routine that is called
there. -/
theorem exists_begins_of_call (hw : w ∈ code.walks) {routine : Routine} {s : Tally}
    (hreachable : Tally.Reachable code s) (hbegins : s.Begins routine) {call : Call}
    (hcall : call ∈ (w.graph.usage routine).calls) :
    ∃ s', Tally.Reachable code s' ∧ s'.Begins (.sub call.callee) ∧
      s'.base = s.base + call.depth := by
  obtain ⟨path, ins, state, hcalls, -, rfl, hdepth⟩ :=
    (attested_of_mem_walks hw).calls routine call hcall
  refine ⟨_, hcalls.retraced.begins hreachable hbegins, ⟨rfl, rfl, rfl⟩, ?_⟩
  rw [← hdepth]

/-- **Some execution rises as high as a chain of noted calls.** -/
theorem exists_reachable_rise (hw : w ∈ code.walks) :
    ∀ {calls : List Call} {routine : Routine} {s : Tally}, w.graph.Noted routine calls →
      Tally.Reachable code s → s.Begins routine →
      ∃ s', Tally.Reachable code s' ∧ s'.height = s.base + w.graph.rise routine calls := by
  intro calls
  induction calls with
  | nil =>
    intro routine s _ hreachable hbegins
    exact exists_reachable_peak hw hreachable hbegins
  | cons call rest ih =>
    intro routine s hnoted hreachable hbegins
    obtain ⟨hcall, hrest⟩ := hnoted
    obtain ⟨entered, hentered, hbegins', hbase⟩ :=
      exists_begins_of_call hw hreachable hbegins hcall
    obtain ⟨top, htop, hheight⟩ := ih hrest hentered hbegins'
    refine ⟨top, htop, ?_⟩
    rw [hheight, hbase, CallGraph.rise, Nat.add_assoc]

/-- Some execution rises as high as the highest chain that starts in the main routine. -/
theorem exists_reachable_of_isGreatest (hw : w ∈ code.walks) {highest : Nat}
    (h : IsGreatest w.graph.rises highest) :
    ∃ s, Tally.Reachable code s ∧ s.height = highest := by
  obtain ⟨⟨calls, hchain, rfl⟩, -⟩ := h
  have hbegins : Tally.Begins .main {} := ⟨rfl, rfl, rfl⟩
  obtain ⟨top, htop, hheight⟩ := exists_reachable_rise hw hchain.noted .refl hbegins
  refine ⟨top, htop, ?_⟩
  rw [hheight]
  exact Nat.zero_add _

end Code

/-! ### The depth that is reported -/

namespace Tally

variable {code : Code}

/-- **The depth that is reported is reached.**  Where the call graph of an accepted code has no
cycle, some execution comes to a place with exactly as many words on the stack. -/
theorem exists_reachable_height {analysis : Analysis} {last : Walk}
    (haccepted : code.validate = .ok analysis) (hfinish : Walk.start.finish code = .ok last)
    (hacyclic : last.graph.Acyclic) :
    ∃ s, Reachable code s ∧ s.height = analysis.maxStackDepth := by
  obtain ⟨last', hfinish', hdepth, -⟩ := Code.finish_of_validate haccepted
  obtain rfl : last = last' := by
    rw [hfinish] at hfinish'
    cases hfinish'
    rfl
  obtain ⟨hpeak, -, -⟩ := CallGraph.highestDepth_eq_ok hdepth
  obtain ⟨hhighest, -⟩ :=
    CallGraph.isGreatest_of_entersCyclesOnce hacyclic.entersCyclesOnce
  rw [hpeak]
  exact Code.exists_reachable_of_isGreatest (Code.last_mem_walks hfinish) hhighest

/-- A program that calls one routine twice, which calls another one; the second call is made
above what the first one left, and is the one that rises to the highest depth. -/
def nestsTwice : Code :=
  .ofBytes #[0x60, 0x07, 0xE3, 0x60, 0x07, 0xE3, 0x00, 0x5B, 0x34, 0x60, 0x0D, 0xE3, 0xE4, 0x5B,
    0x34, 0x34, 0x50, 0xE4] .prague

/-- The walk takes neither the second call of the first routine nor, there, the call of the
other one; the execution that reaches the depth takes both. -/
theorem exists_reachable_height_nestsTwice :
    nestsTwice.validate = .ok ⟨5, [0, 3, 6, 7, 12, 13], 2⟩ ∧
      (∃ last, Walk.start.finish nestsTwice = .ok last ∧ last.graph.Acyclic) ∧
      ∃ s, Reachable nestsTwice s ∧ s.height = 5 := by
  have haccepted : nestsTwice.validate = .ok ⟨5, [0, 3, 6, 7, 12, 13], 2⟩ :=
    Code.eq_ok_of_toOption (by decide +kernel)
  have hascend : (Walk.start.finish nestsTwice).toOption.map (·.graph.callsAscend) = some true := by
    decide +kernel
  obtain ⟨last, hfinish, -⟩ := Code.finish_of_validate haccepted
  rw [hfinish] at hascend
  have hacyclic : last.graph.Acyclic :=
    CallGraph.acyclic_of_callsAscend (Option.some.inj hascend)
  exact ⟨haccepted, ⟨last, hfinish, hacyclic⟩,
    exists_reachable_height haccepted hfinish hacyclic⟩

end Tally

end EvmSafety
