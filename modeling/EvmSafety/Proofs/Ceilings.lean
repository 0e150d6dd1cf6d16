/-
The ceilings hold.

The depth that is reported for an accepted code bounds the stack along every execution in
which no routine is entered while it is open.  In such an execution the open frames are a
call chain: each of them was opened by a call that the walk made and noted, so the base of
the innermost routine is what the calls of the chain lift it to, and the survey bounds what
the routine adds.

The walk does not note a depth at every instruction, so no bound for a single place can be
read off the call graph.  It notes one wherever the stack can have grown, and the argument
goes along the execution: a step either leaves the stack no higher, or goes on inside a block
to a depth that was noted.
-/
import EvmSafety.Proofs.Chains
import EvmSafety.Proofs.Tally

namespace EvmSafety

namespace Tally

variable {code : Code} {last : Walk} {s s' : Tally}

/-- No two open frames belong to one routine. -/
def EntersOnce (s : Tally) : Prop :=
  (s.frames.map Frame.entry).Nodup

/-- Some execution comes here in which at no time two open frames belong to one routine. -/
def ReachableOnce (code : Code) (s : Tally) : Prop :=
  Relation.ReflTransGen (fun s s' => Step code s s' ∧ s'.EntersOnce) {} s

/-! ### The open frames are a chain -/

theorem Linked.exists_calls (hfinish : Walk.start.finish code = .ok last) {routine : Routine}
    {base : Nat} {frames : List Frame} (h : Linked code routine base frames) :
    ∃ calls, last.graph.Noted .main calls ∧ CallGraph.endpoint .main calls = routine ∧
      CallGraph.lift calls = base ∧ calls.length = frames.length ∧
      CallGraph.callers .main calls ++ [routine]
        = .main :: (frames.map fun frame => .sub frame.entry).reverse := by
  induction h with
  | main => exact ⟨[], trivial, rfl, rfl, rfl, rfl⟩
  | @sub path ins entry base state frames hcalls _ ih =>
    obtain ⟨calls, hnoted, hend, hlift, hlength, hcallers⟩ := ih
    refine ⟨calls ++ [⟨ins.offset, state.stack.depth, entry⟩], ?_, ?_, ?_, ?_, ?_⟩
    · exact CallGraph.noted_concat hnoted (hend ▸ hcalls.noted hfinish)
    · exact CallGraph.endpoint_concat _ _ _
    · rw [CallGraph.lift_concat, hlift]
    · simp [hlength]
    · rw [CallGraph.callers_concat, hend, hcallers]
      simp

/-- What the survey finds bounds a routine at the end of the open frames, and their number. -/
theorem Linked.le_survey (hfinish : Walk.start.finish code = .ok last) {routine : Routine}
    {base : Nat} {frames : List Frame} (h : Linked code routine base frames)
    (hnodup : (frames.map Frame.entry).Nodup) :
    base + (last.graph.usage routine).peak ≤ (last.graph.survey .main [] ∅).reach.peak ∧
      frames.length ≤ (last.graph.survey .main [] ∅).reach.frames := by
  obtain ⟨calls, hnoted, hend, hlift, hlength, hcallers⟩ := h.exists_calls hfinish
  have hentered :
      (Routine.main :: (frames.map fun frame => Routine.sub frame.entry).reverse).Nodup := by
    refine List.nodup_cons.2 ⟨by simp, List.nodup_reverse.2 ?_⟩
    have hmap := hnodup.map (f := Routine.sub) fun a b hab => Routine.sub.inj hab
    rwa [List.map_map] at hmap
  have hchain : last.graph.IsChain .main calls :=
    ⟨hnoted, (List.nodup_append.1 (hcallers ▸ hentered)).1⟩
  obtain ⟨hrise, hframes⟩ := CallGraph.bounds_survey last.graph calls hchain
  rw [CallGraph.rise_eq, hlift, hend] at hrise
  exact ⟨hrise, hlength ▸ hframes⟩

/-! ### Along an execution -/

theorem height_goTo_le {ins : Instruction} (hpushes : ins.opcode.pushes = 0) (pc : Nat) :
    (s.goTo ins pc).height ≤ s.height := by
  show s.height - ins.opcode.pops + ins.opcode.pushes ≤ s.height
  omega

/-- Only an instruction that goes on to the next one makes the stack grow. -/
theorem height_le_of_step {ins : Instruction} (hdecode : code.decode s.pc = .ok ins)
    (hmove : ins.opcode.move.isStraight = false) (hstep : Step code s s') :
    s'.height ≤ s.height := by
  have hcounted := Code.counted_of_decode hdecode
  rw [Step, next_of_decode hdecode] at hstep
  unfold moves at hstep
  unfold Opcode.Counted at hcounted
  cases hkind : ins.opcode.move with
  | halt => simp [hkind] at hstep
  | invalid => simp [hkind] at hstep
  | push => rw [hkind] at hmove; cases hmove
  | dup => rw [hkind] at hmove; cases hmove
  | swap => rw [hkind] at hmove; cases hmove
  | jumpdest => rw [hkind] at hmove; cases hmove
  | effect => rw [hkind] at hmove; cases hmove
  | jump =>
    simp only [hkind, List.mem_map] at hstep hcounted
    obtain ⟨dest, -, rfl⟩ := hstep
    exact height_goTo_le hcounted.2 _
  | rjump =>
    simp only [hkind, List.mem_map] at hstep hcounted
    obtain ⟨dest, -, rfl⟩ := hstep
    exact height_goTo_le hcounted.2 _
  | jumpi =>
    simp only [hkind, List.mem_cons, List.mem_map] at hstep hcounted
    rcases hstep with rfl | ⟨dest, -, rfl⟩
    · exact height_goTo_le hcounted.2 _
    · exact height_goTo_le hcounted.2 _
  | rjumpi =>
    simp only [hkind, List.mem_cons, List.mem_map] at hstep hcounted
    rcases hstep with rfl | ⟨dest, -, rfl⟩
    · exact height_goTo_le hcounted.2 _
    · exact height_goTo_le hcounted.2 _
  | jumpsub =>
    simp only [hkind, List.mem_map] at hstep hcounted
    obtain ⟨entry, -, rfl⟩ := hstep
    exact height_goTo_le (s := s) hcounted.2 entry
  | returnsub =>
    simp only [hkind, leave] at hstep
    split at hstep
    · cases hstep
    · obtain rfl := List.mem_singleton.1 hstep
      exact Nat.le_refl _

/-- Where the stack grows, its height is one that was noted in the routine. -/
theorem height_le_peak_of_step (hfinish : Walk.start.finish code = .ok last)
    (h : Tracked code s) (hstep : Step code s s') :
    s'.height ≤ s.height ∨ ∃ routine, Linked code routine s.base s.frames ∧
      s'.frames = s.frames ∧ s'.height ≤ s.base + (last.graph.usage routine).peak := by
  obtain ⟨path, hvisited, hpc, hheight, hlinked⟩ := h
  obtain ⟨ins, flow, state, hdecode, -, hexecutes, hsends⟩ :=
    Code.sends_of_visited hfinish hvisited
  obtain ⟨hpops, hcounts⟩ := hexecutes.counts (Code.counted_of_decode hdecode)
  rw [hpc] at hdecode
  cases hmove : ins.opcode.move.isStraight with
  | false => exact .inl (height_le_of_step hdecode hmove hstep)
  | true =>
    rw [Step, next_of_decode hdecode, moves_of_straight hmove] at hstep
    obtain rfl := List.mem_singleton.1 hstep
    cases hexecutes with
    | straight =>
      cases hsends with
      | advance _ hpeak =>
        obtain ⟨own, hown, hlength⟩ := hcounts (by simp)
        rw [State.mk.injEq] at hown
        rw [hown.1, Stack.depth_on, hlength, Stack.length_own hvisited.based] at hpeak
        rw [Stack.length_own hvisited.based] at hpops
        refine .inr ⟨path.state.routine, hlinked, rfl, ?_⟩
        show s.height - ins.opcode.pops + ins.opcode.pushes ≤ _
        have hnoted : path.state.stack.depth - ins.opcode.pops + ins.opcode.pushes
            ≤ (last.graph.usage path.state.routine).peak := hpeak
        omega
    | _ h => rw [h] at hmove; cases hmove

theorem entersOnce_of_reachableOnce (h : ReachableOnce code s) : s.EntersOnce := by
  cases h with
  | refl => exact List.nodup_nil
  | tail _ hstep => exact hstep.2

theorem reachable_of_reachableOnce (h : ReachableOnce code s) : Reachable code s := by
  induction h with
  | refl => exact .refl
  | tail _ hstep ih => exact ih.tail hstep.1

/-- **The ceilings hold.**  Along an execution of an accepted code in which no routine is
entered while it is open, the stack never grows above the depth that is reported, and neither
stack outgrows its limit. -/
theorem height_le_of_reachableOnce {analysis : Analysis}
    (haccepted : code.validate = .ok analysis) :
    analysis.maxStackDepth ≤ stackCapacity ∧ ∀ s, ReachableOnce code s →
      s.height ≤ analysis.maxStackDepth ∧ s.frames.length ≤ stackCapacity := by
  obtain ⟨last, hfinish, hdepth, -⟩ := Code.finish_of_validate haccepted
  obtain ⟨hpeak, hlimit, hframes⟩ := CallGraph.highestDepth_eq_ok hdepth
  refine ⟨hlimit, fun s hreachable => ⟨?_, ?_⟩⟩
  · induction hreachable with
    | refl => exact Nat.zero_le _
    | @tail s s' hreachable hstep ih =>
      have htracked := tracked_of_reachable hfinish (reachable_of_reachableOnce hreachable)
      rcases height_le_peak_of_step hfinish htracked hstep.1 with
        hle | ⟨routine, hlinked, hsame, hle⟩
      · exact Nat.le_trans hle ih
      · have hbound := (hlinked.le_survey hfinish (entersOnce_of_reachableOnce hreachable)).1
        rw [hpeak]
        exact Nat.le_trans hle hbound
  · obtain ⟨path, htracks⟩ := tracked_of_reachable hfinish (reachable_of_reachableOnce hreachable)
    have hbound := htracks.linked.le_survey hfinish (entersOnce_of_reachableOnce hreachable)
    exact Nat.le_trans hbound.2 hframes

theorem height_le_callsTwice :
    2 ≤ stackCapacity ∧ ∀ s, ReachableOnce callsTwice s →
      s.height ≤ 2 ∧ s.frames.length ≤ stackCapacity :=
  height_le_of_reachableOnce accepted_callsTwice

end Tally

end EvmSafety
