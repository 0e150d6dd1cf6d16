/-
No caller is lost.

A caller that finds a routine entered but not returned from waits, and from then on the walk
works on other paths, in whatever order they lie on the list; the routine may be recursive,
callers may come before and between its returns, and a caller that goes on may itself return
and let others go.  That none of them is forgotten or let go twice rests on three facts.  A
caller waits only as long as the net of its routine is open; the step that fixes the net takes
all callers of the routine off their list and puts each on the other one; and as every call is
executed once, no caller is on the list twice.

The second fact has an exception: if the slots that the routine leaves do not fit on the stack
of a caller, the program is rejected at its call.
-/
import EvmSafety.Proofs.Queue

namespace EvmSafety

/-- There is room on the stack of a waiting caller for the slots that the routine leaves. -/
def Waiting.Fits (net : Nat) (caller : Waiting) : Prop :=
  caller.path.state.stack.size + net ≤ stackCapacity

namespace Walk

/-! ### Letting callers go -/

theorem resume_of_fits {net : Nat} {caller : Waiting} (w : Walk) (h : caller.Fits net) :
    ∃ w', w.resume net caller = .ok w' := by
  unfold Waiting.Fits at h
  rw [resume, State.onStack_pad, if_pos h]
  exact ⟨_, rfl⟩

theorem resume_of_not_fits {net : Nat} {caller : Waiting} (w : Walk) (h : ¬ caller.Fits net) :
    w.resume net caller = .error ⟨⟨caller.site, .stackOverflow⟩, w.log⟩ := by
  unfold Waiting.Fits at h
  rw [resume, State.onStack_pad, if_neg h]
  rfl

/-- Letting callers go succeeds if the slots fit on all their stacks, and fails at one on
whose stack they do not. -/
theorem foldlM_resume (net : Nat) : ∀ (callers : List Waiting) (w : Walk),
    ((∀ caller ∈ callers, caller.Fits net) ∧ ∃ w', callers.foldlM (resume net) w = .ok w') ∨
      ∃ caller ∈ callers, ¬ caller.Fits net ∧
        ∃ log, callers.foldlM (resume net) w = .error ⟨⟨caller.site, .stackOverflow⟩, log⟩ := by
  intro callers
  induction callers with
  | nil =>
    intro w
    exact .inl ⟨by simp, w, rfl⟩
  | cons caller rest ih =>
    intro w
    rw [List.foldlM_cons]
    by_cases hfits : caller.Fits net
    · obtain ⟨w₁, hresume⟩ := resume_of_fits w hfits
      rw [hresume]
      rcases ih w₁ with ⟨hall, w', hw'⟩ | ⟨other, hother, hnot, log, hlog⟩
      · exact .inl ⟨List.forall_mem_cons.2 ⟨hfits, hall⟩, w', hw'⟩
      · exact .inr ⟨other, List.mem_cons_of_mem _ hother, hnot, log, hlog⟩
    · rw [resume_of_not_fits w hfits]
      exact .inr ⟨caller, List.mem_cons_self, hfits, w.log, rfl⟩

end Walk

namespace Code

variable {code : Code}

/-- What the first return from a routine leads to. -/
inductive FirstReturn (code : Code) (w : Walk) (entry net : Nat) : Prop
  /-- The net is fixed, and each caller that waits for the routine is put on the list, with so
  many unknown slots more on its stack. -/
  | releases {w' : Walk} (hstep : w.step code = .ok (some w'))
      (hnets : w'.nets = w.nets.insert entry net)
      (hpending : w'.pending =
        (w.waiting.filter fun caller => caller.callee = entry).map (Waiting.onward net)
          ++ w.pending)
      (hwaiting : w'.waiting = w.waiting.filter fun caller => caller.callee ≠ entry)
  /-- The slots do not fit on the stack of one of the callers, and the program is rejected at
  its call. -/
  | overflows {caller : Waiting} (hcaller : caller ∈ w.waiting) (hcallee : caller.callee = entry)
      (hnot : ¬ caller.Fits net)
      (hrejected : code.validate = .error ⟨caller.site, .stackOverflow⟩)

/-- Where a path returns from a routine, a call stands right before. -/
theorem isBehindCall_of_back {w : Walk} (hw : w ∈ code.walks) {path : Path} {ins : Instruction}
    {net : Nat} {frame : Frame} {state : State} (hcursor : w.cursor = .inside path)
    (hexecute : ins.execute code path.state = .ok (.back net frame) state) :
    code.isBehindCall frame.returnTo = true := by
  have hhead := State.head_mem_contextsOf path.state.stack.below path.state.frames
  cases ((sound_of_mem_walks hw).executes (.inr hcursor) hexecute).1 with
  | returnsub _ hframes =>
    exact isBehindCall_of_live hw path (.inr hcursor) _ hhead _ _ hframes

/-- **The first return from a routine lets all its callers go,** unless what it leaves does not
fit. -/
theorem firstReturn {w : Walk} (hw : w ∈ code.walks) {path : Path} {ins : Instruction}
    {net : Nat} {frame : Frame} {state : State} (hcursor : w.cursor = .inside path)
    (hdecode : code.decode path.pc = .ok ins)
    (hexecute : ins.execute code path.state = .ok (.back net frame) state)
    (hnone : w.nets[frame.entry]? = none) : code.FirstReturn w frame.entry net := by
  let callers := w.waiting.filter fun caller => caller.callee = frame.entry
  let others := w.waiting.filter fun caller => caller.callee ≠ frame.entry
  have hfix : w.fixNet ins.offset frame.entry net
      = callers.reverse.foldlM (Walk.resume net)
          { w with nets := w.nets.insert frame.entry net, waiting := others } := by
    rw [Walk.fixNet, hnone]
    rfl
  have hstep : w.step code = some <$> (do
      let fixed ← w.fixNet ins.offset frame.entry net
      return fixed.goTo frame.returnTo state) := by
    simp only [Walk.step, hcursor, Walk.execute, hdecode, hexecute, Walk.follow, Walk.back,
      if_pos (isBehindCall_of_back hw hcursor hexecute)]
  rcases Walk.foldlM_resume net callers.reverse
    { w with nets := w.nets.insert frame.entry net, waiting := others } with
    ⟨-, fixed, hfixed⟩ | ⟨caller, hcaller, hnot, log, hlog⟩
  · rw [← hfix] at hfixed
    rw [hfixed] at hstep
    cases Walk.fixes_of_fixNet hfixed with
    | known hknown =>
      rw [hnone] at hknown
      cases hknown
    | first _ hnets hpending hwaiting => exact .releases hstep hnets hpending hwaiting
  · rw [← hfix] at hlog
    rw [hlog] at hstep
    obtain ⟨hmem, hcallee⟩ := List.mem_filter.1 (List.mem_reverse.1 hcaller)
    have hfinish : Walk.start.finish code = .error ⟨⟨caller.site, .stackOverflow⟩, log⟩ := by
      rw [← Walk.finish_eq_of_mem_walks hw]
      exact Walk.finish_eq_error hstep
    exact .overflows hmem (of_decide_eq_true hcallee) hnot (validate_of_rejection hfinish)

/-! ### Callers that wait -/

/-- **A caller waits only for a routine that has not returned yet.** -/
theorem net_of_mem_waiting {w : Walk} (hw : w ∈ code.walks) :
    ∀ caller ∈ w.waiting, w.nets[caller.callee]? = none := by
  refine walks_induction (motive := fun w =>
    ∀ caller ∈ w.waiting, w.nets[caller.callee]? = none) ?_ ?_ w hw
  · intro caller hcaller
    cases hcaller
  · intro w w' _ _ hstep ih caller hcaller
    cases Walk.transfers_of_step hstep with
    | takes _ hwaiting hnets =>
      rw [hnets]
      exact ih caller (hwaiting ▸ hcaller)
    | leaves _ _ _ _ hwaiting hnets =>
      rw [hnets]
      exact ih caller (hwaiting ▸ hcaller)
    | waits _ _ _ _ hwaiting hnone hnets =>
      rw [hnets]
      rw [hwaiting] at hcaller
      rcases List.mem_cons.1 hcaller with rfl | hcaller
      · exact hnone
      · exact ih caller hcaller
    | @releases entry _ _ hwaiting hnets =>
      rw [hwaiting] at hcaller
      obtain ⟨hmem, hcallee⟩ := List.mem_filter.1 hcaller
      have hne : entry ≠ caller.callee := Ne.symm (of_decide_eq_true hcallee)
      rw [hnets, Std.TreeMap.getElem?_insert]
      simpa [hne] using ih caller hmem

/-- No call is on the list of those that wait twice. -/
theorem waiting_nodup {w : Walk} (hw : w ∈ code.walks) :
    (w.waiting.map Waiting.site).Nodup := by
  obtain ⟨n, hn⟩ := List.mem_iff_getElem?.1 hw
  obtain ⟨sources, hcharged⟩ := exists_charged hn
  exact hcharged.2.1.of_append_right

/-- A caller goes on waiting as long as its routine has not returned. -/
theorem mem_waiting_of_le {n m : Nat} {w w' : Walk} (hw : code.walks[n]? = some w)
    (hw' : code.walks[m]? = some w') (hle : n ≤ m) {caller : Waiting}
    (hcaller : caller ∈ w.waiting) (hnone : w'.nets[caller.callee]? = none) :
    caller ∈ w'.waiting := by
  induction m generalizing w' with
  | zero =>
    obtain rfl : n = 0 := Nat.le_zero.1 hle
    rw [hw] at hw'
    cases hw'
    exact hcaller
  | succ m ih =>
    by_cases hlast : n = m + 1
    · subst hlast
      rw [hw] at hw'
      cases hw'
      exact hcaller
    · obtain ⟨w₁, hw₁, heq⟩ := Walk.getElem?_trace_succ.1 hw'
      have hstep := Walk.step_of_eq heq
      -- A net that is still open was open at every moment before.
      have hopen : w₁.nets[caller.callee]? = none := by
        cases hnet : w₁.nets[caller.callee]? with
        | none => rfl
        | some net =>
          rw [(Walk.grows_of_step hstep).nets _ _ hnet] at hnone
          cases hnone
      rcases Walk.waiting_of_step hstep (ih hw₁ (by omega) hopen) hopen with ⟨-, hstill⟩ |
        ⟨net, hfixed, -⟩
      · exact hstill
      · rw [hnone] at hfixed
        cases hfixed

/-! ### At the end of a run -/

/-- Every call that is executed on the way to acceptance is on a constant. -/
theorem exists_calls {last : Walk} (hfinish : Walk.start.finish code = .ok last) {path : Path}
    {ins : Instruction} (hvisited : code.Visited path) (hdecode : code.decode path.pc = .ok ins)
    (hmove : ins.opcode.move = .jumpsub) : ∃ entry state, code.Calls path ins entry state := by
  obtain ⟨ins', flow, state, hdecode', hexecute, hexecutes, -⟩ :=
    sends_of_visited hfinish hvisited
  rw [hdecode] at hdecode'
  cases hdecode'
  cases hexecutes with
  | jumpsub => exact ⟨_, _, hvisited, hdecode, hexecute⟩
  | straight h => cases hmove ▸ h.isStraight
  | _ hother => cases hmove.symm.trans hother

/-- **Behind a call of a routine that returns, a block is on record,** in the routine of the
caller and as many slots deeper as the routine leaves. -/
theorem Calls.recorded {last : Walk} (hfinish : Walk.start.finish code = .ok last) {path : Path}
    {ins : Instruction} {entry net : Nat} {state : State}
    (hcalls : code.Calls path ins entry state) (hnet : last.nets[entry]? = some net) :
    last.arrivals[ins.next]? = some ⟨path.state.routine, state.stack.depth + net⟩ := by
  obtain ⟨w, hw, hcursor⟩ := hcalls.visited
  obtain ⟨hexecutes, -⟩ := (sound_of_mem_walks hw).executes (.inr hcursor) hcalls.executes
  obtain ⟨-, -, _, _, -, -, hstate⟩ := hexecutes.of_call
  have hroutine : (state.padded net).routine = path.state.routine := by
    rw [hstate]
    rfl
  have harrival := arrival_of_arrives hfinish (hcalls.arrives hfinish hnet)
  rw [Path.arrival, State.depth_padded net hcalls.based, hroutine] at harrival
  exact harrival

/-- No caller is lost or let go twice. -/
structure KeepsCallers (code : Code) : Prop where
  /-- A caller was sent by a call, and waits only for a routine that has not returned yet. -/
  waits : ∀ w ∈ code.walks, ∀ caller ∈ w.waiting,
    code.CallsFrom caller.site caller.callee caller.path ∧ w.nets[caller.callee]? = none
  /-- No call waits twice. -/
  once : ∀ w ∈ code.walks, (w.waiting.map Waiting.site).Nodup
  /-- A caller that waits is not forgotten before its routine returns. -/
  stays : ∀ (n m : Nat) (w w' : Walk), code.walks[n]? = some w →
    code.walks[m]? = some w' → n ≤ m →
    ∀ caller ∈ w.waiting, w'.nets[caller.callee]? = none → caller ∈ w'.waiting
  /-- Only a return from a routine fixes its net. -/
  fixed : ∀ w ∈ code.walks, ∀ w', w.step code = .ok (some w') → ∀ entry net : Nat,
    w.nets[entry]? = none → w'.nets[entry]? = some net → ∃ path ins frame state,
      w.cursor = .inside path ∧ code.decode path.pc = .ok ins ∧
        ins.execute code path.state = .ok (.back net frame) state ∧ frame.entry = entry
  /-- The first return from a routine lets the callers go. -/
  released : ∀ w ∈ code.walks, ∀ path ins net frame state, w.cursor = .inside path →
    code.decode path.pc = .ok ins → ins.execute code path.state = .ok (.back net frame) state →
    w.nets[frame.entry]? = none → code.FirstReturn w frame.entry net
  /-- What it fixes is fixed for good, and nobody waits for the routine from then on. -/
  settled : ∀ (n m : Nat) (w w' : Walk), code.walks[n]? = some w →
    code.walks[m]? = some w' → n ≤ m → ∀ entry net, w.nets[entry]? = some net →
      w'.nets[entry]? = some net ∧ ∀ caller ∈ w'.waiting, caller.callee ≠ entry
  /-- In the end, what follows a call of a routine that returns has been reached, in the routine
  of the caller and as many slots deeper as the routine leaves. -/
  answered : ∀ analysis, code.validate = .ok analysis →
    ∃ last, Walk.start.finish code = .ok last ∧
      ∀ path ins, code.Visited path → code.decode path.pc = .ok ins →
        ins.opcode.move = .jumpsub → ∃ entry state, code.Calls path ins entry state ∧
          ∀ net, last.nets[entry]? = some net →
            last.arrivals[ins.next]? = some ⟨path.state.routine, state.stack.depth + net⟩

/-- **No caller is lost or let go twice,** whatever the program is. -/
theorem keepsCallers (code : Code) : code.KeepsCallers where
  waits w hw caller hcaller :=
    ⟨callsFrom_of_mem_waiting hw hcaller, net_of_mem_waiting hw caller hcaller⟩
  once _ hw := waiting_nodup hw
  stays _ _ _ _ hw hw' hle _ := mem_waiting_of_le hw hw' hle
  fixed w _ w' hstep entry net hnone hnet := by
    rcases Walk.nets_of_step (Walk.step_of_eq hstep) hnet with hknown |
      ⟨path, ins, state, frame, hcursor, hdecode, hexecute, hentry, -⟩
    · rw [hnone] at hknown
      cases hknown
    · exact ⟨path, ins, frame, state, hcursor, hdecode, hexecute, hentry⟩
  released _ hw _ _ _ _ _ := firstReturn hw
  settled n m w w' hw hw' hle entry net hnet := by
    have hstill := (grows_of_le hw hw' hle).nets entry net hnet
    refine ⟨hstill, ?_⟩
    rintro caller hcaller rfl
    rw [net_of_mem_waiting (List.mem_of_getElem? hw') caller hcaller] at hstill
    cases hstill
  answered analysis haccepted := by
    obtain ⟨last, hfinish, -⟩ := finish_of_validate haccepted
    refine ⟨last, hfinish, ?_⟩
    intro path ins hvisited hdecode hmove
    obtain ⟨entry, state, hcalls⟩ := exists_calls hfinish hvisited hdecode hmove
    exact ⟨entry, state, hcalls, fun net hnet => hcalls.recorded hfinish hnet⟩

/-- A routine that on one of its arms calls itself. -/
def callsItself : Array UInt8 :=
  #[0x60, 0x04, 0xE3, 0x00, 0x5B, 0x34, 0x60, 0x0A, 0x57, 0xE4, 0x5B, 0x60, 0x04, 0xE3, 0xE4]

/-- The inner call waits until the other arm has returned. -/
example : (ofBytes callsItself .prague).walks.any
    (fun w => w.waiting.map Waiting.site = [13]) := by
  decide +kernel

end Code

end EvmSafety
