/-
What is put on the list, and by whom.

Two things put a path on the list: a conditional jump leaves the arm that is not taken, and
the first return from a routine lets the callers go on that wait for it.  A caller in turn
waits because a call was executed.  So every path that is ever put there, and every caller
that waits, can be charged to one instruction that was executed; and as no instruction is
executed twice, there are never more of them than bytes of code.

`Transfers` lists what a step does to the list, the callers that wait and the fixed nets,
with the lists written out.  The account is kept by it: a caller that goes on takes its charge
along, and only an executed instruction adds one.
-/
import EvmSafety.Proofs.Calls
import EvmSafety.Proofs.Moments

namespace EvmSafety

/-- The path on which a waiting caller goes on, if the routine leaves `net` slots. -/
def Waiting.onward (net : Nat) (caller : Waiting) : Path :=
  ⟨caller.path.pc, caller.path.state.padded net⟩

namespace Walk

/-! ### Callers that are let go -/

/-- Letting callers go puts each of them on the list once, the last of them first. -/
theorem pending_of_foldlM {net : Nat} :
    ∀ {callers : List Waiting} {w w' : Walk}, callers.foldlM (resume net) w = .ok w' →
      w'.pending = (callers.map (Waiting.onward net)).reverse ++ w.pending := by
  intro callers
  induction callers with
  | nil =>
    intro w w' h
    cases h
    rfl
  | cons caller rest ih =>
    intro w w' h
    rw [List.foldlM_cons] at h
    cases hresume : w.resume net caller with
    | error _ => simp [hresume, bind, Except.bind] at h
    | ok w₁ =>
      simp only [hresume, bind, Except.bind] at h
      have hfirst : w₁.pending = caller.onward net :: w.pending := by
        unfold resume at hresume
        split at hresume
        · cases hresume
        · next state hpad =>
          cases hresume
          rw [State.eq_padded_of_pad hpad]
          rfl
      rw [ih h, hfirst, List.map_cons, List.reverse_cons, List.append_assoc]
      rfl

/-- What a return does about the net of its routine: the first one fixes it and lets the
callers go, a later one finds it fixed. -/
inductive Fixes (w : Walk) (entry net : Nat) (w' : Walk) : Prop
  | known (hnet : w.nets[entry]? = some net) (hsame : w' = w)
  | first (hnone : w.nets[entry]? = none) (hnets : w'.nets = w.nets.insert entry net)
      (hpending : w'.pending =
        (w.waiting.filter fun caller => caller.callee = entry).map (Waiting.onward net)
          ++ w.pending)
      (hwaiting : w'.waiting = w.waiting.filter fun caller => caller.callee ≠ entry)

theorem fixes_of_fixNet {site entry net : Nat} {w w' : Walk}
    (h : w.fixNet site entry net = .ok w') : Fixes w entry net w' := by
  unfold fixNet at h
  split at h
  · next known hknown =>
    split at h
    · next heq =>
      cases h
      subst heq
      exact .known hknown rfl
    · cases h
  · next hnone =>
    have hresumed := resumed_foldlM h
    have hpending := pending_of_foldlM h
    rw [List.map_reverse, List.reverse_reverse] at hpending
    exact .first hnone hresumed.nets hpending hresumed.waiting

/-! ### What a step does to the list -/

/-- What a step does to the list, to the callers that wait and to the nets that are fixed. -/
inductive Transfers (code : Code) (w w' : Walk) : Prop
  /-- It takes at most the next path from the list. -/
  | takes (hpending : w'.pending = w.pending ∨ ∃ path, w.pending = path :: w'.pending)
      (hwaiting : w'.waiting = w.waiting) (hnets : w'.nets = w.nets)
  /-- A conditional jump leaves one of its arms for later. -/
  | leaves {path : Path} {ins : Instruction} {dest : Nat} {state : State}
      (hcursor : w.cursor = .inside path) (hdecode : code.decode path.pc = .ok ins)
      (hexecute : ins.execute code path.state = .ok (.branch dest) state)
      (hpending : w'.pending = ⟨ins.next, state⟩ :: w.pending)
      (hwaiting : w'.waiting = w.waiting) (hnets : w'.nets = w.nets)
  /-- A call waits for a routine whose net is not fixed. -/
  | waits {path : Path} {ins : Instruction} {entry : Nat} {state : State}
      (hcursor : w.cursor = .inside path) (hdecode : code.decode path.pc = .ok ins)
      (hexecute : ins.execute code path.state = .ok (.call entry) state)
      (hpending : w'.pending = w.pending)
      (hwaiting : w'.waiting = ⟨entry, path.pc, ⟨ins.next, state⟩⟩ :: w.waiting)
      (hnone : w.nets[entry]? = none) (hnets : w'.nets = w.nets)
  /-- The first return from a routine lets its callers go. -/
  | releases {entry net : Nat}
      (hpending : w'.pending =
        (w.waiting.filter fun caller => caller.callee = entry).map (Waiting.onward net)
          ++ w.pending)
      (hwaiting : w'.waiting = w.waiting.filter fun caller => caller.callee ≠ entry)
      (hnets : w'.nets = w.nets.insert entry net)

theorem transfers_of_step {code : Code} {w w' : Walk} (h : Step code w w') :
    Transfers code w w' := by
  cases h with
  | take _ hpending => exact .takes (.inr ⟨_, hpending⟩) rfl rfl
  | opens => exact .takes (.inl rfl) rfl rfl
  | rejoin => exact .takes (.inl rfl) rfl rfl
  | execute hcursor hdecode hexecute hfollow =>
    have hoffset := Code.offset_of_decode hdecode
    cases hfollow with
    | halt => exact .takes (.inl rfl) rfl rfl
    | advance =>
      unfold goOn
      split
      · exact .takes (.inl rfl) rfl rfl
      · exact .takes (.inl rfl) rfl rfl
    | jump => exact .takes (.inl rfl) rfl rfl
    | branch => exact .leaves hcursor hdecode hexecute rfl rfl rfl
    | enter => exact .takes (.inl rfl) rfl rfl
    | skip => exact .takes (.inl rfl) rfl rfl
    | wait _ _ hnone => exact .waits hcursor hdecode hexecute rfl (hoffset ▸ rfl) hnone rfl
    | back hfix =>
      cases fixes_of_fixNet hfix with
      | known _ hsame =>
        subst hsame
        exact .takes (.inl rfl) rfl rfl
      | first _ hnets hpending hwaiting => exact .releases hpending hwaiting hnets

/-- The paths that a step puts on the list. -/
def queued (w w' : Walk) : List Path :=
  w'.pending.take (w'.pending.length - w.pending.length)

theorem queued_of_append {w w' : Walk} {paths : List Path}
    (h : w'.pending = paths ++ w.pending) : w.queued w' = paths := by
  rw [queued, h, List.length_append, Nat.add_sub_cancel, List.take_left]

theorem queued_of_take {w w' : Walk}
    (h : w'.pending = w.pending ∨ ∃ path, w.pending = path :: w'.pending) :
    w.queued w' = [] := by
  rcases h with h | ⟨path, h⟩
  · exact queued_of_append h
  · rw [queued, h, List.length_cons, Nat.sub_eq_zero_of_le (Nat.le_succ _), List.take_zero]

end Walk

/-! ### The account -/

namespace Code

variable {code : Code}

/-- The call at this offset is the one that the caller waits for. -/
def CallsFrom (code : Code) (site entry : Nat) (path : Path) : Prop :=
  ∃ before ins state, code.Calls before ins entry state ∧ before.pc = site ∧
    path = ⟨ins.next, state⟩

/-- **A caller that waits was sent by a call,** and its state is the one after the call has
taken its destination. -/
theorem callsFrom_of_mem_waiting {w : Walk} (hw : w ∈ code.walks) {caller : Waiting}
    (hcaller : caller ∈ w.waiting) : code.CallsFrom caller.site caller.callee caller.path := by
  revert caller
  refine walks_induction (motive := fun w => ∀ {caller : Waiting}, caller ∈ w.waiting →
    code.CallsFrom caller.site caller.callee caller.path) ?_ ?_ w hw
  · intro caller hcaller
    cases hcaller
  · intro w w' hw _ hstep ih caller hcaller
    cases Walk.transfers_of_step hstep with
    | takes _ hwaiting => exact ih (hwaiting ▸ hcaller)
    | leaves _ _ _ _ hwaiting => exact ih (hwaiting ▸ hcaller)
    | waits hcursor hdecode hexecute _ hwaiting =>
      rw [hwaiting] at hcaller
      rcases List.mem_cons.1 hcaller with rfl | hcaller
      · exact ⟨_, _, _, ⟨⟨w, hw, hcursor⟩, hdecode, hexecute⟩, rfl, rfl⟩
      · exact ih hcaller
    | releases _ hwaiting =>
      rw [hwaiting] at hcaller
      exact ih (List.mem_filter.1 hcaller).1

/-- The path was put on the list on account of the instruction executed at `site`. -/
inductive Stems (code : Code) : Path → Nat → Prop
  /-- A conditional jump left it for later. -/
  | left {before : Path} {ins : Instruction} {dest : Nat} {state : State}
      (hvisited : code.Visited before) (hdecode : code.decode before.pc = .ok ins)
      (hexecute : ins.execute code before.state = .ok (.branch dest) state) :
      Stems code ⟨ins.next, state⟩ before.pc
  /-- A call waited for a routine, and went on with the slots that the routine leaves. -/
  | released {site entry net : Nat} {path : Path} (hcalls : code.CallsFrom site entry path) :
      Stems code ⟨path.pc, path.state.padded net⟩ site

/-- The paths that the walk puts on the list, in the order in which it does. -/
def queued (code : Code) : List Path :=
  (List.zipWith Walk.queued code.walks code.walks.tail).flatten

/-- Those of the paths that are put there before a moment. -/
def queuedBefore (code : Code) (n : Nat) : List Path :=
  ((List.zipWith Walk.queued code.walks code.walks.tail).take n).flatten

theorem queuedBefore_succ {n : Nat} {w w' : Walk} (hw : code.walks[n]? = some w)
    (hw' : code.walks[n + 1]? = some w') :
    code.queuedBefore (n + 1) = code.queuedBefore n ++ w.queued w' := by
  have htail : code.walks.tail[n]? = some w' := by rw [List.getElem?_tail, hw']
  rw [queuedBefore, List.take_add_one, List.getElem?_zipWith, hw, htail, List.flatten_append]
  simp [queuedBefore]

/-- The paths put on the list so far, and the callers that wait, are charged to instructions
that were executed, each to another one. -/
def Charged (code : Code) (n : Nat) (w : Walk) (sources : List Nat) : Prop :=
  List.Forall₂ code.Stems (code.queuedBefore n) sources ∧
    (sources ++ w.waiting.map Waiting.site).Nodup ∧
    sources ++ w.waiting.map Waiting.site ⊆ code.executedBefore n

theorem charged_zero : code.Charged 0 .start [] := by
  refine ⟨?_, List.nodup_nil, fun _ h => by cases h⟩
  rw [queuedBefore, List.take_zero]
  exact .nil

theorem Charged.succ {n : Nat} {w w' : Walk} {sources : List Nat}
    (h : code.Charged n w sources) (hw : code.walks[n]? = some w)
    (hw' : code.walks[n + 1]? = some w') (hstep : Walk.Step code w w') :
    ∃ sources', code.Charged (n + 1) w' sources' := by
  obtain ⟨hstems, hnodup, hsubset⟩ := h
  have hmem := List.mem_of_getElem? hw
  have hqueued := queuedBefore_succ hw hw'
  have hlater : sources ++ w.waiting.map Waiting.site ⊆ code.executedBefore (n + 1) := by
    rw [executedBefore_succ hw]
    exact List.subset_append_of_subset_left _ hsubset
  -- The instruction that is executed now is not charged for anything yet.
  have hfresh {path : Path} (hcursor : w.cursor = .inside path) :
      path.pc ∉ sources ++ w.waiting.map Waiting.site ∧
        path.pc ∈ code.executedBefore (n + 1) := by
    have hexecuting := Walk.executing_of_inside hcursor
    refine ⟨fun hin => not_mem_executedBefore hw hexecuting (hsubset hin), ?_⟩
    rw [executedBefore_succ hw, hexecuting]
    exact List.mem_append_right _ (List.mem_singleton_self _)
  cases Walk.transfers_of_step hstep with
  | takes hpending hwaiting =>
    refine ⟨sources, ?_, ?_, ?_⟩
    · rw [hqueued, Walk.queued_of_take hpending, List.append_nil]
      exact hstems
    · rw [hwaiting]
      exact hnodup
    · rw [hwaiting]
      exact hlater
  | @leaves path ins dest state hcursor hdecode hexecute hpending hwaiting =>
    obtain ⟨hnew, hnow⟩ := hfresh hcursor
    have hperm : (sources ++ [path.pc] ++ w.waiting.map Waiting.site).Perm
        (path.pc :: (sources ++ w.waiting.map Waiting.site)) := by
      rw [List.append_assoc]
      exact List.perm_middle
    refine ⟨sources ++ [path.pc], ?_, ?_, ?_⟩
    · have happend : w'.pending = [⟨ins.next, state⟩] ++ w.pending := hpending
      rw [hqueued, Walk.queued_of_append happend]
      exact List.rel_append hstems (.cons (.left ⟨w, hmem, hcursor⟩ hdecode hexecute) .nil)
    · rw [hwaiting, hperm.nodup_iff]
      exact List.nodup_cons.2 ⟨hnew, hnodup⟩
    · rw [hwaiting]
      exact List.Subset.trans hperm.subset (List.cons_subset.2 ⟨hnow, hlater⟩)
  | @waits path ins entry state hcursor _ _ hpending hwaiting =>
    obtain ⟨hnew, hnow⟩ := hfresh hcursor
    have hperm : (sources ++ path.pc :: w.waiting.map Waiting.site).Perm
        (path.pc :: (sources ++ w.waiting.map Waiting.site)) := List.perm_middle
    refine ⟨sources, ?_, ?_, ?_⟩
    · rw [hqueued, Walk.queued_of_take (.inl hpending), List.append_nil]
      exact hstems
    · rw [hwaiting, List.map_cons, hperm.nodup_iff]
      exact List.nodup_cons.2 ⟨hnew, hnodup⟩
    · rw [hwaiting, List.map_cons]
      exact List.Subset.trans hperm.subset (List.cons_subset.2 ⟨hnow, hlater⟩)
  | @releases entry net hpending hwaiting =>
    let released := w.waiting.filter fun caller => caller.callee = entry
    let others := w.waiting.filter fun caller => caller.callee ≠ entry
    -- The callers that go on take their charges along.
    have hperm : (sources ++ released.map Waiting.site ++ others.map Waiting.site).Perm
        (sources ++ w.waiting.map Waiting.site) := by
      rw [List.append_assoc, ← List.map_append]
      refine List.Perm.append_left sources (List.Perm.map Waiting.site ?_)
      simpa [released, others] using
        List.filter_append_perm (fun caller : Waiting => decide (caller.callee = entry)) w.waiting
    refine ⟨sources ++ released.map Waiting.site, ?_, ?_, ?_⟩
    · rw [hqueued, Walk.queued_of_append hpending]
      refine List.rel_append hstems ?_
      rw [List.forall₂_map_left_iff, List.forall₂_map_right_iff, List.forall₂_same]
      intro caller hcaller
      exact .released (callsFrom_of_mem_waiting hmem (List.mem_filter.1 hcaller).1)
    · rw [hwaiting, hperm.nodup_iff]
      exact hnodup
    · rw [hwaiting]
      exact List.Subset.trans hperm.subset hlater

/-- **Every path on the list and every caller that waits is charged to an instruction of its
own.** -/
theorem exists_charged {w : Walk} : ∀ {n : Nat}, code.walks[n]? = some w →
    ∃ sources, code.Charged n w sources := by
  intro n
  induction n generalizing w with
  | zero =>
    intro hw
    rw [walks, Walk.getElem?_trace_zero] at hw
    cases hw
    exact ⟨[], charged_zero⟩
  | succ n ih =>
    intro hw'
    obtain ⟨w, hw, hstep⟩ := Walk.getElem?_trace_succ.1 hw'
    obtain ⟨sources, hcharged⟩ := ih hw
    exact hcharged.succ hw hw' (Walk.step_of_eq hstep)

/-- There are as many of them as instructions that were executed, at most. -/
theorem Charged.length_le {n : Nat} {w : Walk} {sources : List Nat}
    (h : code.Charged n w sources) :
    (code.queuedBefore n).length + w.waiting.length ≤ (code.executedBefore n).length := by
  obtain ⟨hstems, hnodup, hsubset⟩ := h
  have hle := (hnodup.subperm hsubset).length_le
  rw [List.length_append, List.length_map, ← hstems.length_eq] at hle
  exact hle

end Code

end EvmSafety
