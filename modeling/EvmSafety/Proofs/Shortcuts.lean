/-
Where the walk takes a shorter way.

Three things are told of the walk in a simpler way than a program that keeps counts in 64 bits
does them.  The slots that an instruction puts, and those that a routine leaves, are added to
the stack of a path with a sum that always fits.  And callers are let go by the first return from
their routine alone, while the program looks for some at every return.

Neither makes a difference on the way from the first byte.  No stack that a path has is above
the limit, no routine leaves more slots than that, and no instruction puts more than a handful,
so no sum comes near 64 bits; and nobody waits for a routine that has returned.
-/
import EvmSafety.Proofs.Capacity
import EvmSafety.Proofs.Waiting

namespace EvmSafety

theorem Opcode.pushes_le_of_mem_table : ∀ op ∈ table, op.pushes ≤ 17 := by
  decide +kernel

namespace Stack

variable {s : Stack}

theorem Proper.pushUnknowns_eq_pad (h : s.Proper) {n : Nat} (hn : n ≤ stackCapacity) :
    pushUnknowns n s = pad n s := by
  refine Stack.pushUnknowns_eq_pad ?_
  have hlimit : stackCapacity + stackCapacity < Decimal.countLimit := by decide
  have hsum : s.size + n ≤ stackCapacity + stackCapacity := Nat.add_le_add h.within hn
  exact Nat.lt_of_le_of_lt hsum hlimit

theorem Proper.apply_eq_replaceTop (h : s.Proper) (pops : Nat) {pushes : Nat}
    (hpushes : pushes ≤ stackCapacity) : apply pops pushes s = replaceTop pops pushes s := by
  refine Stack.apply_eq_replaceTop h.based fun _ => ?_
  have hlimit : stackCapacity + stackCapacity < Decimal.countLimit := by decide
  have hsum : s.size - pops + pushes ≤ stackCapacity + stackCapacity :=
    Nat.add_le_add (Nat.le_trans (Nat.sub_le _ _) h.within) hpushes
  exact Nat.lt_of_le_of_lt hsum hlimit

end Stack

theorem State.onStack_pushUnknowns_eq_pad {st : State} (h : st.Proper) {n : Nat}
    (hn : n ≤ stackCapacity) :
    onStack (Stack.pushUnknowns n) st = onStack (Stack.pad n) st := by
  rw [onStack, onStack, Stack.Proper.pushUnknowns_eq_pad h hn]

namespace Code

variable {code : Code}

/-- What a path hands over at a return was on its stack. -/
theorem net_le_of_execute {w : Walk} (hw : w ∈ code.walks) {path : Path} {ins : Instruction}
    {net : Nat} {frame : Frame} {state : State} (hcursor : w.cursor = .inside path)
    (hexecute : ins.execute code path.state = .ok (.back net frame) state) :
    net ≤ stackCapacity := by
  have hproper := proper_of_mem_walks hw path (.inr hcursor)
  obtain ⟨hexecutes, -⟩ := (sound_of_mem_walks hw).executes (.inr hcursor) hexecute
  cases hexecutes with
  | returnsub =>
    rw [Stack.length_own hproper.based]
    exact Nat.le_trans (Stack.depth_le hproper.based) hproper.within

/-- **No routine leaves more slots than there may be.** -/
theorem net_le_of_mem_walks {w : Walk} (hw : w ∈ code.walks) :
    ∀ entry net : Nat, w.nets[entry]? = some net → net ≤ stackCapacity := by
  refine walks_induction (motive := fun w =>
    ∀ entry net : Nat, w.nets[entry]? = some net → net ≤ stackCapacity) ?_ ?_ w hw
  · intro entry net hnet
    simp [Walk.start] at hnet
  · intro w w' hw _ hstep ih entry net hnet
    rcases Walk.nets_of_step hstep hnet with hknown |
      ⟨path, ins, state, frame, hcursor, -, hexecute, -, -⟩
    · exact ih entry net hknown
    · exact net_le_of_execute hw hcursor hexecute

/-- Nobody is let go by a return that is not the first. -/
theorem release_of_known {w : Walk} (hw : w ∈ code.walks) {entry net : Nat}
    (hnet : w.nets[entry]? = some net) : w.release entry net = .ok w := by
  have hother : ∀ caller ∈ w.waiting, caller.callee ≠ entry := by
    rintro caller hcaller rfl
    rw [net_of_mem_waiting hw caller hcaller] at hnet
    cases hnet
  have hnobody : w.waiting.filter (fun caller => caller.callee = entry) = [] := by
    refine List.filter_eq_nil_iff.2 fun caller hcaller => ?_
    simpa using hother caller hcaller
  have hall : w.waiting.filter (fun caller => caller.callee ≠ entry) = w.waiting := by
    refine List.filter_eq_self.2 fun caller hcaller => ?_
    simpa using hother caller hcaller
  unfold Walk.release
  rw [hnobody, hall]
  rfl

/-- The walk comes to the same on its shorter way. -/
structure StaysExact (code : Code) : Prop where
  /-- An instruction that replaces slots. -/
  replaces : ∀ w ∈ code.walks, ∀ (path : Path) (ins : Instruction),
    w.cursor = .inside path → code.decode path.pc = .ok ins →
    Stack.apply ins.opcode.pops ins.opcode.pushes path.state.stack
      = Stack.replaceTop ins.opcode.pops ins.opcode.pushes path.state.stack
  /-- A call of a routine that is known to leave `net` slots. -/
  skips : ∀ w ∈ code.walks, ∀ (path : Path) (ins : Instruction) (entry net : Nat)
    (state : State), w.cursor = .inside path →
    ins.execute code path.state = .ok (.call entry) state → w.nets[entry]? = some net →
    State.onStack (Stack.pushUnknowns net) state = State.onStack (Stack.pad net) state
  /-- A return that lets a caller go. -/
  resumes : ∀ w ∈ code.walks, ∀ (path : Path) (ins : Instruction) (net : Nat) (frame : Frame)
    (state : State), w.cursor = .inside path →
    ins.execute code path.state = .ok (.back net frame) state → ∀ caller ∈ w.waiting,
    State.onStack (Stack.pushUnknowns net) caller.path.state
      = State.onStack (Stack.pad net) caller.path.state
  /-- A return from a routine that is known to leave `net` slots. -/
  repeats : ∀ w ∈ code.walks, ∀ entry net : Nat, w.nets[entry]? = some net →
    w.release entry net = .ok w

/-- **The shorter way is no other way,** whatever the program is. -/
theorem staysExact (code : Code) : code.StaysExact where
  replaces w hw path ins hcursor hdecode := by
    have hproper := proper_of_mem_walks hw path (.inr hcursor)
    have hpushes := Opcode.pushes_le_of_mem_table _ (mem_table_of_decode hdecode)
    exact Stack.Proper.apply_eq_replaceTop hproper _ (Nat.le_trans hpushes (by decide))
  skips w hw path ins entry net state hcursor hexecute hnet := by
    have hproper := proper_of_mem_walks hw path (.inr hcursor)
    have hcalling : state.Proper := Instruction.keeps_execute.ok hproper hexecute
    exact State.onStack_pushUnknowns_eq_pad hcalling (net_le_of_mem_walks hw entry net hnet)
  resumes w hw path ins net frame state hcursor hexecute caller hcaller := by
    have hproper := proper_of_mem_walks hw caller.path (.inl (.inr (.inl ⟨caller, hcaller, rfl⟩)))
    exact State.onStack_pushUnknowns_eq_pad hproper (net_le_of_execute hw hcursor hexecute)
  repeats w hw entry net hnet := release_of_known hw hnet

end Code

end EvmSafety
