/-
The walk comes to an end.

Nothing in a walk counts down by itself: branches put paths on the list, returns put waiting
callers there, and a path may go backwards.  What does shrink is the potential

    4 · (offsets not yet reached) + 2 · (paths left) + 2 · (callers that wait) + cursor

where a cursor counts one while it comes to a block entry, four inside a block, and nothing
when it is idle or past the end of the code.  Entering a block for the first time costs an
offset, which pays for the four; inside a block a conditional jump spends the four on one
path and one arrival, a call that waits spends it on one caller.  Only an instruction that
neither jumps nor ends the path keeps the potential, and it moves the path closer to the end
of the code.

The measure puts the two together.  It falls at every step of every walk, reachable or not,
so no invariant of the walk is needed for running it.
-/
import EvmSafety.Walk

namespace EvmSafety

namespace Cursor

/-- What a cursor counts in the potential. -/
def weight (code : Code) : Cursor → Nat
  | idle => 0
  | arriving _ => 1
  | inside path => if path.pc < code.size then 4 else 0

/-- How far a path inside a block is from the end of the code. -/
def ahead (code : Code) : Cursor → Nat
  | inside path => code.size - path.pc
  | _ => 0

theorem ahead_le (code : Code) (cursor : Cursor) : cursor.ahead code ≤ code.size := by
  cases cursor <;> simp [ahead]

end Cursor

/-! ### Offsets without a record -/

theorem countP_insert_le {α : Type} (records : Std.TreeMap Nat α) (offset : Nat) (record : α)
    (offsets : List Nat) :
    offsets.countP (fun o => !(records.insert offset record).contains o)
      ≤ offsets.countP fun o => !records.contains o :=
  List.countP_mono_left fun a _ => by simp [Std.TreeMap.contains_insert]

/-- Recording an offset that has no record yet leaves fewer without one. -/
theorem countP_insert_lt {α : Type} {records : Std.TreeMap Nat α} {offset : Nat} (record : α)
    (hnew : records[offset]? = none) :
    ∀ {offsets : List Nat}, offsets.Nodup → offset ∈ offsets →
      offsets.countP (fun o => !(records.insert offset record).contains o)
        < offsets.countP fun o => !records.contains o := by
  have hout : records.contains offset = false := by
    rw [Std.TreeMap.contains_eq_isSome_getElem?, hnew]
    rfl
  intro offsets
  induction offsets with
  | nil => simp
  | cons o offsets ih =>
    intro hnodup hmem
    rw [List.countP_cons, List.countP_cons]
    have hle := countP_insert_le records offset record offsets
    obtain ⟨hnot, hnodup⟩ := List.nodup_cons.1 hnodup
    by_cases ho : o = offset
    · subst ho
      simp only [Std.TreeMap.contains_insert_self, hout, Bool.not_true, Bool.not_false,
        Bool.false_eq_true, if_false, if_true]
      omega
    · have hlt := ih hnodup ((List.mem_cons.1 hmem).resolve_left (Ne.symm ho))
      have hsame : (records.insert offset record).contains o = records.contains o := by
        simp [Std.TreeMap.contains_insert, Ne.symm ho]
      rw [hsame]
      omega

namespace Walk

/-- How many offsets of the code were never reached as block entries. -/
def unreached (code : Code) (w : Walk) : Nat :=
  (List.range code.size).countP fun offset => !w.arrivals.contains offset

/-- How many paths and callers wait to be followed. -/
def backlog (w : Walk) : Nat :=
  w.pending.length + w.waiting.length

/-- What no step raises. -/
def potential (code : Code) (w : Walk) : Nat :=
  4 * w.unreached code + 2 * w.backlog + w.cursor.weight code

/-- What every step lowers. -/
def measure (code : Code) (w : Walk) : Nat :=
  w.potential code * (code.size + 1) + w.cursor.ahead code

/-- A smaller potential makes a smaller measure, whatever lies ahead. -/
theorem measure_lt_of_potential_lt {code : Code} {w w' : Walk}
    (h : w'.potential code < w.potential code) : w'.measure code < w.measure code := by
  have hahead := Cursor.ahead_le code w'.cursor
  have hmul := Nat.mul_le_mul_right (code.size + 1) (Nat.succ_le_of_lt h)
  rw [Nat.succ_mul] at hmul
  unfold measure
  omega

/-! ### Reaching a block entry -/

theorem potential_arrive_lt {code : Code} {w w' : Walk} {path : Path}
    (hcursor : w.cursor = .arriving path) (h : w.arrive path = .ok w') :
    w'.potential code < w.potential code := by
  unfold arrive at h
  split at h
  · next hnew =>
    injection h with h
    subst h
    by_cases hpc : path.pc < code.size
    · have hlt := countP_insert_lt path.arrival hnew List.nodup_range
        (List.mem_range.2 hpc)
      simp only [potential, unreached, backlog, tell, hcursor, Cursor.weight, hpc, if_true]
      omega
    · have hle := countP_insert_le w.arrivals path.pc path.arrival (List.range code.size)
      simp only [potential, unreached, backlog, tell, hcursor, Cursor.weight, hpc, if_false]
      omega
  · split at h
    · simp [reject] at h
    · split at h
      · simp [reject] at h
      · injection h with h
        subst h
        simp [potential, unreached, backlog, tell, endPath, hcursor, Cursor.weight]

/-! ### Calls and returns -/

/-- After a call at most one more caller waits, and the path ends; or it arrives somewhere. -/
theorem potential_call_le (code : Code) {w w' : Walk} {site entry returnTo : Nat}
    {state : State} (h : w.call site entry returnTo state = .ok w') :
    w'.potential code ≤ 4 * w.unreached code + 2 * w.backlog + 2 := by
  unfold call at h
  dsimp only at h
  split at h
  · unfold enter at h
    split at h
    · simp [reject] at h
    · injection h with h
      subst h
      simp [potential, unreached, backlog, goTo, Cursor.weight]
  · split at h
    · simp [reject] at h
    · split at h
      · unfold skipCall at h
        split at h
        · simp [reject] at h
        · injection h with h
          subst h
          simp [potential, unreached, backlog, noteDepth, goTo, Cursor.weight]
      · injection h with h
        subst h
        simp [potential, unreached, backlog, tell, wait, Cursor.weight]
        omega

theorem work_resume (code : Code) {net : Nat} {w w' : Walk} {caller : Waiting}
    (h : w.resume net caller = .ok w') :
    w'.unreached code = w.unreached code ∧ w'.backlog = w.backlog + 1 := by
  unfold resume at h
  split at h
  · simp [reject] at h
  · injection h with h
    subst h
    refine ⟨rfl, ?_⟩
    simp [backlog, later, noteDepth, tell]
    omega

theorem work_foldlM_resume (code : Code) {net : Nat} {callers : List Waiting} :
    ∀ {w w' : Walk}, callers.foldlM (resume net) w = .ok w' →
      w'.unreached code = w.unreached code ∧ w'.backlog = w.backlog + callers.length := by
  induction callers with
  | nil =>
    intro w w' h
    injection h with h
    subst h
    exact ⟨rfl, rfl⟩
  | cons caller callers ih =>
    intro w w' h
    rw [List.foldlM_cons] at h
    cases hresume : w.resume net caller with
    | error _ => simp [hresume, bind, Except.bind] at h
    | ok w₁ =>
      simp only [hresume, bind, Except.bind] at h
      obtain ⟨hunreached, hbacklog⟩ := work_resume code hresume
      obtain ⟨hunreached', hbacklog'⟩ := ih h
      refine ⟨hunreached'.trans hunreached, ?_⟩
      rw [hbacklog', hbacklog, List.length_cons]
      omega

private theorem length_filter_split {α : Type} (p : α → Prop) [DecidablePred p]
    (l : List α) :
    (l.filter fun a => ¬ p a).length + (l.filter fun a => p a).length = l.length := by
  induction l with
  | nil => rfl
  | cons a l ih =>
    by_cases h : p a <;> simp [h] at ih ⊢ <;> omega

/-- Callers that go on were waiting before, so there is as much to do as there was. -/
theorem work_fixNet (code : Code) {w w' : Walk} {site entry net : Nat}
    (h : w.fixNet site entry net = .ok w') :
    w'.unreached code = w.unreached code ∧ w'.backlog = w.backlog := by
  unfold fixNet at h
  split at h
  · split at h
    · injection h with h
      subst h
      exact ⟨rfl, rfl⟩
    · simp [reject] at h
  · obtain ⟨hunreached, hbacklog⟩ := work_foldlM_resume code h
    refine ⟨hunreached, ?_⟩
    rw [hbacklog, List.length_reverse]
    have := length_filter_split (fun caller : Waiting => caller.callee = entry) w.waiting
    simp only [backlog]
    simp only [ne_eq] at this ⊢
    omega

/-! ### One step -/

/-- Executing an instruction lowers the measure. -/
theorem measure_execute_lt {code : Code} {w w' : Walk} {path : Path}
    (hcursor : w.cursor = .inside path) (h : w.execute code path = .ok w') :
    w'.measure code < w.measure code := by
  unfold execute at h
  split at h
  · simp [reject] at h
  · next ins hdecode =>
    obtain ⟨hoffset, hpc⟩ := Code.offset_lt_of_decode hdecode
    have hbefore : w.potential code = 4 * w.unreached code + 2 * w.backlog + 4 := by
      simp [potential, hcursor, Cursor.weight, hpc]
    split at h
    · simp [reject] at h
    · next flow state _ =>
      cases flow with
      | halt =>
        injection h with h
        subst h
        refine measure_lt_of_potential_lt ?_
        rw [hbefore]
        simp [potential, unreached, backlog, endPath, Cursor.weight]
      | jump dest =>
        injection h with h
        subst h
        refine measure_lt_of_potential_lt ?_
        rw [hbefore]
        simp [potential, unreached, backlog, goTo, Cursor.weight]
      | branch dest =>
        injection h with h
        subst h
        refine measure_lt_of_potential_lt ?_
        rw [hbefore]
        simp [potential, unreached, backlog, goTo, later, Cursor.weight]
        omega
      | call entry =>
        refine measure_lt_of_potential_lt ?_
        have := potential_call_le code h
        omega
      | back net frame =>
        refine measure_lt_of_potential_lt ?_
        rw [hbefore]
        simp only [follow, back] at h
        split at h
        · cases hfix : w.fixNet ins.offset frame.entry net with
          | error _ => simp [hfix, bind, Except.bind] at h
          | ok w₁ =>
            simp only [hfix, bind, Except.bind, pure, Except.pure] at h
            injection h with h
            subst h
            obtain ⟨hunreached, hbacklog⟩ := work_fixNet code hfix
            have hunreached' : (w₁.goTo frame.returnTo state).unreached code
                = w.unreached code := hunreached
            have hbacklog' : (w₁.goTo frame.returnTo state).backlog = w.backlog := hbacklog
            simp only [potential, hunreached', hbacklog']
            simp [goTo, Cursor.weight]
        · simp [reject] at h
      | advance =>
        injection h with h
        subst h
        unfold goOn
        split
        · refine measure_lt_of_potential_lt ?_
          rw [hbefore]
          simp [potential, unreached, backlog, noteDepth, goTo, Cursor.weight]
        · by_cases hnext : ins.next < code.size
          · have hlt : path.pc < ins.next := by
              unfold Instruction.next
              omega
            simp [measure, potential, unreached, backlog, noteDepth, hcursor, Cursor.weight,
              Cursor.ahead, hpc, hnext]
            omega
          · refine measure_lt_of_potential_lt ?_
            rw [hbefore]
            simp [potential, unreached, backlog, noteDepth, Cursor.weight, hnext]

/-- Every step lowers the measure. -/
theorem measure_step_lt {code : Code} {w w' : Walk} (h : w.step code = .ok (some w')) :
    w'.measure code < w.measure code := by
  unfold step at h
  split at h
  · next path hcursor =>
    cases hexecute : w.execute code path with
    | error _ => simp [hexecute, Functor.map, Except.map] at h
    | ok w₁ =>
      simp only [hexecute, Functor.map, Except.map, Except.ok.injEq, Option.some.injEq] at h
      subst h
      exact measure_execute_lt hcursor hexecute
  · next path hcursor =>
    cases harrive : w.arrive path with
    | error _ => simp [harrive, Functor.map, Except.map] at h
    | ok w₁ =>
      simp only [harrive, Functor.map, Except.map, Except.ok.injEq, Option.some.injEq] at h
      subst h
      exact measure_lt_of_potential_lt (potential_arrive_lt hcursor harrive)
  · next hcursor =>
    split at h
    · simp at h
    · next path pending hpending =>
      injection h with h
      injection h with h
      subst h
      refine measure_lt_of_potential_lt ?_
      simp [potential, unreached, backlog, hcursor, hpending, Cursor.weight]
      omega

end Walk

end EvmSafety
