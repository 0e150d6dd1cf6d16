/-
What is noted of the routines.

The call graph keeps one entry for each routine that did anything.  A note changes the entry
of its routine and no other, and it never takes anything back: peaks only rise, and calls are
only added.
-/
import EvmSafety.CallGraph

namespace EvmSafety

namespace CallGraph

theorem usage_of_getElem? {graph : CallGraph} {routine : Routine} {usage : Usage}
    (h : graph[routine]? = some usage) : graph.usage routine = usage := by
  rw [CallGraph.usage, Std.TreeMap.getD_eq_getD_getElem?, h, Option.getD_some]

theorem usage_of_none {graph : CallGraph} {routine : Routine}
    (h : graph[routine]? = none) : graph.usage routine = {} := by
  rw [CallGraph.usage, Std.TreeMap.getD_eq_getD_getElem?, h, Option.getD_none]

@[simp] theorem usage_empty (routine : Routine) : CallGraph.usage ∅ routine = {} :=
  usage_of_none (by simp)

/-- Everything noted in the first graph is also noted in the second. -/
structure Grows (graph graph' : CallGraph) : Prop where
  peak : ∀ routine, (graph.usage routine).peak ≤ (graph'.usage routine).peak
  calls : ∀ routine, ∀ call ∈ (graph.usage routine).calls, call ∈ (graph'.usage routine).calls

theorem Grows.refl (graph : CallGraph) : graph.Grows graph :=
  ⟨fun _ => Nat.le_refl _, fun _ _ h => h⟩

theorem Grows.trans {graph graph' graph'' : CallGraph} (h : graph.Grows graph')
    (h' : graph'.Grows graph'') : graph.Grows graph'' :=
  ⟨fun routine => Nat.le_trans (h.peak routine) (h'.peak routine),
    fun routine call hcall => h'.calls routine call (h.calls routine call hcall)⟩

theorem usage_insert (graph : CallGraph) (routine other : Routine) (usage : Usage) :
    CallGraph.usage (graph.insert routine usage) other
      = if routine = other then usage else graph.usage other := by
  unfold CallGraph.usage
  rw [Std.TreeMap.getD_insert]
  simp only [Std.LawfulEqCmp.compare_eq_iff_eq]

theorem usage_noteDepth (graph : CallGraph) (routine other : Routine) (depth : Nat) :
    (graph.noteDepth routine depth).usage other
      = if routine = other then
          { graph.usage routine with peak := max (graph.usage routine).peak depth }
        else graph.usage other :=
  usage_insert ..

theorem usage_noteCall (graph : CallGraph) (routine other : Routine) (call : Call) :
    (graph.noteCall routine call).usage other
      = if routine = other then
          { graph.usage routine with calls := call :: (graph.usage routine).calls }
        else graph.usage other :=
  usage_insert ..

theorem grows_noteDepth (graph : CallGraph) (routine : Routine) (depth : Nat) :
    graph.Grows (graph.noteDepth routine depth) := by
  constructor
  · intro other
    rw [usage_noteDepth]
    split
    · next h => subst h; exact Nat.le_max_left _ _
    · exact Nat.le_refl _
  · intro other call hcall
    rw [usage_noteDepth]
    split
    · next h => subst h; exact hcall
    · exact hcall

theorem grows_noteCall (graph : CallGraph) (routine : Routine) (call : Call) :
    graph.Grows (graph.noteCall routine call) := by
  constructor
  · intro other
    rw [usage_noteCall]
    split
    · next h => subst h; exact Nat.le_refl _
    · exact Nat.le_refl _
  · intro other noted hnoted
    rw [usage_noteCall]
    split
    · next h => subst h; exact List.mem_cons_of_mem _ hnoted
    · exact hnoted

theorem le_peak_noteDepth (graph : CallGraph) (routine : Routine) (depth : Nat) :
    depth ≤ ((graph.noteDepth routine depth).usage routine).peak := by
  rw [usage_noteDepth, if_pos rfl]
  exact Nat.le_max_right _ _

theorem mem_calls_noteCall (graph : CallGraph) (routine : Routine) (call : Call) :
    call ∈ ((graph.noteCall routine call).usage routine).calls := by
  rw [usage_noteCall, if_pos rfl]
  exact List.mem_cons_self

end CallGraph

end EvmSafety
