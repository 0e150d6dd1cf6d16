/-
What a run costs.

The walk has no counter that goes down.  It ends because no instruction is executed twice and
every path on the list is charged to one that was executed; with both it takes a number of
steps that is linear in the size of the code.

The survey of the call graph is a recursion that follows calls, and calls may go in circles.
It ends because it turns back at a routine that is active already.  `surveyWithin` is the
same survey for someone who allows only so many surveys inside each other, and gives up
otherwise; it never has to if there is room for one more than the graph has routines.
-/
import EvmSafety.Proofs.Chains
import EvmSafety.Proofs.Queue

namespace EvmSafety

/-! ### The steps of the walk -/

namespace Walk

/-- An arrival takes one step before the next instruction or path has its turn. -/
def owed (w : Walk) : Nat :=
  match w.cursor with
  | .arriving _ => 1
  | .idle | .inside _ => 0

theorem owed_le (w : Walk) : w.owed ≤ 1 := by
  unfold owed
  split <;> omega

/-- An instruction only adds paths to the list. -/
theorem Follows.exists_append {code : Code} {w w' : Walk} {ins : Instruction} {state : State}
    {flow : Flow} (h : Follows code w ins state flow w') :
    ∃ paths, w'.pending = paths ++ w.pending := by
  cases h with
  | advance => unfold goOn; split <;> exact ⟨[], rfl⟩
  | branch => exact ⟨[_], rfl⟩
  | back hfix =>
    cases fixes_of_fixNet hfix with
    | known _ hsame => exact ⟨[], by rw [hsame]; rfl⟩
    | first _ _ hpending => exact ⟨_, hpending⟩
  | _ => exact ⟨[], rfl⟩

end Walk

namespace Code

variable {code : Code}

/-- Every step is paid for by an instruction or by a path of the list, at two steps each. -/
theorem steps_le {w : Walk} : ∀ {n : Nat}, code.walks[n]? = some w →
    n + 2 * w.pending.length + w.owed
      ≤ 2 * (code.executedBefore n).length + 2 * (code.queuedBefore n).length + 2 := by
  intro n
  induction n generalizing w with
  | zero =>
    intro hw
    rw [walks, Walk.getElem?_trace_zero] at hw
    cases hw
    simp [Walk.start, Walk.owed]
  | succ n ih =>
    intro hw
    obtain ⟨before, hbefore, hstep⟩ := Walk.getElem?_trace_succ.1 hw
    have hle := ih hbefore
    rw [executedBefore_succ hbefore, queuedBefore_succ hbefore hw, List.length_append,
      List.length_append]
    cases Walk.step_of_eq hstep with
    | take hcursor hpending =>
      simp only [hpending, List.length_cons, Walk.owed, hcursor] at hle ⊢
      omega
    | opens hcursor =>
      simp only [Walk.owed, hcursor, Walk.tell] at hle ⊢
      omega
    | rejoin hcursor =>
      simp only [Walk.owed, hcursor, Walk.tell, Walk.endPath] at hle ⊢
      omega
    | execute hcursor _ _ hfollow =>
      obtain ⟨paths, hpending⟩ := hfollow.exists_append
      have howed := w.owed_le
      rw [Walk.queued_of_append hpending, Walk.executing_of_inside hcursor, hpending,
        List.length_append, Option.toList_some, List.length_singleton]
      omega

/-- At the last moment everything has been put on the list that ever is. -/
theorem queuedBefore_last {n : Nat} (h : n + 1 = code.walks.length) :
    code.queuedBefore n = code.queued := by
  rw [queuedBefore, queued, List.take_of_length_le]
  rw [List.length_zipWith, List.length_tail]
  omega

/-- What a run of the walk comes to. -/
structure RunsOnce (code : Code) : Prop where
  /-- No instruction is executed twice. -/
  once : code.executed.Nodup
  /-- A path that executes an instruction has just opened a block there, or comes from the one
  instruction before, and then no path ever arrives there otherwise. -/
  comes : ∀ n w path, code.walks[n]? = some w → w.cursor = .inside path →
    ∃ m before, n = m + 1 ∧ code.walks[m]? = some before ∧
      (before.Opens w path ∨ ∃ ins, before.FallsInto code ins path)
  /-- Every path put on the list stems from an instruction that was executed, each from
  another one. -/
  stems : ∃ sources, List.Forall₂ code.Stems code.queued sources ∧ sources.Nodup ∧
    sources ⊆ code.executed
  /-- Of paths that are ever on the list, and of callers that still wait at the end, there is
  at most one more than the code has bytes. -/
  paths : ∀ last, code.walks.getLast? = some last →
    Walk.start.pending.length + code.queued.length + last.waiting.length ≤ 1 + code.size
  /-- The walk ends after so many steps. -/
  steps : code.walks.length ≤ 4 * code.size + 3

theorem runsOnce (code : Code) : code.RunsOnce := by
  obtain ⟨n, hn⟩ : ∃ n, n + 1 = code.walks.length :=
    ⟨code.walks.length - 1, Nat.sub_add_cancel (List.length_pos_of_mem start_mem_walks)⟩
  have hlast : code.walks[n]? = some code.walks[n] := List.getElem?_eq_getElem (by omega)
  obtain ⟨sources, hcharged⟩ := exists_charged hlast
  have hpaths := hcharged.length_le
  have hexecuted := length_executedBefore_le hlast
  have hsteps := steps_le hlast
  rw [queuedBefore_last hn] at hpaths hsteps
  refine ⟨executed_nodup code, fun _ _ _ => opens_or_fallsInto, ⟨sources, ?_, ?_, ?_⟩, ?_, ?_⟩
  · rw [← queuedBefore_last hn]
    exact hcharged.1
  · exact hcharged.2.1.of_append_left
  · intro site hsite
    exact (executedBefore_sublist code n).subset (hcharged.2.2 (List.mem_append_left _ hsite))
  · intro last hgetLast
    rw [List.getLast?_eq_getElem?, ← hn, Nat.add_sub_cancel, hlast] at hgetLast
    cases hgetLast
    have hstart : Walk.start.pending.length = 1 := rfl
    omega
  · omega

end Code

/-! ### The survey of the call graph -/

namespace CallGraph

/-- The survey by someone who allows at most `limit` surveys inside each other, and gives up
where one more is needed. -/
def surveyWithin (graph : CallGraph) :
    Nat → Routine → List Routine → Std.TreeMap Routine Reach → Option Survey
  | 0, _, _, _ => none
  | limit + 1, routine, chain, settled =>
    match settled[routine]? with
    | some reach => some { reach, settled }
    | none =>
      match graph[routine]? with
      | none => some { reach := {}, settled }
      | some usage =>
        match placeIn routine chain with
        | some place => some { reach := { peak := usage.peak }, cut := some place, settled }
        | none => do
          let survey : Survey ← usage.calls.reverse.foldlM (fun (sofar : Survey) call => do
              let callee ←
                graph.surveyWithin limit (.sub call.callee) (routine :: chain) sofar.settled
              return {
                reach := sofar.reach.through call callee.reach
                cut := Option.merge min sofar.cut callee.cut
                settled := callee.settled })
            { reach := { peak := usage.peak }, settled }
          return survey.close routine chain.length

theorem foldlM_eq_some {α β : Type} {f : β → α → Option β} {g : β → α → β} {l : List α}
    (h : ∀ b a, f b a = some (g b a)) : ∀ b, l.foldlM f b = some (l.foldl g b) := by
  induction l with
  | nil => intro b; rfl
  | cons a rest ih => intro b; rw [List.foldlM_cons, h, List.foldl_cons]; exact ih _

/-- **The survey needs no more room than there are routines off the chain, and one for
itself.** -/
theorem surveyWithin_eq_some {graph : CallGraph} {limit : Nat} :
    ∀ {routine : Routine} {chain : List Routine} {settled : Std.TreeMap Routine Reach},
      graph.offChain chain < limit →
      graph.surveyWithin limit routine chain settled
        = some (graph.survey routine chain settled) := by
  induction limit with
  | zero => intro _ _ _ h; exact absurd h (Nat.not_lt_zero _)
  | succ limit ih =>
    intro routine chain settled hroom
    unfold surveyWithin
    cases hsettled : settled[routine]? with
    | some reach => exact congrArg some (survey_of_settled hsettled).symm
    | none =>
      cases husage : graph[routine]? with
      | none => exact congrArg some (survey_of_unknown hsettled husage).symm
      | some usage =>
        cases hplace : placeIn routine chain with
        | some place => exact congrArg some (survey_of_active hsettled husage hplace).symm
        | none =>
          have hfewer := offChain_cons_lt husage hplace
          -- The callees are surveyed on a chain that has one more routine.
          have hcall (sofar : Survey) (call : Call) :
              (do let callee ← graph.surveyWithin limit (.sub call.callee) (routine :: chain)
                    sofar.settled
                  return ({
                    reach := sofar.reach.through call callee.reach
                    cut := Option.merge min sofar.cut callee.cut
                    settled := callee.settled } : Survey) : Option Survey)
                = some (graph.surveyCall (routine :: chain) sofar call) := by
            rw [ih (by omega)]
            rfl
          dsimp only
          rw [foldlM_eq_some hcall, survey_of_new hsettled husage hplace]
          rfl

theorem offChain_nil (graph : CallGraph) : graph.offChain [] = graph.size := by
  rw [offChain, ← Std.TreeMap.length_keys]
  simp

end CallGraph

/-- **A run comes to an end:** the walk executes every instruction once at most, and the
survey of a call graph, whatever it is, nests one deeper than there are routines in it at
most. -/
theorem Code.runsOnce_and_survey_nests (code : Code) :
    code.RunsOnce ∧ ∀ (graph : CallGraph) (routine : Routine)
      (settled : Std.TreeMap Routine Reach),
      graph.surveyWithin (graph.size + 1) routine [] settled
        = some (graph.survey routine [] settled) := by
  refine ⟨code.runsOnce, ?_⟩
  intro graph routine settled
  refine CallGraph.surveyWithin_eq_some ?_
  rw [CallGraph.offChain_nil]
  exact Nat.lt_succ_self _

end EvmSafety
