/-
One step of a walk.

`Step` lists what a step can do, one constructor for each case, with everything that the step
checked on the way, and `Follows` does the same for the instruction that a step executes.
Both are derived from `step` once, and the proofs about runs go by their cases and never
unfold it.

The longest of the cases is a return that fixes the net of its routine, since every caller
that waits for the routine then goes on.  `Fixed` says what that changes.
-/
import EvmSafety.Proofs.Effect
import EvmSafety.Proofs.Notes
import EvmSafety.Validation

namespace EvmSafety

namespace Walk

/-! ### What a step can do -/

/-- Note that a path in the routine of `state` calls the routine at `entry`. -/
def noteCall (w : Walk) (site entry : Nat) (state : State) : Walk :=
  { w with graph := w.graph.noteCall state.routine ⟨site, state.stack.depth, entry⟩ }

/-- How the walk goes on after an instruction: where the path was sent, and the walk then. -/
inductive Follows (code : Code) (w : Walk) (ins : Instruction) (state : State) :
    Flow → Walk → Prop
  | halt : Follows code w ins state .halt w.endPath
  | advance : Follows code w ins state .advance ((w.noteDepth state).goOn code ins.next state)
  | jump {dest : Nat} : Follows code w ins state (.jump dest) (w.goTo dest state)
  | branch {dest : Nat} :
      Follows code w ins state (.branch dest) ((w.later ins.next state).goTo dest state)
  | enter {entry : Nat} (hnew : w.arrivals[entry]? = none) :
      Follows code w ins state (.call entry)
        ((w.noteCall ins.offset entry state).goTo entry
          ⟨state.stack.raiseBase, ⟨ins.next, state.stack.base, entry⟩ :: state.frames⟩)
  | skip {entry net : Nat} {arrival : Arrival} {padded : State}
      (hseen : w.arrivals[entry]? = some arrival) (howner : arrival.routine = .sub entry)
      (hnet : w.nets[entry]? = some net)
      (hpad : State.onStack (Stack.pad net) state = .ok () padded) :
      Follows code w ins state (.call entry)
        (((w.noteCall ins.offset entry state).noteDepth padded).goTo ins.next padded)
  | wait {entry : Nat} {arrival : Arrival} (hseen : w.arrivals[entry]? = some arrival)
      (howner : arrival.routine = .sub entry) (hnet : w.nets[entry]? = none) :
      Follows code w ins state (.call entry)
        ((w.noteCall ins.offset entry state).wait ins.offset entry ins.next state)
  | back {net : Nat} {frame : Frame} {fixed : Walk}
      (hfix : w.fixNet ins.offset frame.entry net = .ok fixed) :
      Follows code w ins state (.back net frame) (fixed.goTo frame.returnTo state)

/-- One step of the walk, case by case. -/
inductive Step (code : Code) (w : Walk) : Walk → Prop
  | take {path : Path} {rest : List Path} (hcursor : w.cursor = .idle)
      (hpending : w.pending = path :: rest) :
      Step code w { w with pending := rest, cursor := .arriving path }
  | opens {path : Path} (hcursor : w.cursor = .arriving path)
      (hnew : w.arrivals[path.pc]? = none) :
      Step code w { w.tell (.opened path.pc path.arrival) with
        arrivals := w.arrivals.insert path.pc path.arrival
        cursor := .inside path }
  | rejoin {path : Path} (hcursor : w.cursor = .arriving path)
      (hseen : w.arrivals[path.pc]? = some path.arrival) :
      Step code w (w.tell (.rejoined path.pc)).endPath
  | execute {path : Path} {ins : Instruction} {flow : Flow} {state : State} {w' : Walk}
      (hcursor : w.cursor = .inside path) (hdecode : code.decode path.pc = .ok ins)
      (hexecute : ins.execute code path.state = .ok flow state)
      (hfollow : Follows code w ins state flow w') : Step code w w'

theorem follows_of_call {code : Code} {w w' : Walk} {ins : Instruction} {entry : Nat}
    {state : State} (h : w.call ins.offset entry ins.next state = .ok w') :
    Follows code w ins state (.call entry) w' := by
  unfold call at h
  dsimp only at h
  split at h
  · next hnew =>
    unfold enter at h
    split at h
    · cases h
    · next hcall =>
      injection h with h
      subst h
      rw [State.call_apply] at hcall
      split at hcall
      · cases hcall
        exact .enter hnew
      · cases hcall
  · next arrival hseen =>
    split at h
    · cases h
    · next howner =>
      rw [ne_eq, Decidable.not_not] at howner
      split at h
      · next net hnet =>
        unfold skipCall at h
        split at h
        · cases h
        · next hpad =>
          injection h with h
          subst h
          exact .skip hseen howner hnet hpad
      · next hnet =>
        injection h with h
        subst h
        exact .wait hseen howner hnet

theorem follows_of_follow {code : Code} {w w' : Walk} {ins : Instruction} {state : State}
    {flow : Flow} (h : w.follow code ins state flow = .ok w') :
    Follows code w ins state flow w' := by
  cases flow with
  | halt => injection h with h; subst h; exact .halt
  | advance => injection h with h; subst h; exact .advance
  | jump dest => injection h with h; subst h; exact .jump
  | branch dest => injection h with h; subst h; exact .branch
  | call entry => exact follows_of_call h
  | back net frame =>
    unfold follow back at h
    dsimp only at h
    split at h
    · cases hfix : w.fixNet ins.offset frame.entry net with
      | error _ => simp [hfix, bind, Except.bind] at h
      | ok fixed =>
        simp only [hfix, bind, Except.bind, pure, Except.pure] at h
        injection h with h
        subst h
        exact .back hfix
    · cases h

/-- **Every step is one of the listed ones.** -/
theorem step_of_eq {code : Code} {w w' : Walk} (h : w.step code = .ok (some w')) :
    Step code w w' := by
  unfold step at h
  split at h
  · next path hcursor =>
    unfold execute at h
    cases hdecode : code.decode path.pc with
    | error _ => simp [hdecode, reject, Functor.map, Except.map] at h
    | ok ins =>
      cases hexecute : ins.execute code path.state with
      | error _ _ => simp [hdecode, hexecute, reject, Functor.map, Except.map] at h
      | ok flow state =>
        cases hfollow : w.follow code ins state flow with
        | error _ => simp [hdecode, hexecute, hfollow, Functor.map, Except.map] at h
        | ok w₁ =>
          simp only [hdecode, hexecute, hfollow, Functor.map, Except.map, Except.ok.injEq,
            Option.some.injEq] at h
          subst h
          exact .execute hcursor hdecode hexecute (follows_of_follow hfollow)
  · next path hcursor =>
    unfold arrive at h
    cases hseen : w.arrivals[path.pc]? with
    | none =>
      simp only [hseen, Functor.map, Except.map, Except.ok.injEq, Option.some.injEq] at h
      subst h
      exact .opens hcursor hseen
    | some seen =>
      by_cases hroutine : seen.routine = path.arrival.routine
      · by_cases hdepth : seen.depth = path.arrival.depth
        · have hsame : seen = path.arrival := by
            cases seen
            cases harrival : path.arrival
            simp_all
          simp only [hseen, hsame, ne_eq, not_true_eq_false, if_false, Functor.map, Except.map,
            Except.ok.injEq, Option.some.injEq] at h
          subst h
          exact .rejoin hcursor (hseen.trans (congrArg some hsame))
        · simp [hseen, hroutine, hdepth, reject, Functor.map, Except.map] at h
      · simp [hseen, hroutine, reject, Functor.map, Except.map] at h
  · next hcursor =>
    split at h
    · cases h
    · next path rest hpending =>
      injection h with h
      injection h with h
      subst h
      exact .take hcursor hpending

/-- While an instruction is about to be executed, that is what the step does. -/
theorem Step.of_inside {code : Code} {w w' : Walk} (h : Step code w w') {path : Path}
    (hcursor : w.cursor = .inside path) :
    ∃ ins flow state, code.decode path.pc = .ok ins ∧
      ins.execute code path.state = .ok flow state ∧ Follows code w ins state flow w' := by
  cases h with
  | take hother | opens hother | rejoin hother =>
    rw [hcursor] at hother
    cases hother
  | execute hinside hdecode hexecute hfollow =>
    rw [hcursor] at hinside
    cases hinside
    exact ⟨_, _, _, hdecode, hexecute, hfollow⟩

/-- A path that arrives is on record after the step, as it arrives. -/
theorem Step.of_arriving {code : Code} {w w' : Walk} (h : Step code w w') {path : Path}
    (hcursor : w.cursor = .arriving path) : w'.arrivals[path.pc]? = some path.arrival := by
  cases h with
  | take hother | execute hother =>
    rw [hcursor] at hother
    cases hother
  | opens harriving =>
    rw [hcursor] at harriving
    cases harriving
    simp
  | rejoin harriving hseen =>
    rw [hcursor] at harriving
    cases harriving
    exact hseen

/-! ### Fixing what a routine leaves -/

/-- A waiting caller that goes on: what it goes on with is its state and the slots that the
routine leaves. -/
def Resumes (net : Nat) (caller : Waiting) (path : Path) : Prop :=
  path.pc = caller.path.pc ∧
    State.onStack (Stack.pad net) caller.path.state = .ok () path.state

/-- What letting callers go on changes. -/
structure Resumed (net : Nat) (callers : List Waiting) (w w' : Walk) : Prop where
  arrivals : w'.arrivals = w.arrivals
  nets : w'.nets = w.nets
  waiting : w'.waiting = w.waiting
  pending : ∀ path ∈ w.pending, path ∈ w'.pending
  released : ∀ caller ∈ callers, ∃ path ∈ w'.pending, Resumes net caller path
  origin : ∀ path ∈ w'.pending, path ∈ w.pending ∨ ∃ caller ∈ callers, Resumes net caller path
  graph : w.graph.Grows w'.graph

theorem resumed_single {net : Nat} {caller : Waiting} {w w' : Walk}
    (h : w.resume net caller = .ok w') : Resumed net [caller] w w' := by
  unfold resume at h
  split at h
  · cases h
  · next state hpad =>
    injection h with h
    subst h
    have hresumes : Resumes net caller ⟨caller.path.pc, state⟩ := ⟨rfl, hpad⟩
    refine ⟨rfl, rfl, rfl, fun path hpath => List.mem_cons_of_mem _ hpath, ?_, ?_, ?_⟩
    · intro other hother
      obtain rfl := List.mem_singleton.1 hother
      exact ⟨_, List.mem_cons_self, hresumes⟩
    · intro path hpath
      rcases List.mem_cons.1 hpath with rfl | hpath
      · exact .inr ⟨caller, List.mem_singleton_self caller, hresumes⟩
      · exact .inl hpath
    · exact CallGraph.grows_noteDepth _ _ _

theorem resumed_foldlM {net : Nat} :
    ∀ {callers : List Waiting} {w w' : Walk},
      callers.foldlM (resume net) w = .ok w' → Resumed net callers w w' := by
  intro callers
  induction callers with
  | nil =>
    intro w w' h
    injection h with h
    subst h
    exact ⟨rfl, rfl, rfl, fun _ h => h, by simp, fun _ h => .inl h, .refl _⟩
  | cons caller rest ih =>
    intro w w' h
    rw [List.foldlM_cons] at h
    cases hresume : w.resume net caller with
    | error _ => simp [hresume, bind, Except.bind] at h
    | ok w₁ =>
      simp only [hresume, bind, Except.bind] at h
      have hfirst := resumed_single hresume
      have hrest := ih h
      refine ⟨hrest.arrivals.trans hfirst.arrivals, hrest.nets.trans hfirst.nets,
        hrest.waiting.trans hfirst.waiting,
        fun path hpath => hrest.pending path (hfirst.pending path hpath), ?_, ?_,
        hfirst.graph.trans hrest.graph⟩
      · intro other hother
        rcases List.mem_cons.1 hother with rfl | hother
        · obtain ⟨path, hpath, hresumes⟩ :=
            hfirst.released other (List.mem_singleton_self other)
          exact ⟨path, hrest.pending path hpath, hresumes⟩
        · exact hrest.released other hother
      · intro path hpath
        rcases hrest.origin path hpath with hpath | ⟨other, hother, hresumes⟩
        · rcases hfirst.origin path hpath with hpath | ⟨other, hother, hresumes⟩
          · exact .inl hpath
          · obtain rfl := List.mem_singleton.1 hother
            exact .inr ⟨other, List.mem_cons_self, hresumes⟩
        · exact .inr ⟨other, List.mem_cons_of_mem _ hother, hresumes⟩

/-- What fixing the net of a routine changes, if it succeeds. -/
structure Fixed (entry net : Nat) (w w' : Walk) : Prop where
  arrivals : w'.arrivals = w.arrivals
  fixes : w'.nets[entry]? = some net
  nets : ∀ other known : Nat, w.nets[other]? = some known → w'.nets[other]? = some known
  others : ∀ other : Nat, other ≠ entry → w'.nets[other]? = w.nets[other]?
  pending : ∀ path ∈ w.pending, path ∈ w'.pending
  kept : ∀ caller ∈ w.waiting, caller.callee ≠ entry → caller ∈ w'.waiting
  released : w.nets[entry]? = none → ∀ caller ∈ w.waiting, caller.callee = entry →
    ∃ path ∈ w'.pending, Resumes net caller path
  origin : ∀ path ∈ w'.pending,
    path ∈ w.pending ∨ ∃ caller ∈ w.waiting, Resumes net caller path
  waiting : ∀ caller ∈ w'.waiting, caller ∈ w.waiting
  graph : w.graph.Grows w'.graph

theorem fixed_of_fixNet {site entry net : Nat} {w w' : Walk}
    (h : w.fixNet site entry net = .ok w') : Fixed entry net w w' := by
  unfold fixNet at h
  split at h
  · next known hknown =>
    split at h
    · next heq =>
      injection h with h
      subst h
      subst heq
      refine ⟨rfl, hknown, fun _ _ h => h, fun _ _ => rfl, fun _ h => h, fun _ h _ => h, ?_,
        fun _ h => .inl h, fun _ h => h, .refl _⟩
      intro hnone
      rw [hknown] at hnone
      cases hnone
    · cases h
  · next hnone =>
    -- The callers that are let go leave the list before the first of them is looked at.
    have hresumed := resumed_foldlM h
    refine ⟨hresumed.arrivals, ?_, ?_, ?_, hresumed.pending, ?_, ?_, ?_, ?_, hresumed.graph⟩
    · rw [hresumed.nets]
      simp
    · intro other known hother
      have hne : entry ≠ other := by
        rintro rfl
        rw [hnone] at hother
        cases hother
      rw [hresumed.nets]
      simpa [Std.TreeMap.getElem?_insert, hne] using hother
    · intro other hne
      rw [hresumed.nets]
      simp [Std.TreeMap.getElem?_insert, Ne.symm hne]
    · intro caller hcaller hcallee
      rw [hresumed.waiting]
      simp [hcaller, hcallee]
    · intro _ caller hcaller hcallee
      have hmem : caller ∈ (w.waiting.filter fun c => c.callee = entry).reverse := by
        simp [hcaller, hcallee]
      exact hresumed.released caller hmem
    · intro path hpath
      rcases hresumed.origin path hpath with hpath | ⟨caller, hcaller, hresumes⟩
      · exact .inl hpath
      · rw [List.mem_reverse, List.mem_filter] at hcaller
        exact .inr ⟨caller, hcaller.1, hresumes⟩
    · intro caller hcaller
      rw [hresumed.waiting] at hcaller
      exact (List.mem_filter.1 hcaller).1

end Walk

end EvmSafety
