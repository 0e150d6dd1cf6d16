/-
The walks of a code.

`walks` lists the states that the walk of a code goes through, in order; it is what every
statement about some moment of the run is about.  A path `Arrives` if the walk at some moment
brings it to a block entry, and is `Visited` if the walk at some moment executes an
instruction with it.

Two ways of reasoning about a run are packaged here: what holds at the start and is kept by
every step holds of every walk of the list, and, if the run ends without a violation, what
holds of one of them and is kept by every step holds of the last.  With them the file shows
what a run that ends never forgets: a path that is left for later does arrive, and a block
entry, once recorded, stays recorded and belongs to a path that was visited there.
-/
import EvmSafety.Proofs.Run

namespace EvmSafety

namespace Walk

/-- The walk and every state it goes through from there, in order. -/
def trace (code : Code) (w : Walk) : List Walk :=
  match _h : w.step code with
  | .ok (some w') => w :: w'.trace code
  | .ok none | .error _ => [w]
termination_by w.measure code
decreasing_by exact measure_step_lt _h

theorem trace_of_step {code : Code} {w w' : Walk} (h : w.step code = .ok (some w')) :
    w.trace code = w :: w'.trace code := by
  rw [trace]
  split
  · next w₁ h₁ =>
    rw [h] at h₁
    injection h₁ with h₁
    injection h₁ with h₁
    rw [h₁]
  · next h₁ => rw [h] at h₁; cases h₁
  · next h₁ => rw [h] at h₁; cases h₁

theorem trace_of_end {code : Code} {w : Walk} (h : ∀ w', w.step code ≠ .ok (some w')) :
    w.trace code = [w] := by
  rw [trace]
  split
  · next w₁ h₁ => exact absurd h₁ (h w₁)
  · rfl
  · rfl

@[simp] theorem getElem?_trace_zero (code : Code) (w : Walk) :
    (w.trace code)[0]? = some w := by
  by_cases h : ∃ w', w.step code = .ok (some w')
  · obtain ⟨w', h⟩ := h
    rw [trace_of_step h]
    rfl
  · rw [trace_of_end fun w' hw' => h ⟨w', hw'⟩]
    rfl

/-- Behind each walk of the list stands the one that its step leads to. -/
theorem getElem?_trace_succ {code : Code} {w' : Walk} :
    ∀ {n : Nat} {w : Walk}, (w.trace code)[n + 1]? = some w' ↔
      ∃ w₁, (w.trace code)[n]? = some w₁ ∧ w₁.step code = .ok (some w') := by
  intro n
  induction n with
  | zero =>
    intro w
    constructor
    · intro h
      by_cases hstep : ∃ w₁, w.step code = .ok (some w₁)
      · obtain ⟨w₁, hstep⟩ := hstep
        rw [trace_of_step hstep, List.getElem?_cons_succ, getElem?_trace_zero] at h
        injection h with h
        exact ⟨w, getElem?_trace_zero .., h ▸ hstep⟩
      · rw [trace_of_end fun w₁ hw₁ => hstep ⟨w₁, hw₁⟩] at h
        simp at h
    · rintro ⟨w₁, hw₁, hstep⟩
      rw [getElem?_trace_zero] at hw₁
      injection hw₁ with hw₁
      subst hw₁
      rw [trace_of_step hstep, List.getElem?_cons_succ, getElem?_trace_zero]
  | succ n ih =>
    intro w
    by_cases hstep : ∃ w₁, w.step code = .ok (some w₁)
    · obtain ⟨w₁, hstep⟩ := hstep
      rw [trace_of_step hstep, List.getElem?_cons_succ, List.getElem?_cons_succ]
      exact ih
    · rw [trace_of_end fun w₁ hw₁ => hstep ⟨w₁, hw₁⟩]
      simp

end Walk

namespace Code

/-- Every state that the walk of the code goes through, in order. -/
def walks (code : Code) : List Walk :=
  Walk.start.trace code

/-- The walk at some moment brings the path to a block entry. -/
def Arrives (code : Code) (path : Path) : Prop :=
  ∃ w ∈ code.walks, w.cursor = .arriving path

/-- The walk at some moment executes an instruction with the path. -/
def Visited (code : Code) (path : Path) : Prop :=
  ∃ w ∈ code.walks, w.cursor = .inside path

variable {code : Code}

theorem start_mem_walks : Walk.start ∈ code.walks :=
  List.mem_of_getElem? (Walk.getElem?_trace_zero code .start)

theorem mem_walks_of_step {w w' : Walk} (hw : w ∈ code.walks)
    (hstep : w.step code = .ok (some w')) : w' ∈ code.walks := by
  obtain ⟨n, hn⟩ := List.mem_iff_getElem?.1 hw
  exact List.mem_of_getElem? (Walk.getElem?_trace_succ.2 ⟨w, hn, hstep⟩)

theorem walks_induction_eq {motive : Walk → Prop} (start : motive .start)
    (step : ∀ w w', w ∈ code.walks → w.step code = .ok (some w') → motive w → motive w') :
    ∀ w ∈ code.walks, motive w := by
  intro w hw
  obtain ⟨n, hn⟩ := List.mem_iff_getElem?.1 hw
  clear hw
  induction n generalizing w with
  | zero =>
    rw [walks, Walk.getElem?_trace_zero] at hn
    injection hn with hn
    exact hn ▸ start
  | succ n ih =>
    obtain ⟨w₁, hw₁, hstep⟩ := Walk.getElem?_trace_succ.1 hn
    exact step w₁ w (List.mem_of_getElem? hw₁) hstep (ih w₁ hw₁)

/-- What holds at the start and is kept by every step holds throughout. -/
theorem walks_induction {motive : Walk → Prop} (start : motive .start)
    (step : ∀ w w', w ∈ code.walks → w' ∈ code.walks → Walk.Step code w w' →
      motive w → motive w') :
    ∀ w ∈ code.walks, motive w := by
  refine walks_induction_eq start ?_
  intro w w' hw hstep hmotive
  exact step w w' hw (mem_walks_of_step hw hstep) (Walk.step_of_eq hstep) hmotive

end Code

/-! ### Runs that end -/

namespace Walk

variable {code : Code} {last : Walk}

theorem finish_eq_error {w : Walk} {rejection : Rejection}
    (h : w.step code = .error rejection) : w.finish code = .error rejection := by
  rw [finish]
  split
  · next h₁ => rw [h] at h₁; injection h₁ with h₁; rw [h₁]
  · next h₁ => rw [h] at h₁; cases h₁
  · next h₁ => rw [h] at h₁; cases h₁

theorem finish_eq_self {w : Walk} (h : w.step code = .ok none) : w.finish code = .ok w := by
  rw [finish]
  split
  · next h₁ => rw [h] at h₁; cases h₁
  · rfl
  · next h₁ => rw [h] at h₁; cases h₁

theorem finish_eq_finish {w w' : Walk} (h : w.step code = .ok (some w')) :
    w.finish code = w'.finish code := by
  rw [finish]
  split
  · next h₁ => rw [h] at h₁; cases h₁
  · next h₁ => rw [h] at h₁; cases h₁
  · next w₁ h₁ =>
    rw [h] at h₁
    injection h₁ with h₁
    injection h₁ with h₁
    rw [h₁]

/-- **Two codes with the same steps have the same run.**  The steps only have to be the same for
walks whose run over the first code comes to an end of this kind. -/
theorem finish_congr {code' : Code} {P : Except Rejection Walk → Prop}
    (hsteps : ∀ w : Walk, P (w.finish code) → w.step code' = w.step code) :
    ∀ {w : Walk}, P (w.finish code) → w.finish code' = w.finish code := by
  intro w
  induction w using finish.induct code with
  | case1 w rejection hstep =>
    intro hend
    rw [finish_eq_error hstep, finish_eq_error ((hsteps w hend).trans hstep)]
  | case2 w hstep =>
    intro hend
    rw [finish_eq_self hstep, finish_eq_self ((hsteps w hend).trans hstep)]
  | case3 w w' hstep ih =>
    intro hend
    have hstep' := (hsteps w hend).trans hstep
    rw [finish_eq_finish hstep] at hend ⊢
    rw [finish_eq_finish hstep']
    exact ih hend

/-- A run that ends has ended, or its next step is without a violation and it ends from
there. -/
theorem finish_cases {w : Walk} (h : w.finish code = .ok last) :
    (w = last ∧ w.cursor = .idle ∧ w.pending = []) ∨
      ∃ w', w.step code = .ok (some w') ∧ w'.finish code = .ok last := by
  rw [finish] at h
  split at h
  · cases h
  · next hstep =>
    injection h with h
    refine .inl ⟨h, ?_⟩
    unfold step at hstep
    split at hstep
    · next path _ => cases hexecute : w.execute code path <;>
        simp [hexecute, Functor.map, Except.map] at hstep
    · next path _ => cases harrive : w.arrive path <;>
        simp [harrive, Functor.map, Except.map] at hstep
    · next hcursor =>
      split at hstep
      · next hpending => exact ⟨hcursor, hpending⟩
      · cases hstep
  · next w' hstep => exact .inr ⟨w', hstep, h⟩

theorem finish_of_step {w w' : Walk} (h : w.finish code = .ok last)
    (hstep : w.step code = .ok (some w')) : w'.finish code = .ok last := by
  rw [finish] at h
  split at h
  · next h₁ => rw [hstep] at h₁; cases h₁
  · next h₁ => rw [hstep] at h₁; cases h₁
  · next w₁ h₁ =>
    rw [hstep] at h₁
    injection h₁ with h₁
    injection h₁ with h₁
    exact h₁ ▸ h

/-- What holds where a run ends, and before every step that leads to where it holds, holds
of every walk from which the run ends there. -/
theorem finish_induction_back {motive : Walk → Prop}
    (idle : last.cursor = .idle → last.pending = [] → motive last)
    (step : ∀ w w', w.step code = .ok (some w') → motive w' → motive w) :
    ∀ {w : Walk}, w.finish code = .ok last → motive w := by
  intro w
  induction w using finish.induct code with
  | case1 w rejection hstep =>
    intro hfinish
    rcases finish_cases hfinish with ⟨rfl, hcursor, hpending⟩ | ⟨w', hstep', -⟩
    · exact idle hcursor hpending
    · rw [hstep] at hstep'
      cases hstep'
  | case2 w hstep =>
    intro hfinish
    rcases finish_cases hfinish with ⟨rfl, hcursor, hpending⟩ | ⟨w', hstep', -⟩
    · exact idle hcursor hpending
    · rw [hstep] at hstep'
      cases hstep'
  | case3 w w' hstep ih =>
    intro hfinish
    exact step w w' hstep (ih (finish_of_step hfinish hstep))

/-- What holds of one walk of a run that ends, and is kept by every step, holds at the end. -/
theorem finish_induction {motive : Walk → Prop}
    (step : ∀ w w', w ∈ code.walks → w' ∈ code.walks → Step code w w' → motive w → motive w')
    {w : Walk} (hw : w ∈ code.walks) (hfinish : w.finish code = .ok last) (h : motive w) :
    motive last := by
  revert hw h
  refine finish_induction_back (motive := fun w => w ∈ code.walks → motive w → motive last)
    ?_ ?_ hfinish
  · intro _ _ _ hlast
    exact hlast
  · intro w w' hstep ih hw hmotive
    have hw' := Code.mem_walks_of_step hw hstep
    exact ih hw' (step w w' hw hw' (step_of_eq hstep) hmotive)

theorem last_of_finish {w : Walk} (hw : w ∈ code.walks) (h : w.finish code = .ok last) :
    last ∈ code.walks ∧ last.cursor = .idle ∧ last.pending = [] := by
  revert hw
  refine finish_induction_back (motive := fun w => w ∈ code.walks →
    last ∈ code.walks ∧ last.cursor = .idle ∧ last.pending = []) ?_ ?_ h
  · intro hcursor hpending hlast
    exact ⟨hlast, hcursor, hpending⟩
  · intro w w' hstep ih hw
    exact ih (Code.mem_walks_of_step hw hstep)

/-- However a run ends, it ends so from every walk it goes through. -/
theorem finish_eq_of_mem_walks {w : Walk} (hw : w ∈ code.walks) :
    w.finish code = start.finish code := by
  refine Code.walks_induction_eq (motive := fun w => w.finish code = start.finish code) rfl ?_
    w hw
  intro w w' _ hstep h
  rw [← finish_eq_finish hstep, h]

theorem finish_of_mem_walks (hfinish : start.finish code = .ok last) {w : Walk}
    (hw : w ∈ code.walks) : w.finish code = .ok last :=
  (finish_eq_of_mem_walks hw).trans hfinish

/-- While a path is followed the run has not ended. -/
theorem step_of_finish {w : Walk} (h : w.finish code = .ok last) (hcursor : w.cursor ≠ .idle) :
    ∃ w', w.step code = .ok (some w') := by
  rcases finish_cases h with ⟨-, hidle, -⟩ | ⟨w', hstep, -⟩
  · exact absurd hidle hcursor
  · exact ⟨w', hstep⟩

/-! ### What a step never takes back -/

/-- Everything recorded or fixed in the first walk is also so in the second. -/
structure Grows (w w' : Walk) : Prop where
  arrivals : ∀ (pc : Nat) (arrival : Arrival),
    w.arrivals[pc]? = some arrival → w'.arrivals[pc]? = some arrival
  nets : ∀ entry net : Nat, w.nets[entry]? = some net → w'.nets[entry]? = some net
  graph : w.graph.Grows w'.graph

theorem Grows.refl (w : Walk) : w.Grows w :=
  ⟨fun _ _ h => h, fun _ _ h => h, .refl _⟩

theorem Grows.trans {w w' w'' : Walk} (h : w.Grows w') (h' : w'.Grows w'') : w.Grows w'' :=
  ⟨fun pc a hpc => h'.arrivals pc a (h.arrivals pc a hpc),
    fun entry net hnet => h'.nets entry net (h.nets entry net hnet), h.graph.trans h'.graph⟩

/-- Only opening a block changes the records. -/
theorem Follows.arrivals_eq {w w' : Walk} {ins : Instruction} {state : State} {flow : Flow}
    (h : Follows code w ins state flow w') : w'.arrivals = w.arrivals := by
  cases h with
  | advance => unfold goOn; split <;> rfl
  | back hfix => exact (fixed_of_fixNet hfix).arrivals
  | _ => rfl

/-- What is on record after a step was so before, or is what the path shows that arrives. -/
theorem recorded_of_step {w w' : Walk} (h : Step code w w') {pc : Nat} {arrival : Arrival}
    (hseen : w'.arrivals[pc]? = some arrival) :
    w.arrivals[pc]? = some arrival ∨
      ∃ path, w.cursor = .arriving path ∧ w'.cursor = .inside path ∧ path.pc = pc ∧
        path.arrival = arrival := by
  cases h with
  | take => exact .inl hseen
  | @opens path hcursor =>
    have hseen : (w.arrivals.insert path.pc path.arrival)[pc]? = some arrival := hseen
    rw [Std.TreeMap.getElem?_insert] at hseen
    by_cases hpc : path.pc = pc
    · simp only [Nat.compare_eq_eq, hpc, if_true, Option.some.injEq] at hseen
      exact .inr ⟨path, hcursor, rfl, hpc, hseen⟩
    · simp only [Nat.compare_eq_eq, hpc, if_false] at hseen
      exact .inl hseen
  | rejoin => exact .inl hseen
  | execute _ _ _ hfollow => exact .inl (hfollow.arrivals_eq ▸ hseen)

theorem Follows.grows {w w' : Walk} {ins : Instruction} {state : State} {flow : Flow}
    (h : Follows code w ins state flow w') : w.Grows w' := by
  have harrivals : ∀ (pc : Nat) (arrival : Arrival),
      w.arrivals[pc]? = some arrival → w'.arrivals[pc]? = some arrival := by
    intro pc arrival hpc
    rw [h.arrivals_eq]
    exact hpc
  cases h with
  | halt => exact ⟨harrivals, fun _ _ h => h, .refl _⟩
  | advance =>
    unfold goOn
    split
    · exact ⟨fun _ _ h => h, fun _ _ h => h, CallGraph.grows_noteDepth ..⟩
    · exact ⟨fun _ _ h => h, fun _ _ h => h, CallGraph.grows_noteDepth ..⟩
  | jump => exact ⟨harrivals, fun _ _ h => h, .refl _⟩
  | branch => exact ⟨harrivals, fun _ _ h => h, .refl _⟩
  | enter => exact ⟨harrivals, fun _ _ h => h, CallGraph.grows_noteCall ..⟩
  | skip =>
    exact ⟨harrivals, fun _ _ h => h,
      (CallGraph.grows_noteCall ..).trans (CallGraph.grows_noteDepth ..)⟩
  | wait => exact ⟨harrivals, fun _ _ h => h, CallGraph.grows_noteCall ..⟩
  | back hfix =>
    have hfixed := fixed_of_fixNet hfix
    exact ⟨harrivals, hfixed.nets, hfixed.graph⟩

theorem grows_of_step {w w' : Walk} (h : Step code w w') : w.Grows w' := by
  cases h with
  | take => exact ⟨fun _ _ h => h, fun _ _ h => h, .refl _⟩
  | @opens path _ hnew =>
    refine ⟨?_, fun _ _ h => h, .refl _⟩
    intro pc arrival hpc
    have hne : path.pc ≠ pc := by
      rintro rfl
      rw [hnew] at hpc
      cases hpc
    simpa [Std.TreeMap.getElem?_insert, hne] using hpc
  | rejoin => exact ⟨fun _ _ h => h, fun _ _ h => h, .refl _⟩
  | execute _ _ _ hfollow => exact hfollow.grows

/-- What is left for later is still so after a step, or its turn has come. -/
theorem Follows.pending {w w' : Walk} {ins : Instruction} {state : State} {flow : Flow}
    (h : Follows code w ins state flow w') : ∀ path ∈ w.pending, path ∈ w'.pending := by
  intro path hpath
  cases h with
  | advance => unfold goOn; split <;> exact hpath
  | branch => exact List.mem_cons_of_mem _ hpath
  | back hfix => exact (fixed_of_fixNet hfix).pending path hpath
  | _ => exact hpath

theorem pending_of_step {w w' : Walk} (h : Step code w w') {path : Path}
    (hpath : path ∈ w.pending) : path ∈ w'.pending ∨ w'.cursor = .arriving path := by
  cases h with
  | take hcursor hpending =>
    rw [hpending] at hpath
    rcases List.mem_cons.1 hpath with rfl | hpath
    · exact .inr rfl
    · exact .inl hpath
  | opens => exact .inl hpath
  | rejoin => exact .inl hpath
  | execute _ _ _ hfollow => exact .inl (hfollow.pending path hpath)

end Walk

/-! ### What a run that ends never forgets -/

namespace Code

variable {code : Code} {last : Walk}

theorem grows_last (hfinish : Walk.start.finish code = .ok last) {w : Walk}
    (hw : w ∈ code.walks) : w.Grows last :=
  Walk.finish_induction (motive := fun w' => w.Grows w')
    (fun _ _ _ _ hstep h => h.trans (Walk.grows_of_step hstep)) hw
    (Walk.finish_of_mem_walks hfinish hw) (.refl w)

/-- **A path that is left for later does arrive.** -/
theorem arrives_of_pending (hfinish : Walk.start.finish code = .ok last) {w : Walk}
    (hw : w ∈ code.walks) {path : Path} (hpath : path ∈ w.pending) : code.Arrives path := by
  have hlast : path ∈ last.pending ∨ code.Arrives path := by
    refine Walk.finish_induction (motive := fun w' => path ∈ w'.pending ∨ code.Arrives path) ?_
      hw (Walk.finish_of_mem_walks hfinish hw) (.inl hpath)
    intro w₁ w₂ _ hw₂ hstep h
    rcases h with h | h
    · rcases Walk.pending_of_step hstep h with h | h
      · exact .inl h
      · exact .inr ⟨w₂, hw₂, h⟩
    · exact .inr h
  rcases hlast with h | h
  · obtain ⟨-, -, hnone⟩ := Walk.last_of_finish hw (Walk.finish_of_mem_walks hfinish hw)
    rw [hnone] at h
    exact absurd h List.not_mem_nil
  · exact h

/-- What a path shows at a block entry is what is recorded of the block. -/
theorem arrival_of_arrives (hfinish : Walk.start.finish code = .ok last) {path : Path}
    (h : code.Arrives path) : last.arrivals[path.pc]? = some path.arrival := by
  obtain ⟨w, hw, hcursor⟩ := h
  have hend := Walk.finish_of_mem_walks hfinish hw
  obtain ⟨w', hstep⟩ := Walk.step_of_finish hend (by simp [hcursor])
  have hw' := mem_walks_of_step hw hstep
  exact (grows_last hfinish hw').arrivals _ _ ((Walk.step_of_eq hstep).of_arriving hcursor)

/-- Every record was made when a path opened the block. -/
theorem exists_visited_of_arrivals {w : Walk} (hw : w ∈ code.walks) {pc : Nat}
    {arrival : Arrival} (h : w.arrivals[pc]? = some arrival) :
    ∃ path, code.Visited path ∧ path.pc = pc ∧ path.arrival = arrival := by
  revert pc arrival
  refine walks_induction (motive := fun w => ∀ {pc : Nat} {arrival : Arrival},
    w.arrivals[pc]? = some arrival →
      ∃ path, code.Visited path ∧ path.pc = pc ∧ path.arrival = arrival) ?_ ?_ w hw
  · intro pc arrival h
    simp [Walk.start] at h
  · intro w w' _ hw' hstep ih pc arrival h
    rcases Walk.recorded_of_step hstep h with hbefore | ⟨path, -, hcursor, hpc, harrival⟩
    · exact ih hbefore
    · exact ⟨path, ⟨w', hw', hcursor⟩, hpc, harrival⟩

/-- What becomes of a path that is visited. -/
theorem follows_of_visited (hfinish : Walk.start.finish code = .ok last) {path : Path}
    (h : code.Visited path) :
    ∃ w ∈ code.walks, ∃ ins flow state, ∃ w' ∈ code.walks,
      w.cursor = .inside path ∧ code.decode path.pc = .ok ins ∧
      ins.execute code path.state = .ok flow state ∧ Walk.Follows code w ins state flow w' := by
  obtain ⟨w, hw, hcursor⟩ := h
  have hend := Walk.finish_of_mem_walks hfinish hw
  obtain ⟨w', hstep⟩ := Walk.step_of_finish hend (by simp [hcursor])
  have hw' := mem_walks_of_step hw hstep
  obtain ⟨ins, flow, state, hdecode, hexecute, hfollow⟩ :=
    (Walk.step_of_eq hstep).of_inside hcursor
  exact ⟨w, hw, ins, flow, state, w', hw', hcursor, hdecode, hexecute, hfollow⟩

theorem eq_ok_of_toOption {ε α : Type} {result : Except ε α} {a : α}
    (h : result.toOption = some a) : result = .ok a := by
  cases result with
  | error _ => cases h
  | ok _ => exact congrArg Except.ok (Option.some.inj h)

theorem validate_of_finish {last : Walk} (h : Walk.start.finish code = .ok last) :
    code.validate = (code.judge last).result := by
  rw [validate, validation, h]

theorem validate_of_rejection {rejection : Rejection}
    (h : Walk.start.finish code = .error rejection) :
    code.validate = .error rejection.violation := by
  rw [validate, validation, h]

/-- What a walk is judged by does not depend on the code. -/
theorem result_judge (code code' : Code) (w : Walk) :
    (code'.judge w).result = (code.judge w).result := by
  unfold judge
  split <;> rfl

/-- Where the runs over two codes are the same, so are the results. -/
theorem validate_eq_of_finish_eq {code' : Code}
    (h : Walk.start.finish code' = Walk.start.finish code) : code'.validate = code.validate := by
  cases hfinish : Walk.start.finish code with
  | error rejection =>
    rw [validate_of_rejection hfinish, validate_of_rejection (h.trans hfinish)]
  | ok last =>
    rw [validate_of_finish hfinish, validate_of_finish (h.trans hfinish), result_judge]

/-- An accepted code is one whose walk ends and whose ceilings hold. -/
theorem finish_of_validate {analysis : Analysis} (h : code.validate = .ok analysis) :
    ∃ last, Walk.start.finish code = .ok last ∧
      last.graph.highestDepth = .ok analysis.maxStackDepth ∧
      analysis = ⟨analysis.maxStackDepth, last.blockEntries, last.routineCount⟩ := by
  unfold validate validation at h
  split at h
  · next last hfinish =>
    unfold judge at h
    split at h
    · next depth hdepth =>
      injection h with h
      subst h
      exact ⟨last, hfinish, hdepth, rfl⟩
    · cases h
  · cases h

end Code

end EvmSafety
