/-
How often the survey goes through a call.

`tour` is the survey with a trace: every turn of the loop over the calls of a routine is
written down before the callee is surveyed.

A routine whose result is kept is not gone through again, so without cycles each call has one
turn.  On a cycle nothing is kept until the survey is back at the routine at which it entered
the cycle, and until then a routine is gone through once for every way that leads to it from
there.  Each routine of the cycle can be that entry only once, as it is kept afterwards.  So
if there is only one way from one routine of a cycle to another, every call has at most one
turn for each routine of its cycle.
-/
import EvmSafety.Proofs.Cycles
import Mathlib.Data.List.Count

namespace EvmSafety

namespace CallGraph

/-! ### The trace -/

/-- One turn of the survey: a routine, and one of its calls. -/
abbrev Visit := Routine × Call

/-- A survey with the turns up to its end, the latest first. -/
structure Tour where
  /-- What is found out. -/
  survey : Survey
  /-- The turns that were taken. -/
  visits : List Visit

/-- `survey`, with every turn written down. -/
def tour (graph : CallGraph) (routine : Routine) (chain : List Routine)
    (settled : Std.TreeMap Routine Reach) (visits : List Visit) : Tour :=
  match settled[routine]? with
  | some reach => ⟨{ reach, settled }, visits⟩
  | none =>
    match _hmem : graph[routine]? with
    | none => ⟨{ reach := {}, settled }, visits⟩
    | some usage =>
      match _hnew : placeIn routine chain with
      | some place => ⟨{ reach := { peak := usage.peak }, cut := some place, settled }, visits⟩
      | none =>
        let last : Tour := usage.calls.reverse.foldl (fun (sofar : Tour) call =>
            let callee := graph.tour (.sub call.callee) (routine :: chain) sofar.survey.settled
              ((routine, call) :: sofar.visits)
            { survey :=
                { reach := sofar.survey.reach.through call callee.survey.reach
                  cut := Option.merge min sofar.survey.cut callee.survey.cut
                  settled := callee.survey.settled }
              visits := callee.visits })
          ⟨{ reach := { peak := usage.peak }, settled }, visits⟩
        ⟨last.survey.close routine chain.length, last.visits⟩
termination_by graph.offChain chain
decreasing_by exact offChain_cons_lt _hmem _hnew

/-- All turns of the survey of a program, in order. -/
def visits (graph : CallGraph) : List Visit :=
  (graph.tour .main [] ∅ []).visits.reverse

/-- Take the turn of one call of a routine. -/
def tourCall (graph : CallGraph) (routine : Routine) (chain : List Routine) (sofar : Tour)
    (call : Call) : Tour :=
  let callee := graph.tour (.sub call.callee) (routine :: chain) sofar.survey.settled
    ((routine, call) :: sofar.visits)
  { survey :=
      { reach := sofar.survey.reach.through call callee.survey.reach
        cut := Option.merge min sofar.survey.cut callee.survey.cut
        settled := callee.survey.settled }
    visits := callee.visits }

/-- Take the turns of all calls of a routine, the earliest first. -/
def tourCalls (graph : CallGraph) (routine : Routine) (chain : List Routine)
    (settled : Std.TreeMap Routine Reach) (visits : List Visit) (usage : Usage) : Tour :=
  usage.calls.reverse.foldl (graph.tourCall routine chain)
    ⟨{ reach := { peak := usage.peak }, settled }, visits⟩

variable {graph : CallGraph} {routine target : Routine} {chain : List Routine}
  {settled : Std.TreeMap Routine Reach} {visits : List Visit}

theorem tour_of_settled {reach : Reach} (h : settled[routine]? = some reach) :
    graph.tour routine chain settled visits = ⟨{ reach, settled }, visits⟩ := by
  rw [tour, h]

theorem tour_of_unknown (hsettled : settled[routine]? = none) (h : graph[routine]? = none) :
    graph.tour routine chain settled visits = ⟨{ reach := {}, settled }, visits⟩ := by
  rw [tour, hsettled]
  dsimp only
  split
  · rfl
  · next husage => rw [h] at husage; cases husage

theorem tour_of_active {usage : Usage} {place : Nat} (hsettled : settled[routine]? = none)
    (husage : graph[routine]? = some usage) (h : placeIn routine chain = some place) :
    graph.tour routine chain settled visits
      = ⟨{ reach := { peak := usage.peak }, cut := some place, settled }, visits⟩ := by
  rw [tour, hsettled]
  dsimp only
  split
  · next hnone => rw [husage] at hnone; cases hnone
  · next usage' husage' =>
    rw [husage] at husage'
    cases husage'
    split
    · next place' hplace => rw [h] at hplace; cases hplace; rfl
    · next hnew => rw [h] at hnew; cases hnew

theorem tour_of_new {usage : Usage} (hsettled : settled[routine]? = none)
    (husage : graph[routine]? = some usage) (h : placeIn routine chain = none) :
    graph.tour routine chain settled visits
      = ⟨(graph.tourCalls routine chain settled visits usage).survey.close routine chain.length,
          (graph.tourCalls routine chain settled visits usage).visits⟩ := by
  rw [tour, hsettled]
  dsimp only
  split
  · next hnone => rw [husage] at hnone; cases hnone
  · next usage' husage' =>
    rw [husage] at husage'
    cases husage'
    split
    · next place hplace => rw [h] at hplace; cases hplace
    · rfl

/-- **The trace changes nothing:** a tour finds what the survey finds. -/
theorem survey_tour (graph : CallGraph) :
    ∀ routine chain settled, ∀ visits : List Visit,
      (graph.tour routine chain settled visits).survey = graph.survey routine chain settled := by
  refine survey_induction graph ?_ ?_ ?_ ?_
  · intro routine chain settled reach hkept visits
    rw [tour_of_settled hkept, survey_of_settled hkept]
  · intro routine chain settled hnone hunknown visits
    rw [tour_of_unknown hnone hunknown, survey_of_unknown hnone hunknown]
  · intro routine chain settled usage place hnone husage hplace visits
    rw [tour_of_active hnone husage hplace, survey_of_active hnone husage hplace]
  · intro routine chain settled usage hnone husage hnew ih visits
    have hcalls : ∀ (calls : List Call) (sofar : Tour),
        (calls.foldl (graph.tourCall routine chain) sofar).survey
          = calls.foldl (graph.surveyCall (routine :: chain)) sofar.survey := by
      intro calls
      induction calls with
      | nil => intro sofar; rfl
      | cons call rest ihcalls =>
        intro sofar
        have hcall : (graph.tourCall routine chain sofar call).survey
            = graph.surveyCall (routine :: chain) sofar.survey call := by
          simp only [tourCall, surveyCall, ih]
        rw [List.foldl_cons, List.foldl_cons, ihcalls, hcall]
    have hplace := placeIn_eq_none.2 hnew
    rw [tour_of_new hnone husage hplace, survey_of_new hnone husage hplace]
    simp only [tourCalls, surveyCalls, hcalls]

/-! ### What is kept, and where the survey is cut -/

/-- What a survey does to the results that are kept, and where it is cut. -/
structure Leaves (graph : CallGraph) (routine : Routine) (chain : List Routine)
    (settled : Std.TreeMap Routine Reach) (survey : Survey) : Prop where
  /-- What is kept stays so. -/
  grows : ∀ other, other ∈ settled → other ∈ survey.settled
  /-- Nothing is kept of a routine that is active. -/
  active : ∀ other ∈ chain, other ∉ settled → other ∉ survey.settled
  /-- The routine leads to where the survey was cut. -/
  cut : ∀ place, survey.cut = some place →
    ∃ other, placeIn other chain = some place ∧ graph.Leads routine other

theorem leaves_foldl {calls : List Call}
    (hedge : ∀ call ∈ calls, graph.Edge routine (.sub call.callee))
    (ih : ∀ callee settled, graph.Leaves callee chain settled (graph.survey callee chain settled)) :
    ∀ {sofar : Survey}, graph.Leaves routine chain settled sofar →
      graph.Leaves routine chain settled (calls.foldl (graph.surveyCall chain) sofar) := by
  induction calls with
  | nil => intro sofar h; exact h
  | cons call rest ihcalls =>
    intro sofar h
    have hcallee := ih (.sub call.callee) sofar.settled
    refine ihcalls (fun other hother => hedge other (List.mem_cons_of_mem _ hother)) ⟨?_, ?_, ?_⟩
    · intro other hother
      exact hcallee.grows other (h.grows other hother)
    · intro other hother hnot
      exact hcallee.active other hother (h.active other hother hnot)
    · intro place hplace
      -- The lower one of two cuts is one of them.
      have hmerge : sofar.cut = some place ∨
          (graph.survey (.sub call.callee) chain sofar.settled).cut = some place := by
        have hcut : Option.merge min sofar.cut
            (graph.survey (.sub call.callee) chain sofar.settled).cut = some place := hplace
        cases hfirst : sofar.cut with
        | none => simpa [hfirst] using hcut
        | some first =>
          cases hsecond : (graph.survey (.sub call.callee) chain sofar.settled).cut with
          | none => simpa [hfirst, hsecond] using hcut
          | some second =>
            simp only [hfirst, hsecond, Option.merge, Option.some.injEq] at hcut ⊢
            omega
      rcases hmerge with hcut | hcut
      · exact h.cut place hcut
      · obtain ⟨other, hother, hleads⟩ := hcallee.cut place hcut
        exact ⟨other, hother, .head (hedge call List.mem_cons_self) hleads⟩

theorem leaves_close {survey : Survey} (hnew : routine ∉ chain)
    (h : graph.Leaves routine (routine :: chain) settled survey) :
    graph.Leaves routine chain settled (survey.close routine chain.length) := by
  unfold Survey.close
  by_cases hcut : survey.cut.any (· < chain.length) = true
  · rw [if_pos hcut]
    refine ⟨h.grows, fun other hother => h.active other (List.mem_cons_of_mem _ hother), ?_⟩
    intro place hplace
    obtain ⟨other, hother, hleads⟩ := h.cut place hplace
    rw [hplace, Option.any_some, decide_eq_true_eq] at hcut
    by_cases hself : routine = other
    · rw [placeIn, if_pos hself] at hother
      injection hother with hother
      omega
    · rw [placeIn, if_neg hself] at hother
      exact ⟨other, hother, hleads⟩
  · rw [if_neg hcut]
    refine ⟨?_, ?_, by simp⟩
    · intro other hother
      exact Std.TreeMap.mem_insert.2 (.inr (h.grows other hother))
    · intro other hother hnot hmem
      rcases Std.TreeMap.mem_insert.1 hmem with heq | hmem
      · rw [Std.LawfulEqCmp.compare_eq_iff_eq] at heq
        exact hnew (heq ▸ hother)
      · exact h.active other (List.mem_cons_of_mem _ hother) hnot hmem

theorem edge_of_mem_calls {usage : Usage} (husage : graph[routine]? = some usage) {call : Call}
    (hcall : call ∈ usage.calls) : graph.Edge routine (.sub call.callee) :=
  ⟨call, by rwa [usage_of_getElem? husage], rfl⟩

theorem leaves_surveyCalls {usage : Usage} (husage : graph[routine]? = some usage)
    (ih : ∀ callee settled, graph.Leaves callee (routine :: chain) settled
      (graph.survey callee (routine :: chain) settled)) :
    graph.Leaves routine (routine :: chain) settled
      (graph.surveyCalls routine chain settled usage) := by
  refine leaves_foldl ?_ ih ⟨fun _ h => h, fun _ _ h => h, by simp⟩
  intro call hcall
  exact edge_of_mem_calls husage (List.mem_reverse.1 hcall)

theorem leaves_survey (graph : CallGraph) :
    ∀ routine chain settled,
      graph.Leaves routine chain settled (graph.survey routine chain settled) := by
  refine survey_induction graph ?_ ?_ ?_ ?_
  · intro routine chain settled reach hkept
    rw [survey_of_settled hkept]
    exact ⟨fun _ h => h, fun _ _ h => h, by simp⟩
  · intro routine chain settled hnone hunknown
    rw [survey_of_unknown hnone hunknown]
    exact ⟨fun _ h => h, fun _ _ h => h, by simp⟩
  · intro routine chain settled usage place hnone husage hplace
    rw [survey_of_active hnone husage hplace]
    refine ⟨fun _ h => h, fun _ _ h => h, ?_⟩
    intro place' hcut
    cases hcut
    exact ⟨routine, hplace, .refl⟩
  · intro routine chain settled usage hnone husage hnew ih
    rw [survey_of_new hnone husage (placeIn_eq_none.2 hnew)]
    exact leaves_close hnew (leaves_surveyCalls husage ih)

/-! ### Ways within a cycle -/

/-- A chain outside the active routines leads to the target, which is none of them. -/
def LeadsOff (graph : CallGraph) (chain : List Routine) (routine target : Routine) : Prop :=
  target ∉ chain ∧ ∃ calls, graph.IsChainOff chain routine calls ∧ endpoint routine calls = target

/-- Of the calls in another routine of its cycle, at most one leads to the target without
coming back to that routine first. -/
def OneWayTo (graph : CallGraph) (target : Routine) : Prop :=
  ∀ routine, graph.Mutual routine target → routine ≠ target →
    (graph.usage routine).calls.Pairwise fun call call' =>
      ¬ (graph.LeadsOff [routine] (.sub call.callee) target ∧
        graph.LeadsOff [routine] (.sub call'.callee) target)

theorem leadsOff_self (h : target ∉ chain) : graph.LeadsOff chain target target :=
  ⟨h, [], isChainOff_nil, rfl⟩

theorem LeadsOff.leads (h : graph.LeadsOff chain routine target) :
    graph.Leads routine target := by
  obtain ⟨-, calls, hchain, rfl⟩ := h
  exact leads_endpoint hchain.1.noted

theorem LeadsOff.of_call {usage : Usage} (husage : graph[routine]? = some usage)
    (hnew : routine ∉ chain) {call : Call} (hcall : call ∈ usage.calls)
    (h : graph.LeadsOff (routine :: chain) (.sub call.callee) target) :
    graph.LeadsOff chain routine target := by
  obtain ⟨hoff, calls, hchain, hend⟩ := h
  rw [← usage_of_getElem? husage] at hcall
  exact ⟨fun hmem => hoff (List.mem_cons_of_mem _ hmem), call :: calls,
    isChainOff_cons.2 ⟨hcall, hnew, hchain⟩, hend⟩

/-- Fewer active routines hold off fewer chains. -/
theorem LeadsOff.innermost {other : Routine} (h : graph.LeadsOff (routine :: chain) other target) :
    graph.LeadsOff [routine] other target := by
  have hsub : [routine] ⊆ routine :: chain := by simp
  obtain ⟨hoff, calls, ⟨hchain, hcallers⟩, hend⟩ := h
  exact ⟨fun hmem => hoff (hsub hmem), calls,
    ⟨hchain, fun caller hcaller hmem => hcallers caller hcaller (hsub hmem)⟩, hend⟩

/-! ### The turns of one call -/

section

variable {call : Call}

/-- The turns of the calls of a routine are its own if its callees add none. -/
theorem count_foldl_tourCall {calls : List Call}
    (h : ∀ other ∈ calls, ∀ settled visits,
      (graph.tour (.sub other.callee) (routine :: chain) settled visits).visits.count (target, call)
        = visits.count (target, call)) :
    ∀ sofar : Tour, (calls.foldl (graph.tourCall routine chain) sofar).visits.count (target, call)
      = sofar.visits.count (target, call)
        + (calls.map fun other => (routine, other)).count (target, call) := by
  induction calls with
  | nil => intro sofar; rfl
  | cons other rest ih =>
    intro sofar
    have hother := h other List.mem_cons_self sofar.survey.settled
      ((routine, other) :: sofar.visits)
    rw [List.foldl_cons, ih fun next hnext => h next (List.mem_cons_of_mem _ hnext),
      List.map_cons, List.count_cons]
    simp only [tourCall, hother, List.count_cons]
    omega

theorem count_map_of_ne (hne : routine ≠ target) (calls : List Call) :
    (calls.map fun other => (routine, other)).count (target, call) = 0 := by
  refine List.count_eq_zero_of_not_mem ?_
  simp [hne]

theorem count_map_self (calls : List Call) :
    (calls.map fun other => (target, other)).count (target, call) = calls.count call :=
  List.count_map_of_injective calls (fun other => (target, other)) (fun _ _ h => (Prod.mk.inj h).2)
    call

/-- A survey goes through the calls of routines only to which it leads. -/
theorem count_tour_of_not_leadsOff (graph : CallGraph) (target : Routine) (call : Call) :
    ∀ routine chain settled, ¬ graph.LeadsOff chain routine target → ∀ visits : List Visit,
      (graph.tour routine chain settled visits).visits.count (target, call)
        = visits.count (target, call) := by
  refine survey_induction graph ?_ ?_ ?_ ?_
  · intro routine chain settled reach hkept _ visits
    rw [tour_of_settled hkept]
  · intro routine chain settled hnone hunknown _ visits
    rw [tour_of_unknown hnone hunknown]
  · intro routine chain settled usage place hnone husage hplace _ visits
    rw [tour_of_active hnone husage hplace]
  · intro routine chain settled usage hnone husage hnew ih hnot visits
    have hne : routine ≠ target := by
      rintro rfl
      exact hnot (leadsOff_self hnew)
    have hcallees : ∀ other ∈ usage.calls.reverse, ∀ settled visits,
        (graph.tour (.sub other.callee) (routine :: chain) settled visits).visits.count
          (target, call) = visits.count (target, call) := by
      intro other hother settled
      refine ih _ settled ?_
      intro hleads
      exact hnot (hleads.of_call husage hnew (List.mem_reverse.1 hother))
    rw [tour_of_new hnone husage (placeIn_eq_none.2 hnew)]
    simp only [tourCalls, count_foldl_tourCall hcallees, count_map_of_ne hne, Nat.add_zero]

/-- If only one of the calls leads to the target, only one adds turns. -/
theorem count_foldl_tourCall_le {calls : List Call} {bound : Nat} (hne : routine ≠ target)
    (hbound : ∀ other ∈ calls, ∀ settled visits,
      (graph.tour (.sub other.callee) (routine :: chain) settled visits).visits.count (target, call)
        ≤ visits.count (target, call) + bound)
    (hone : calls.Pairwise fun other other' =>
      ¬ (graph.LeadsOff [routine] (.sub other.callee) target ∧
        graph.LeadsOff [routine] (.sub other'.callee) target)) :
    ∀ sofar : Tour, (calls.foldl (graph.tourCall routine chain) sofar).visits.count (target, call)
      ≤ sofar.visits.count (target, call) + bound := by
  induction calls with
  | nil => intro sofar; exact Nat.le_add_right _ _
  | cons other rest ih =>
    intro sofar
    obtain ⟨hfirst, hrest⟩ := List.pairwise_cons.1 hone
    have hturn : ((routine, other) :: sofar.visits).count (target, call)
        = sofar.visits.count (target, call) :=
      List.count_cons_of_ne (by simp [hne])
    rw [List.foldl_cons]
    by_cases hleads : graph.LeadsOff [routine] (.sub other.callee) target
    · -- None of the others leads there.
      have hothers : ∀ next ∈ rest, ∀ settled visits,
          (graph.tour (.sub next.callee) (routine :: chain) settled visits).visits.count
            (target, call) = visits.count (target, call) := by
        intro next hnext settled
        refine count_tour_of_not_leadsOff graph target call _ _ settled ?_
        intro hagain
        exact hfirst next hnext ⟨hleads, hagain.innermost⟩
      have hother := hbound other List.mem_cons_self sofar.survey.settled
        ((routine, other) :: sofar.visits)
      rw [count_foldl_tourCall hothers, count_map_of_ne hne, Nat.add_zero]
      rw [hturn] at hother
      exact hother
    · have hother := count_tour_of_not_leadsOff graph target call (.sub other.callee)
        (routine :: chain) sofar.survey.settled (fun h => hleads h.innermost)
        ((routine, other) :: sofar.visits)
      rw [hturn] at hother
      refine Nat.le_trans (ih (fun next hnext => hbound next (List.mem_cons_of_mem _ hnext)) hrest
        _) (Nat.le_of_eq ?_)
      exact congrArg (· + bound) hother

/-- **Once per entry:** from a routine of its cycle, a call of the target has one turn at most,
if there is one way to it. -/
theorem count_tour_le (hone : graph.OneWayTo target) (call : Call) :
    ∀ routine chain settled, graph.Mutual routine target → ∀ visits : List Visit,
      (graph.tour routine chain settled visits).visits.count (target, call)
        ≤ visits.count (target, call) + (graph.usage target).calls.count call := by
  refine survey_induction graph ?_ ?_ ?_ ?_
  · intro routine chain settled reach hkept _ visits
    rw [tour_of_settled hkept]
    exact Nat.le_add_right _ _
  · intro routine chain settled hnone hunknown _ visits
    rw [tour_of_unknown hnone hunknown]
    exact Nat.le_add_right _ _
  · intro routine chain settled usage place hnone husage hplace _ visits
    rw [tour_of_active hnone husage hplace]
    exact Nat.le_add_right _ _
  · intro routine chain settled usage hnone husage hnew ih hmutual visits
    rw [tour_of_new hnone husage (placeIn_eq_none.2 hnew)]
    by_cases hself : routine = target
    · subst hself
      have hcallees : ∀ other ∈ usage.calls.reverse, ∀ settled visits,
          (graph.tour (.sub other.callee) (routine :: chain) settled visits).visits.count
            (routine, call) = visits.count (routine, call) := by
        intro other _ settled
        exact count_tour_of_not_leadsOff graph routine call _ _ settled fun h =>
          h.1 List.mem_cons_self
      simp only [tourCalls, count_foldl_tourCall hcallees, count_map_self, List.count_reverse,
        usage_of_getElem? husage, Nat.le_refl]
    · refine count_foldl_tourCall_le hself ?_ ?_ _
      · intro other hother settled visits
        have hedge := edge_of_mem_calls husage (List.mem_reverse.1 hother)
        by_cases hleads : graph.LeadsOff (routine :: chain) (.sub other.callee) target
        · exact ih _ settled ⟨hleads.leads, hmutual.2.tail hedge⟩ visits
        · rw [count_tour_of_not_leadsOff graph target call _ _ settled hleads]
          exact Nat.le_add_right _ _
      · have hways := hone routine hmutual hself
        rw [usage_of_getElem? husage] at hways
        refine List.pairwise_reverse.2 (hways.imp ?_)
        intro other other' hnot hboth
        exact hnot hboth.symm

end

/-! ### Entries into a cycle -/

open Classical in
/-- The routines of the graph on a cycle with the target, the target included. -/
noncomputable def cycleOf (graph : CallGraph) (target : Routine) : Finset Routine :=
  graph.keys.toFinset.filter fun other => graph.Mutual other target

/-- How many routines on a cycle with the target have a result that is kept. -/
noncomputable def keptOf (graph : CallGraph) (target : Routine)
    (settled : Std.TreeMap Routine Reach) : Nat :=
  ((graph.cycleOf target).filter fun other => other ∈ settled).card

theorem mem_cycleOf {other : Routine} :
    other ∈ graph.cycleOf target ↔ other ∈ graph ∧ graph.Mutual other target := by
  simp [cycleOf]

theorem card_cycleOf_le (graph : CallGraph) (target : Routine) :
    (graph.cycleOf target).card ≤ graph.size := by
  classical
  calc (graph.cycleOf target).card ≤ graph.keys.toFinset.card := by
        unfold cycleOf
        exact Finset.card_filter_le _ _
    _ ≤ graph.keys.length := List.toFinset_card_le _
    _ = graph.size := by simp

theorem keptOf_mono {settled' : Std.TreeMap Routine Reach}
    (h : ∀ other, other ∈ settled → other ∈ settled') :
    graph.keptOf target settled ≤ graph.keptOf target settled' :=
  Finset.card_le_card (Finset.monotone_filter_right _ fun other _ => h other)

theorem keptOf_lt {settled' : Std.TreeMap Routine Reach}
    (h : ∀ other, other ∈ settled → other ∈ settled') (hcycle : routine ∈ graph.cycleOf target)
    (hnot : routine ∉ settled) (hmem : routine ∈ settled') :
    graph.keptOf target settled < graph.keptOf target settled' := by
  refine Finset.card_lt_card (Finset.ssubset_iff_of_subset
    (Finset.monotone_filter_right _ fun other _ => h other) |>.2 ⟨routine, ?_, ?_⟩)
  · exact Finset.mem_filter.2 ⟨hcycle, hmem⟩
  · intro hkept
    exact hnot (Finset.mem_filter.1 hkept).2

theorem mem_settled_close {survey : Survey} {place : Nat} {other : Routine}
    (h : other ∈ survey.settled) : other ∈ (survey.close routine place).settled := by
  unfold Survey.close
  split
  · exact h
  · exact Std.TreeMap.mem_insert.2 (.inr h)

/-- A routine whose cycle has no other active one is kept at the end. -/
theorem mem_settled_survey {usage : Usage} (hnone : settled[routine]? = none)
    (husage : graph[routine]? = some usage) (hnew : routine ∉ chain)
    (hapart : ∀ other ∈ chain, ¬ graph.Leads routine other) :
    routine ∈ (graph.survey routine chain settled).settled := by
  have hcalls : graph.Leaves routine (routine :: chain) settled
      (graph.surveyCalls routine chain settled usage) :=
    leaves_surveyCalls husage fun callee settled =>
      leaves_survey graph callee (routine :: chain) settled
  rw [survey_of_new hnone husage (placeIn_eq_none.2 hnew), Survey.close]
  by_cases hcut : (graph.surveyCalls routine chain settled usage).cut.any (· < chain.length) = true
  · cases hplace : (graph.surveyCalls routine chain settled usage).cut with
    | none => simp [hplace] at hcut
    | some place =>
      obtain ⟨other, hother, hleads⟩ := hcalls.cut place hplace
      rw [hplace, Option.any_some, decide_eq_true_eq] at hcut
      by_cases hself : routine = other
      · rw [placeIn, if_pos hself] at hother
        injection hother with hother
        omega
      · rw [placeIn, if_neg hself] at hother
        have hmem : other ∈ chain := by
          by_contra hmem
          rw [placeIn_eq_none.2 hmem] at hother
          cases hother
        exact absurd hleads (hapart other hmem)
  · rw [if_neg hcut]
    exact Std.TreeMap.mem_insert_self

/-- What holds of the turns that each callee adds holds of all of them. -/
theorem count_foldl_add_le {calls : List Call} {call : Call} {weight : Nat}
    (hne : routine ≠ target)
    (h : ∀ other ∈ calls, ∀ settled visits,
      (graph.tour (.sub other.callee) (routine :: chain) settled visits).visits.count (target, call)
          + weight * graph.keptOf target settled
        ≤ visits.count (target, call) + weight * graph.keptOf target
          (graph.tour (.sub other.callee) (routine :: chain) settled visits).survey.settled) :
    ∀ sofar : Tour, (calls.foldl (graph.tourCall routine chain) sofar).visits.count (target, call)
        + weight * graph.keptOf target sofar.survey.settled
      ≤ sofar.visits.count (target, call) + weight * graph.keptOf target
        (calls.foldl (graph.tourCall routine chain) sofar).survey.settled := by
  induction calls with
  | nil => intro sofar; exact Nat.le_refl _
  | cons other rest ih =>
    intro sofar
    have hother := h other List.mem_cons_self sofar.survey.settled
      ((routine, other) :: sofar.visits)
    have hrest := ih (fun next hnext => h next (List.mem_cons_of_mem _ hnext))
      (graph.tourCall routine chain sofar other)
    rw [List.count_cons_of_ne (by simp [hne])] at hother
    rw [List.foldl_cons]
    simp only [tourCall] at hrest ⊢
    omega

/-- While no routine of the target's cycle is active, every turn of its call is paid for by a
routine of the cycle that is kept from then on. -/
theorem count_tour_add_le (hone : graph.OneWayTo target) (call : Call) :
    ∀ routine chain settled,
      (∀ other ∈ chain, graph.Leads other routine ∧ ¬ graph.Mutual other target) →
      ∀ visits : List Visit,
        (graph.tour routine chain settled visits).visits.count (target, call)
            + (graph.usage target).calls.count call * graph.keptOf target settled
          ≤ visits.count (target, call) + (graph.usage target).calls.count call
            * graph.keptOf target (graph.tour routine chain settled visits).survey.settled := by
  refine survey_induction graph ?_ ?_ ?_ ?_
  · intro routine chain settled reach hkept _ visits
    rw [tour_of_settled hkept]
  · intro routine chain settled hnone hunknown _ visits
    rw [tour_of_unknown hnone hunknown]
  · intro routine chain settled usage place hnone husage hplace _ visits
    rw [tour_of_active hnone husage hplace]
  · intro routine chain settled usage hnone husage hnew ih hchain visits
    by_cases hmutual : graph.Mutual routine target
    · -- The routine is where the cycle is entered.
      have hgrows := (leaves_survey graph routine chain settled).grows
      have hapart : ∀ other ∈ chain, ¬ graph.Leads routine other := by
        intro other hother hleads
        obtain ⟨hback, hnot⟩ := hchain other hother
        exact hnot ⟨hback.trans hmutual.1, hmutual.2.trans hleads⟩
      have hkept := mem_settled_survey hnone husage hnew hapart
      have hcycle : routine ∈ graph.cycleOf target := by
        refine mem_cycleOf.2 ⟨?_, hmutual⟩
        rw [Std.TreeMap.mem_iff_isSome_getElem?, husage]
        rfl
      have hnot : routine ∉ settled := by
        rw [Std.TreeMap.mem_iff_isSome_getElem?, hnone]
        simp
      have hlt := keptOf_lt hgrows hcycle hnot hkept
      have hle := count_tour_le hone call routine chain settled hmutual visits
      have hmul := Nat.mul_le_mul_left ((graph.usage target).calls.count call) hlt
      rw [Nat.mul_succ] at hmul
      rw [survey_tour]
      omega
    · have hne : routine ≠ target := by
        rintro rfl
        exact hmutual ⟨.refl, .refl⟩
      have hcallees : ∀ other ∈ usage.calls.reverse, ∀ settled visits,
          (graph.tour (.sub other.callee) (routine :: chain) settled visits).visits.count
                (target, call)
              + (graph.usage target).calls.count call * graph.keptOf target settled
            ≤ visits.count (target, call)
              + (graph.usage target).calls.count call * graph.keptOf target
                (graph.tour (.sub other.callee) (routine :: chain) settled
                  visits).survey.settled := by
        intro other hother settled
        have hedge := edge_of_mem_calls husage (List.mem_reverse.1 hother)
        refine ih _ settled ?_
        intro caller hcaller
        rcases List.mem_cons.1 hcaller with rfl | hcaller
        · exact ⟨.single hedge, hmutual⟩
        · obtain ⟨hleads, hnot⟩ := hchain caller hcaller
          exact ⟨hleads.tail hedge, hnot⟩
      have hfold := count_foldl_add_le hne hcallees
        ⟨{ reach := { peak := usage.peak }, settled }, visits⟩
      have hclose : graph.keptOf target
            (graph.tourCalls routine chain settled visits usage).survey.settled
          ≤ graph.keptOf target ((graph.tourCalls routine chain settled visits usage).survey.close
              routine chain.length).settled :=
        keptOf_mono fun other hother => mem_settled_close hother
      rw [tour_of_new hnone husage (placeIn_eq_none.2 hnew)]
      exact Nat.le_trans hfold (Nat.add_le_add_left (Nat.mul_le_mul_left _ hclose) _)

theorem count_visits_le_card (hone : graph.OneWayTo target) (call : Call) :
    graph.visits.count (target, call)
      ≤ (graph.usage target).calls.count call * (graph.cycleOf target).card := by
  have hle := count_tour_add_le hone call .main [] ∅ (by simp) []
  have hkept : graph.keptOf target (graph.tour .main [] ∅ []).survey.settled
      ≤ (graph.cycleOf target).card :=
    Finset.card_filter_le _ _
  have hmul := Nat.mul_le_mul_left ((graph.usage target).calls.count call) hkept
  rw [visits, List.count_reverse]
  rw [List.count_nil] at hle
  omega

/-- **A call has at most one turn for each routine of its cycle,** and never more than there are
routines, if there is only one way to its routine from each other one of the cycle.  A call that
is noted several times counts as often. -/
theorem count_visits_le {target : Routine} (hone : graph.OneWayTo target) (call : Call) :
    (graph.tour .main [] ∅ []).survey = graph.survey .main [] ∅ ∧
      graph.visits.count (target, call)
        ≤ (graph.usage target).calls.count call * (graph.cycleOf target).card ∧
      graph.visits.count (target, call) ≤ (graph.usage target).calls.count call * graph.size := by
  have hcycle := count_visits_le_card hone call
  refine ⟨survey_tour graph .main [] ∅ [], hcycle, ?_⟩
  exact Nat.le_trans hcycle (Nat.mul_le_mul_left _ (card_cycleOf_le graph target))

/-- Two routines that call each other, each of which the main routine calls. -/
def pair : CallGraph :=
  ((((∅ : CallGraph).noteCall .main ⟨2, 0, 7⟩).noteCall .main ⟨5, 0, 12⟩).noteCall
    (.sub 7) ⟨10, 0, 12⟩).noteCall (.sub 12) ⟨20, 0, 7⟩

theorem oneWayTo_pair : pair.OneWayTo (.sub 12) := by
  intro routine hmutual hne
  have hmain : routine ≠ .main := by
    rintro rfl
    rcases Relation.ReflTransGen.cases_tail hmutual.2 with h | ⟨caller, -, call, -, hcallee⟩
    · cases h
    · cases hcallee
  -- Each of the two makes one call.
  have hcalls : (pair.usage routine).calls.length ≤ 1 := by
    by_cases hseven : Routine.sub 7 = routine
    · subst hseven
      simp [pair, usage_noteCall]
    · simp [pair, usage_noteCall, hseven, Ne.symm hne, Ne.symm hmain]
  match hlist : (pair.usage routine).calls with
  | [] => exact .nil
  | [call] => exact List.pairwise_singleton _ _
  | call :: other :: rest =>
    rw [hlist] at hcalls
    simp at hcalls

/-- The call of the second routine has two turns, and its cycle two routines. -/
theorem count_visits_pair : pair.OneWayTo (.sub 12) ∧
    pair.visits.count (.sub 12, ⟨20, 0, 7⟩) = 2 ∧
    pair.visits.count (.sub 12, ⟨20, 0, 7⟩)
      ≤ (pair.usage (.sub 12)).calls.count ⟨20, 0, 7⟩ * (pair.cycleOf (.sub 12)).card ∧
    pair.visits.count (.sub 12, ⟨20, 0, 7⟩)
      ≤ (pair.usage (.sub 12)).calls.count ⟨20, 0, 7⟩ * pair.size := by
  obtain ⟨-, hcycle, hsize⟩ := count_visits_le oneWayTo_pair ⟨20, 0, 7⟩
  exact ⟨oneWayTo_pair, by decide +kernel, hcycle, hsize⟩

end CallGraph

end EvmSafety
