/-
Call chains, and what the survey finds of them.

A chain is a list of calls, each made by the routine that the one before enters, in which no
routine calls twice; the routine entered last may have called before.  It opens as many
frames as it has calls, and it rises as high as its calls lift it and its last routine peaks.
The ceilings are about the chains that start in the main routine.

`survey` does not go through the chains one by one.  It cuts one where it comes back to a
routine that is active, and it keeps a result once no cut reaches above it.  What is shown
here is that neither makes it miss anything: a result that is kept bounds every chain from its
routine, and a result that is not kept bounds all but those that run into a routine at which
it was cut.
-/
import EvmSafety.Proofs.Notes
import Mathlib.Data.List.Nodup

namespace EvmSafety

namespace CallGraph

/-! ### Chains -/

/-- The routines that make the calls of a list, if the first is made in `routine`. -/
def callers : Routine → List Call → List Routine
  | _, [] => []
  | routine, call :: rest => routine :: callers (.sub call.callee) rest

/-- The routine that the last call of a list enters. -/
def endpoint : Routine → List Call → Routine
  | routine, [] => routine
  | _, call :: rest => endpoint (.sub call.callee) rest

/-- How far the calls of a list lift the base. -/
def lift : List Call → Nat
  | [] => 0
  | call :: rest => call.depth + lift rest

/-- How high a list of calls rises above the base of `routine`. -/
def rise (graph : CallGraph) : Routine → List Call → Nat
  | routine, [] => (graph.usage routine).peak
  | _, call :: rest => call.depth + graph.rise (.sub call.callee) rest

/-- Every call of a list is noted for the routine that makes it. -/
def Noted (graph : CallGraph) : Routine → List Call → Prop
  | _, [] => True
  | routine, call :: rest =>
    call ∈ (graph.usage routine).calls ∧ graph.Noted (.sub call.callee) rest

/-- A list of noted calls, in which no routine calls twice. -/
structure IsChain (graph : CallGraph) (routine : Routine) (calls : List Call) : Prop where
  noted : graph.Noted routine calls
  nodup : (callers routine calls).Nodup

/-- No chain from the routine rises higher or opens more frames. -/
def Bounds (graph : CallGraph) (routine : Routine) (reach : Reach) : Prop :=
  ∀ calls, graph.IsChain routine calls →
    graph.rise routine calls ≤ reach.peak ∧ calls.length ≤ reach.frames

variable {graph : CallGraph} {routine : Routine}

theorem isChain_nil : graph.IsChain routine [] :=
  ⟨trivial, List.nodup_nil⟩

theorem isChain_cons {call : Call} {rest : List Call} :
    graph.IsChain routine (call :: rest) ↔
      call ∈ (graph.usage routine).calls ∧ routine ∉ callers (.sub call.callee) rest ∧
        graph.IsChain (.sub call.callee) rest := by
  constructor
  · rintro ⟨⟨hcall, hnoted⟩, hnodup⟩
    obtain ⟨hnew, hnodup⟩ := List.nodup_cons.1 hnodup
    exact ⟨hcall, hnew, hnoted, hnodup⟩
  · rintro ⟨hcall, hnew, hnoted, hnodup⟩
    exact ⟨⟨hcall, hnoted⟩, List.nodup_cons.2 ⟨hnew, hnodup⟩⟩

theorem rise_eq (graph : CallGraph) :
    ∀ (routine : Routine) (calls : List Call),
      graph.rise routine calls = lift calls + (graph.usage (endpoint routine calls)).peak
  | _, [] => (Nat.zero_add _).symm
  | _, call :: rest => by rw [rise, rise_eq graph _ rest, endpoint, lift, Nat.add_assoc]

/-! ### Chains that are made longer at the end -/

theorem callers_concat (call : Call) :
    ∀ (routine : Routine) (calls : List Call),
      callers routine (calls ++ [call]) = callers routine calls ++ [endpoint routine calls]
  | _, [] => rfl
  | routine, _ :: rest => congrArg (routine :: ·) (callers_concat call _ rest)

theorem lift_concat (call : Call) : ∀ calls : List Call,
    lift (calls ++ [call]) = lift calls + call.depth
  | [] => Nat.add_comm _ 0
  | other :: rest => by rw [List.cons_append, lift, lift, lift_concat call rest, Nat.add_assoc]

theorem endpoint_concat (call : Call) :
    ∀ (routine : Routine) (calls : List Call),
      endpoint routine (calls ++ [call]) = .sub call.callee
  | _, [] => rfl
  | _, _ :: rest => endpoint_concat call _ rest

theorem noted_concat {call : Call} :
    ∀ {routine : Routine} {calls : List Call}, graph.Noted routine calls →
      call ∈ (graph.usage (endpoint routine calls)).calls → graph.Noted routine (calls ++ [call])
  | _, [], _, hcall => ⟨hcall, trivial⟩
  | _, _ :: _, hnoted, hcall => ⟨hnoted.1, noted_concat hnoted.2 hcall⟩

/-! ### The recursion of the survey -/

/-- Take one call of the innermost routine of a chain into account. -/
def surveyCall (graph : CallGraph) (chain : List Routine) (sofar : Survey) (call : Call) :
    Survey :=
  let callee := graph.survey (.sub call.callee) chain sofar.settled
  { reach := sofar.reach.through call callee.reach
    cut := Option.merge min sofar.cut callee.cut
    settled := callee.settled }

/-- Take all calls of a routine into account, the earliest first. -/
def surveyCalls (graph : CallGraph) (routine : Routine) (chain : List Routine)
    (settled : Std.TreeMap Routine Reach) (usage : Usage) : Survey :=
  usage.calls.reverse.foldl (graph.surveyCall (routine :: chain))
    { reach := { peak := usage.peak }, settled }

/-- Keep a result, unless it was cut above this place. -/
def Survey.close (survey : Survey) (routine : Routine) (place : Nat) : Survey :=
  if survey.cut.any (· < place) then survey
  else { reach := survey.reach, settled := survey.settled.insert routine survey.reach }

theorem survey_of_settled {chain : List Routine} {settled : Std.TreeMap Routine Reach}
    {reach : Reach} (h : settled[routine]? = some reach) :
    graph.survey routine chain settled = { reach, settled } := by
  rw [survey, h]

theorem survey_of_unknown {chain : List Routine} {settled : Std.TreeMap Routine Reach}
    (hsettled : settled[routine]? = none) (h : graph[routine]? = none) :
    graph.survey routine chain settled = { reach := {}, settled } := by
  rw [survey, hsettled]
  dsimp only
  split
  · rfl
  · next husage => rw [h] at husage; cases husage

theorem survey_of_active {chain : List Routine} {settled : Std.TreeMap Routine Reach}
    {usage : Usage} {place : Nat} (hsettled : settled[routine]? = none)
    (husage : graph[routine]? = some usage) (h : placeIn routine chain = some place) :
    graph.survey routine chain settled
      = { reach := { peak := usage.peak }, cut := some place, settled } := by
  rw [survey, hsettled]
  dsimp only
  split
  · next hnone => rw [husage] at hnone; cases hnone
  · next usage' husage' =>
    rw [husage] at husage'
    cases husage'
    split
    · next place' hplace => rw [h] at hplace; cases hplace; rfl
    · next hnew => rw [h] at hnew; cases hnew

theorem survey_of_new {chain : List Routine} {settled : Std.TreeMap Routine Reach}
    {usage : Usage} (hsettled : settled[routine]? = none)
    (husage : graph[routine]? = some usage) (h : placeIn routine chain = none) :
    graph.survey routine chain settled
      = (graph.surveyCalls routine chain settled usage).close routine chain.length := by
  rw [survey, hsettled]
  dsimp only
  split
  · next hnone => rw [husage] at hnone; cases hnone
  · next usage' husage' =>
    rw [husage] at husage'
    cases husage'
    split
    · next place hplace => rw [h] at hplace; cases hplace
    · rfl

/-- **Induction along the survey:** what holds where it does not go deeper, and of a routine
if it holds of all the routines called there, holds of every survey. -/
theorem survey_induction (graph : CallGraph)
    {motive : Routine → List Routine → Std.TreeMap Routine Reach → Prop}
    (kept : ∀ routine chain settled reach, settled[routine]? = some reach →
      motive routine chain settled)
    (unknown : ∀ routine chain settled, settled[routine]? = none → graph[routine]? = none →
      motive routine chain settled)
    (active : ∀ routine chain settled usage place, settled[routine]? = none →
      graph[routine]? = some usage → placeIn routine chain = some place →
      motive routine chain settled)
    (new : ∀ routine chain settled usage, settled[routine]? = none →
      graph[routine]? = some usage → routine ∉ chain →
      (∀ callee settled, motive callee (routine :: chain) settled) →
      motive routine chain settled) :
    ∀ routine chain settled, motive routine chain settled := by
  intro routine chain settled
  -- Every call that goes deeper puts one more routine of the graph on the chain.
  induction hn : graph.offChain chain using Nat.strongRecOn generalizing routine chain settled with
  | _ n ih =>
    cases hsettled : settled[routine]? with
    | some reach => exact kept routine chain settled reach hsettled
    | none =>
      cases husage : graph[routine]? with
      | none => exact unknown routine chain settled hsettled husage
      | some usage =>
        cases hplace : placeIn routine chain with
        | some place => exact active routine chain settled usage place hsettled husage hplace
        | none =>
          have hlt := offChain_cons_lt husage hplace
          exact new routine chain settled usage hsettled husage (placeIn_eq_none.1 hplace)
            fun callee settled => ih _ (hn ▸ hlt) callee _ settled rfl

/-! ### The calls of one routine -/

theorem peak_through (reach : Reach) (call : Call) (callee : Reach) :
    (reach.through call callee).peak = max reach.peak (call.depth + callee.peak) := by
  unfold Reach.through
  dsimp only
  by_cases h : reach.peak < call.depth + callee.peak
  · rw [if_pos h, Nat.max_eq_right (Nat.le_of_lt h)]
    split <;> rfl
  · rw [if_neg h, Nat.max_eq_left (Nat.le_of_not_lt h)]
    split <;> rfl

theorem frames_through (reach : Reach) (call : Call) (callee : Reach) :
    (reach.through call callee).frames = max reach.frames (callee.frames + 1) := by
  have hframes : ∀ r : Reach, r.frames = reach.frames →
      (if r.frames < callee.frames + 1 then
        { r with frames := callee.frames + 1, framesVia := some call.site }
      else r).frames = max reach.frames (callee.frames + 1) := by
    intro r hr
    by_cases h : r.frames < callee.frames + 1
    · rw [if_pos h, Nat.max_eq_right (by omega)]
    · rw [if_neg h, hr, Nat.max_eq_left (by omega)]
  unfold Reach.through
  dsimp only
  by_cases h : reach.peak < call.depth + callee.peak
  · rw [if_pos h]
    exact hframes _ rfl
  · rw [if_neg h]
    exact hframes _ rfl

theorem any_merge (cut cut' : Option Nat) (place : Nat) :
    (Option.merge min cut cut').any (· ≤ place)
      = (cut.any (· ≤ place) || cut'.any (· ≤ place)) := by
  cases cut with
  | none => simp
  | some first =>
    cases cut' with
    | none => simp
    | some second =>
      simp only [Option.merge, Option.any_some, ← Bool.decide_or, decide_eq_decide]
      omega

/-- What taking the calls of a list into account comes to.  Each of them is surveyed with some
results that are kept, all of which satisfy `Kept`. -/
structure Folded (graph : CallGraph) (chain : List Routine)
    (Kept : Std.TreeMap Routine Reach → Prop) (calls : List Call) (first last : Survey) :
    Prop where
  settled : Kept last.settled
  peak : first.reach.peak ≤ last.reach.peak
  cut : ∀ place, first.cut.any (· ≤ place) = true → last.cut.any (· ≤ place) = true
  frames : first.reach.frames ≤ last.reach.frames
  /-- Every call is taken into account. -/
  each : ∀ call ∈ calls, ∃ settled, Kept settled ∧
    call.depth + (graph.survey (.sub call.callee) chain settled).reach.peak ≤ last.reach.peak ∧
    (graph.survey (.sub call.callee) chain settled).reach.frames + 1 ≤ last.reach.frames ∧
    ∀ place, (graph.survey (.sub call.callee) chain settled).cut.any (· ≤ place) = true →
      last.cut.any (· ≤ place) = true
  /-- Nothing but the calls is. -/
  peakFrom : last.reach.peak = first.reach.peak ∨ ∃ call ∈ calls, ∃ settled, Kept settled ∧
    last.reach.peak = call.depth + (graph.survey (.sub call.callee) chain settled).reach.peak
  framesFrom : last.reach.frames = first.reach.frames ∨ ∃ call ∈ calls, ∃ settled, Kept settled ∧
    last.reach.frames = (graph.survey (.sub call.callee) chain settled).reach.frames + 1

theorem folded_foldl {chain : List Routine} {Kept : Std.TreeMap Routine Reach → Prop} :
    ∀ {calls : List Call} {first : Survey}, Kept first.settled →
      (∀ call ∈ calls, ∀ settled, Kept settled →
        Kept (graph.survey (.sub call.callee) chain settled).settled) →
      Folded graph chain Kept calls first (calls.foldl (graph.surveyCall chain) first) := by
  intro calls
  induction calls with
  | nil =>
    intro first hfirst _
    exact ⟨hfirst, Nat.le_refl _, fun _ h => h, Nat.le_refl _, by simp, .inl rfl, .inl rfl⟩
  | cons call rest ih =>
    intro first hfirst hkeeps
    have hkept := hkeeps call List.mem_cons_self first.settled hfirst
    have hrest := @ih (graph.surveyCall chain first call) hkept
      fun other hother => hkeeps other (List.mem_cons_of_mem _ hother)
    have hpeak : (graph.surveyCall chain first call).reach.peak = max first.reach.peak
        (call.depth + (graph.survey (.sub call.callee) chain first.settled).reach.peak) :=
      peak_through ..
    have hframes : (graph.surveyCall chain first call).reach.frames = max first.reach.frames
        ((graph.survey (.sub call.callee) chain first.settled).reach.frames + 1) :=
      frames_through ..
    have hcut (place : Nat) : (graph.surveyCall chain first call).cut.any (· ≤ place)
        = (first.cut.any (· ≤ place) ||
          (graph.survey (.sub call.callee) chain first.settled).cut.any (· ≤ place)) :=
      any_merge ..
    have hrestPeak := hrest.peak
    have hrestFrames := hrest.frames
    rw [List.foldl_cons]
    refine ⟨hrest.settled, by omega, ?_, by omega, ?_, ?_, ?_⟩
    · intro place h
      refine hrest.cut place ?_
      rw [hcut, h, Bool.true_or]
    · intro other hother
      rcases List.mem_cons.1 hother with rfl | hother
      · refine ⟨first.settled, hfirst, by omega, by omega, ?_⟩
        intro place h
        refine hrest.cut place ?_
        rw [hcut, h, Bool.or_true]
      · exact hrest.each other hother
    · rcases hrest.peakFrom with h | ⟨other, hother, h⟩
      · rw [h, hpeak]
        rcases Nat.le_total first.reach.peak (call.depth +
          (graph.survey (.sub call.callee) chain first.settled).reach.peak) with hle | hle
        · exact .inr ⟨call, List.mem_cons_self, _, hfirst, Nat.max_eq_right hle⟩
        · exact .inl (Nat.max_eq_left hle)
      · exact .inr ⟨other, List.mem_cons_of_mem _ hother, h⟩
    · rcases hrest.framesFrom with h | ⟨other, hother, h⟩
      · rw [h, hframes]
        rcases Nat.le_total first.reach.frames
          ((graph.survey (.sub call.callee) chain first.settled).reach.frames + 1) with hle | hle
        · exact .inr ⟨call, List.mem_cons_self, _, hfirst, Nat.max_eq_right hle⟩
        · exact .inl (Nat.max_eq_left hle)
      · exact .inr ⟨other, List.mem_cons_of_mem _ hother, h⟩

theorem folded_surveyCalls {chain : List Routine} {Kept : Std.TreeMap Routine Reach → Prop}
    {settled : Std.TreeMap Routine Reach} (usage : Usage) (hsettled : Kept settled)
    (hkeeps : ∀ call ∈ usage.calls, ∀ settled, Kept settled →
      Kept (graph.survey (.sub call.callee) (routine :: chain) settled).settled) :
    Folded graph (routine :: chain) Kept usage.calls.reverse
      { reach := { peak := usage.peak }, settled }
      (graph.surveyCalls routine chain settled usage) :=
  folded_foldl hsettled fun call hcall => hkeeps call (List.mem_reverse.1 hcall)

/-! ### The survey misses no chain -/

/-- A chain keeps to the reach that a survey found, or it runs into an active routine at which
the survey was cut. -/
def Survey.Covers (graph : CallGraph) (routine : Routine) (chain : List Routine)
    (survey : Survey) : Prop :=
  ∀ calls, graph.IsChain routine calls →
    (graph.rise routine calls ≤ survey.reach.peak ∧ calls.length ≤ survey.reach.frames) ∨
      ∃ caller ∈ callers routine calls, ∃ place,
        placeIn caller chain = some place ∧ survey.cut.any (· ≤ place) = true

/-- Every result that is kept bounds the chains from its routine. -/
def Settled (graph : CallGraph) (settled : Std.TreeMap Routine Reach) : Prop :=
  ∀ routine reach, settled[routine]? = some reach → graph.Bounds routine reach

theorem placeIn_lt {chain : List Routine} {place : Nat} (h : placeIn routine chain = some place) :
    place < chain.length := by
  induction chain with
  | nil => cases h
  | cons other chain ih =>
    unfold placeIn at h
    split at h
    · injection h with h
      rw [List.length_cons]
      omega
    · have hlt := ih h
      rw [List.length_cons]
      omega

theorem any_lt_of_any_le {cut : Option Nat} {place bound : Nat} (hlt : place < bound)
    (h : cut.any (· ≤ place) = true) : cut.any (· < bound) = true := by
  cases cut with
  | none => cases h
  | some cut =>
    simp only [Option.any_some, decide_eq_true_eq] at h ⊢
    omega

theorem covers_of_folded {chain : List Routine} {Kept : Std.TreeMap Routine Reach → Prop}
    {usage : Usage} {settled : Std.TreeMap Routine Reach} {survey : Survey}
    (husage : graph[routine]? = some usage)
    (hcovers : ∀ callee settled, Kept settled →
      (graph.survey callee (routine :: chain) settled).Covers graph callee (routine :: chain))
    (hfolded : Folded graph (routine :: chain) Kept usage.calls.reverse
      { reach := { peak := usage.peak }, settled } survey) :
    survey.Covers graph routine chain := by
  intro calls hchain
  cases calls with
  | nil =>
    refine .inl ⟨?_, Nat.zero_le _⟩
    rw [rise, usage_of_getElem? husage]
    exact hfolded.peak
  | cons call rest =>
    obtain ⟨hcall, hnew, hrest⟩ := isChain_cons.1 hchain
    rw [usage_of_getElem? husage] at hcall
    obtain ⟨settled', hkept, hpeak, hframes, hcut⟩ :=
      hfolded.each call (List.mem_reverse.2 hcall)
    rcases hcovers (.sub call.callee) settled' hkept rest hrest with
      ⟨hrise, hlength⟩ | ⟨caller, hcaller, place, hplace, hany⟩
    · refine .inl ⟨?_, ?_⟩
      · rw [rise]
        omega
      · rw [List.length_cons]
        omega
    · -- The caller is not the routine itself, which does not call twice.
      have hne : routine ≠ caller := by
        rintro rfl
        exact hnew hcaller
      rw [placeIn, if_neg hne] at hplace
      exact .inr ⟨caller, List.mem_cons_of_mem _ hcaller, place, hplace, hcut place hany⟩

theorem bounds_of_covers {chain : List Routine} {survey : Survey}
    (h : survey.Covers graph routine chain)
    (hcut : survey.cut.any (· < chain.length) = false) : graph.Bounds routine survey.reach := by
  intro calls hchain
  rcases h calls hchain with h | ⟨caller, -, place, hplace, hany⟩
  · exact h
  · rw [any_lt_of_any_le (placeIn_lt hplace) hany] at hcut
    cases hcut

/-- **The survey misses no chain,** and all it keeps bounds all chains. -/
theorem covers_survey (graph : CallGraph) :
    ∀ routine chain settled, graph.Settled settled →
      (graph.survey routine chain settled).Covers graph routine chain ∧
        graph.Settled (graph.survey routine chain settled).settled := by
  refine survey_induction graph ?_ ?_ ?_ ?_
  · intro routine chain settled reach hkept hsettled
    rw [survey_of_settled hkept]
    exact ⟨fun calls hchain => .inl (hsettled routine reach hkept calls hchain), hsettled⟩
  · intro routine chain settled hnone hunknown hsettled
    rw [survey_of_unknown hnone hunknown]
    refine ⟨?_, hsettled⟩
    intro calls hchain
    cases calls with
    | nil => exact .inl ⟨Nat.le_of_eq (congrArg Usage.peak (usage_of_none hunknown)), Nat.le_refl _⟩
    | cons call rest =>
      have hcall := (isChain_cons.1 hchain).1
      rw [usage_of_none hunknown] at hcall
      cases hcall
  · intro routine chain settled usage place hnone husage hplace hsettled
    rw [survey_of_active hnone husage hplace]
    refine ⟨?_, hsettled⟩
    intro calls hchain
    cases calls with
    | nil =>
      have hpeak : (graph.usage routine).peak = usage.peak := by rw [usage_of_getElem? husage]
      exact .inl ⟨Nat.le_of_eq hpeak, Nat.le_refl _⟩
    | cons call rest => exact .inr ⟨routine, List.mem_cons_self, place, hplace, by simp⟩
  · intro routine chain settled usage hnone husage hnew ih hsettled
    have hfolded := folded_surveyCalls usage hsettled
      fun call _ settled h => (ih (.sub call.callee) settled h).2
    have hcovers := covers_of_folded husage (fun callee settled h => (ih callee settled h).1)
      hfolded
    rw [survey_of_new hnone husage (placeIn_eq_none.2 hnew), Survey.close]
    cases hcut : (graph.surveyCalls routine chain settled usage).cut.any (· < chain.length) with
    | true => exact ⟨hcovers, hfolded.settled⟩
    | false =>
      have hbounds := bounds_of_covers hcovers hcut
      refine ⟨fun calls hchain => .inl (hbounds calls hchain), ?_⟩
      intro other reach hother
      rw [if_neg (by simp), Std.TreeMap.getElem?_insert] at hother
      split at hother
      · next heq =>
        rw [Std.LawfulEqCmp.compare_eq_iff_eq] at heq
        injection hother with hother
        exact heq ▸ hother ▸ hbounds
      · exact hfolded.settled other reach hother

/-- **What the survey finds of the main routine bounds every chain from there.** -/
theorem bounds_survey (graph : CallGraph) : graph.Bounds .main (graph.survey .main [] ∅).reach := by
  have hempty : graph.Settled ∅ := by
    intro routine reach h
    simp at h
  exact bounds_of_covers (covers_survey graph .main [] ∅ hempty).1 (by
    cases (graph.survey .main [] ∅).cut <;> simp)

/-- Where both ceilings hold, the highest depth is what the survey finds. -/
theorem highestDepth_eq_ok {depth : Nat} (h : graph.highestDepth = .ok depth) :
    depth = (graph.survey .main [] ∅).reach.peak ∧ depth ≤ stackCapacity ∧
      (graph.survey .main [] ∅).reach.frames ≤ stackCapacity := by
  unfold highestDepth at h
  dsimp only at h
  split at h
  · cases h
  · next hpeak =>
    split at h
    · cases h
    · next hframes =>
      cases h
      exact ⟨rfl, Nat.le_of_not_lt hpeak, Nat.le_of_not_lt hframes⟩

end CallGraph

end EvmSafety
