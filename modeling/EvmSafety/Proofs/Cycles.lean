/-
Where the survey is exact.

A result that is kept is used again on any chain.  That is right as long as the chain holds
none of the routines that the result was reached through; if it holds one, the chain that is
put together runs through that routine twice, and the survey finds more than any chain has.

Such a reuse takes a cycle of calls that is entered at two places: at the first, the result is
kept, and from the second the chain comes back to it.  Where every cycle is entered at one
routine from outside, no routine of a cycle is kept while another one is active, and what the
survey finds is what the chains have, in whatever order the calls were noted.
-/
import EvmSafety.Proofs.Chains
import EvmSafety.Validation
import Mathlib.Order.Bounds.Basic
import Mathlib.Order.ConditionallyCompleteLattice.Basic
import Mathlib.Order.Lattice.Nat
import Mathlib.Logic.Relation

namespace EvmSafety

namespace CallGraph

/-! ### Cycles -/

/-- The first routine calls the second. -/
def Edge (graph : CallGraph) (routine callee : Routine) : Prop :=
  ∃ call ∈ (graph.usage routine).calls, Routine.sub call.callee = callee

/-- Calls lead from the first routine to the second. -/
def Leads (graph : CallGraph) : Routine → Routine → Prop :=
  Relation.ReflTransGen graph.Edge

/-- The two routines are on a cycle of calls, or are one. -/
def Mutual (graph : CallGraph) (routine other : Routine) : Prop :=
  graph.Leads routine other ∧ graph.Leads other routine

/-- The routine is entered from outside its cycles: when the program starts, or by a routine
to which it does not lead back. -/
def Enters (graph : CallGraph) (routine : Routine) : Prop :=
  routine = .main ∨ ∃ caller, graph.Edge caller routine ∧ ¬ graph.Leads routine caller

/-- No cycle is entered from outside at two routines. -/
def EntersCyclesOnce (graph : CallGraph) : Prop :=
  ∀ routine other, graph.Mutual routine other → graph.Enters routine → graph.Enters other →
    routine = other

variable {graph : CallGraph} {routine : Routine}

theorem leads_endpoint :
    ∀ {routine : Routine} {calls : List Call}, graph.Noted routine calls →
      graph.Leads routine (endpoint routine calls)
  | _, [], _ => .refl
  | _, call :: _, ⟨hcall, hrest⟩ => .head ⟨call, hcall, rfl⟩ (leads_endpoint hrest)

theorem leads_of_mem_callers {caller : Routine} :
    ∀ {routine : Routine} {calls : List Call}, graph.Noted routine calls →
      caller ∈ callers routine calls → graph.Leads routine caller
  | _, [], _, h => absurd h List.not_mem_nil
  | routine, call :: rest, ⟨hcall, hrest⟩, h => by
    rcases List.mem_cons.1 h with rfl | h
    · exact .refl
    · exact .head ⟨call, hcall, rfl⟩ (leads_of_mem_callers hrest h)

/-! ### Chains that lead somewhere -/

/-- From each caller on a chain, the rest of it is a chain. -/
theorem exists_chain_from {caller : Routine} :
    ∀ {routine : Routine} {calls : List Call}, graph.IsChain routine calls →
      caller ∈ callers routine calls →
      ∃ rest, graph.IsChain caller rest ∧ endpoint caller rest = endpoint routine calls
  | _, [], _, h => absurd h List.not_mem_nil
  | routine, call :: rest, hchain, h => by
    rcases List.mem_cons.1 h with rfl | h
    · exact ⟨call :: rest, hchain, rfl⟩
    · obtain ⟨short, hshort, hend⟩ := exists_chain_from (isChain_cons.1 hchain).2.2 h
      exact ⟨short, hshort, hend⟩

/-- Where calls lead, a chain does. -/
theorem exists_chain_of_leads {other : Routine} (h : graph.Leads routine other) :
    ∃ calls, graph.IsChain routine calls ∧ endpoint routine calls = other := by
  induction h using Relation.ReflTransGen.head_induction_on with
  | refl => exact ⟨[], isChain_nil, rfl⟩
  | @head routine next hedge _ ih =>
    obtain ⟨call, hcall, rfl⟩ := hedge
    obtain ⟨rest, hrest, hend⟩ := ih
    by_cases hmem : routine ∈ callers (.sub call.callee) rest
    · obtain ⟨short, hshort, hshortEnd⟩ := exists_chain_from hrest hmem
      exact ⟨short, hshort, hshortEnd.trans hend⟩
    · exact ⟨call :: rest, isChain_cons.2 ⟨hcall, hmem, hrest⟩, hend⟩

/-- A chain that ends in a set of routines first comes there by a chain outside of it. -/
theorem exists_chain_until (set : List Routine) :
    ∀ {routine : Routine} {calls : List Call}, graph.IsChain routine calls →
      endpoint routine calls ∈ set →
      ∃ first, graph.IsChain routine first ∧ endpoint routine first ∈ set ∧
        (∀ caller ∈ callers routine first, caller ∉ set) ∧
        ∀ caller ∈ callers routine first, caller ∈ callers routine calls
  | _, [], _, hend => ⟨[], isChain_nil, hend, by simp [callers], by simp [callers]⟩
  | routine, call :: rest, hchain, hend => by
    by_cases hmem : routine ∈ set
    · exact ⟨[], isChain_nil, hmem, by simp [callers], by simp [callers]⟩
    · obtain ⟨hcall, hnew, hrest⟩ := isChain_cons.1 hchain
      obtain ⟨first, hfirst, hfirstEnd, hoff, hsub⟩ := exists_chain_until set hrest hend
      refine ⟨call :: first, isChain_cons.2 ⟨hcall, fun h => hnew (hsub _ h), hfirst⟩,
        hfirstEnd, ?_, ?_⟩
      · intro caller hcaller
        rcases List.mem_cons.1 hcaller with rfl | hcaller
        · exact hmem
        · exact hoff caller hcaller
      · intro caller hcaller
        rcases List.mem_cons.1 hcaller with rfl | hcaller
        · exact List.mem_cons_self
        · exact List.mem_cons_of_mem _ (hsub caller hcaller)

/-! ### What the survey keeps -/

/-- A chain from the routine in which none of the active ones calls. -/
def IsChainOff (graph : CallGraph) (chain : List Routine) (routine : Routine)
    (calls : List Call) : Prop :=
  graph.IsChain routine calls ∧ ∀ caller ∈ callers routine calls, caller ∉ chain

/-- Some chain from the routine, outside the active ones, rises as high as the reach says, and
some opens that many frames. -/
structure Attained (graph : CallGraph) (chain : List Routine) (routine : Routine)
    (reach : Reach) : Prop where
  peak : ∃ calls, graph.IsChainOff chain routine calls ∧ graph.rise routine calls = reach.peak
  frames : ∃ calls, graph.IsChainOff chain routine calls ∧ calls.length = reach.frames

/-- A survey is cut at every active routine to which it leads. -/
def CutsAt (graph : CallGraph) (routine : Routine) (chain : List Routine)
    (survey : Survey) : Prop :=
  ∀ calls, graph.IsChainOff chain routine calls → endpoint routine calls ∈ chain →
    ∃ place, placeIn (endpoint routine calls) chain = some place ∧
      survey.cut.any (· ≤ place) = true

/-- A routine is about to be surveyed at the end of a chain of active ones. -/
structure Active (graph : CallGraph) (chain : List Routine) (routine : Routine) : Prop where
  known : ∀ other ∈ chain, graph[other]? ≠ none
  leads : ∀ other ∈ chain, graph.Leads other routine
  called : routine = .main ∨ ∃ caller ∈ chain, graph.Edge caller routine

/-- What is kept while these routines are active. -/
structure Kept (graph : CallGraph) (chain : List Routine)
    (settled : Std.TreeMap Routine Reach) : Prop where
  /-- It is apart from the cycles of the active ones. -/
  apart : ∀ routine reach, settled[routine]? = some reach → ∀ other ∈ chain,
    ¬ graph.Mutual routine other
  /-- Only the routine at which a cycle is entered is kept. -/
  enters : ∀ routine reach, settled[routine]? = some reach → graph.Enters routine
  /-- What is kept of it is what some chain has. -/
  attained : ∀ routine reach, settled[routine]? = some reach → graph.Attained [] routine reach

/-- What a survey finds, given what was kept before. -/
structure Exact (graph : CallGraph) (routine : Routine) (chain : List Routine)
    (survey : Survey) : Prop where
  kept : graph.Kept chain survey.settled
  attained : graph.Attained chain routine survey.reach
  cuts : graph.CutsAt routine chain survey

variable {chain : List Routine} {settled : Std.TreeMap Routine Reach}

theorem isChainOff_nil : graph.IsChainOff chain routine [] :=
  ⟨isChain_nil, fun _ h => absurd h List.not_mem_nil⟩

theorem isChainOff_cons {call : Call} {rest : List Call} :
    graph.IsChainOff chain routine (call :: rest) ↔
      call ∈ (graph.usage routine).calls ∧ routine ∉ chain ∧
        graph.IsChainOff (routine :: chain) (.sub call.callee) rest := by
  constructor
  · rintro ⟨hchain, hoff⟩
    obtain ⟨hcall, hnew, hrest⟩ := isChain_cons.1 hchain
    refine ⟨hcall, hoff routine List.mem_cons_self, hrest, ?_⟩
    intro caller hcaller hmem
    rcases List.mem_cons.1 hmem with rfl | hmem
    · exact hnew hcaller
    · exact hoff caller (List.mem_cons_of_mem _ hcaller) hmem
  · rintro ⟨hcall, hnew, hrest, hoff⟩
    refine ⟨isChain_cons.2 ⟨hcall, fun h => hoff routine h List.mem_cons_self, hrest⟩, ?_⟩
    intro caller hcaller
    rcases List.mem_cons.1 hcaller with rfl | hcaller
    · exact hnew
    · exact fun hmem => hoff caller hcaller (List.mem_cons_of_mem _ hmem)

/-- What a routine does by itself is attained by the chain without calls. -/
theorem attained_nil (graph : CallGraph) (chain : List Routine) (routine : Routine) :
    graph.Attained chain routine { peak := (graph.usage routine).peak } :=
  ⟨⟨[], isChainOff_nil, rfl⟩, ⟨[], isChainOff_nil, rfl⟩⟩

/-- Chains are no longer held off where fewer routines are active. -/
theorem Attained.of_nil {reach : Reach} (h : graph.Attained chain routine reach) :
    graph.Attained [] routine reach := by
  obtain ⟨⟨calls, hchain, hrise⟩, ⟨calls', hchain', hlength⟩⟩ := h
  exact ⟨⟨calls, ⟨hchain.1, by simp⟩, hrise⟩, ⟨calls', ⟨hchain'.1, by simp⟩, hlength⟩⟩

theorem Active.cons (h : graph.Active chain routine) {usage : Usage}
    (husage : graph[routine]? = some usage) {call : Call} (hcall : call ∈ usage.calls) :
    graph.Active (routine :: chain) (.sub call.callee) := by
  have hedge : graph.Edge routine (.sub call.callee) :=
    ⟨call, by rwa [usage_of_getElem? husage], rfl⟩
  refine ⟨?_, ?_, .inr ⟨routine, List.mem_cons_self, hedge⟩⟩
  · intro other hother
    rcases List.mem_cons.1 hother with rfl | hother
    · simp [husage]
    · exact h.known other hother
  · intro other hother
    rcases List.mem_cons.1 hother with rfl | hother
    · exact .single hedge
    · exact (h.leads other hother).tail hedge

/-- Where a cycle is entered once, a routine that is not kept becomes active with none of its
cycle kept. -/
theorem Kept.cons (honce : graph.EntersCyclesOnce) (h : graph.Kept chain settled)
    (hactive : graph.Active chain routine) (hnone : settled[routine]? = none) :
    graph.Kept (routine :: chain) settled := by
  refine ⟨?_, h.enters, h.attained⟩
  intro kept reach hkept other hother hmutual
  rcases List.mem_cons.1 hother with rfl | hother
  · -- The routine that is kept is the one at which the cycle of the new one is entered.
    have hne : ¬ graph.Enters other := by
      intro henters
      obtain rfl := honce kept other hmutual (h.enters kept reach hkept) henters
      rw [hkept] at hnone
      cases hnone
    rcases hactive.called with hmain | ⟨caller, hcaller, hedge⟩
    · exact hne (.inl hmain)
    · by_cases hleads : graph.Leads other caller
      · exact h.apart kept reach hkept caller hcaller
          ⟨hmutual.1.trans hleads, .head hedge hmutual.2⟩
      · exact hne (.inr ⟨caller, hedge, hleads⟩)
  · exact h.apart kept reach hkept other hother hmutual

theorem Kept.of_cons (h : graph.Kept (routine :: chain) settled) : graph.Kept chain settled :=
  ⟨fun kept reach hkept other hother =>
    h.apart kept reach hkept other (List.mem_cons_of_mem _ hother), h.enters, h.attained⟩

/-! ### One survey -/

theorem exact_of_settled (h : graph.Kept chain settled) (hactive : graph.Active chain routine)
    {reach : Reach} (hkept : settled[routine]? = some reach) :
    graph.Exact routine chain { reach, settled } := by
  have hapart {other : Routine} (hleads : graph.Leads routine other) : other ∉ chain := by
    intro hother
    exact h.apart routine reach hkept other hother ⟨hleads, hactive.leads other hother⟩
  have hoff {calls : List Call} (hchain : graph.IsChainOff [] routine calls) :
      graph.IsChainOff chain routine calls :=
    ⟨hchain.1, fun _ hcaller => hapart (leads_of_mem_callers hchain.1.noted hcaller)⟩
  refine ⟨h, ⟨?_, ?_⟩, ?_⟩
  · obtain ⟨calls, hchain, hrise⟩ := (h.attained routine reach hkept).peak
    exact ⟨calls, hoff hchain, hrise⟩
  · obtain ⟨calls, hchain, hlength⟩ := (h.attained routine reach hkept).frames
    exact ⟨calls, hoff hchain, hlength⟩
  · intro calls hchain hend
    exact absurd hend (hapart (leads_endpoint hchain.1.noted))

theorem exact_of_unknown (h : graph.Kept chain settled) (hactive : graph.Active chain routine)
    (hunknown : graph[routine]? = none) :
    graph.Exact routine chain { reach := {}, settled } := by
  have hattained := attained_nil graph chain routine
  rw [usage_of_none hunknown] at hattained
  refine ⟨h, hattained, ?_⟩
  intro calls hchain hend
  cases calls with
  | nil => exact absurd hunknown (hactive.known routine hend)
  | cons call rest =>
    have hcall := (isChainOff_cons.1 hchain).1
    rw [usage_of_none hunknown] at hcall
    cases hcall

theorem exact_of_active (h : graph.Kept chain settled) {usage : Usage} {place : Nat}
    (husage : graph[routine]? = some usage) (hplace : placeIn routine chain = some place) :
    graph.Exact routine chain
      { reach := { peak := usage.peak }, cut := some place, settled } := by
  have hmem : routine ∈ chain := by
    by_contra hnot
    rw [placeIn_eq_none.2 hnot] at hplace
    cases hplace
  have hattained := attained_nil graph chain routine
  rw [usage_of_getElem? husage] at hattained
  refine ⟨h, hattained, ?_⟩
  intro calls hchain _
  cases calls with
  | nil => exact ⟨place, hplace, by simp⟩
  | cons call rest => exact absurd hmem (isChainOff_cons.1 hchain).2.1

/-- A survey of the callees attains what it finds if the survey of each one does: a chain from
a callee, outside the active routines, is one from the routine itself. -/
theorem attained_of_folded {usage : Usage} {survey : Survey}
    (husage : graph[routine]? = some usage) (hnew : routine ∉ chain)
    (hexact : ∀ call ∈ usage.calls, ∀ settled, graph.Kept (routine :: chain) settled →
      graph.Exact (.sub call.callee) (routine :: chain)
        (graph.survey (.sub call.callee) (routine :: chain) settled))
    (hfolded : Folded graph (routine :: chain) (graph.Kept (routine :: chain))
      usage.calls.reverse { reach := { peak := usage.peak }, settled } survey) :
    graph.Attained chain routine survey.reach := by
  have hcalls {call : Call} (hcall : call ∈ usage.calls.reverse) :
      call ∈ (graph.usage routine).calls := by
    rw [usage_of_getElem? husage]
    exact List.mem_reverse.1 hcall
  constructor
  · rcases hfolded.peakFrom with h | ⟨call, hcall, settled', hkept, h⟩
    · refine ⟨[], isChainOff_nil, ?_⟩
      rw [h, rise, usage_of_getElem? husage]
    · obtain ⟨rest, hrest, hrise⟩ :=
        (hexact call (List.mem_reverse.1 hcall) settled' hkept).attained.peak
      exact ⟨call :: rest, isChainOff_cons.2 ⟨hcalls hcall, hnew, hrest⟩, by rw [h, rise, hrise]⟩
  · rcases hfolded.framesFrom with h | ⟨call, hcall, settled', hkept, h⟩
    · exact ⟨[], isChainOff_nil, h.symm⟩
    · obtain ⟨rest, hrest, hlength⟩ :=
        (hexact call (List.mem_reverse.1 hcall) settled' hkept).attained.frames
      exact ⟨call :: rest, isChainOff_cons.2 ⟨hcalls hcall, hnew, hrest⟩,
        by rw [h, List.length_cons, hlength]⟩

theorem cuts_of_folded {usage : Usage} {survey : Survey}
    (husage : graph[routine]? = some usage) (hnew : routine ∉ chain)
    (hexact : ∀ call ∈ usage.calls, ∀ settled, graph.Kept (routine :: chain) settled →
      graph.Exact (.sub call.callee) (routine :: chain)
        (graph.survey (.sub call.callee) (routine :: chain) settled))
    (hfolded : Folded graph (routine :: chain) (graph.Kept (routine :: chain))
      usage.calls.reverse { reach := { peak := usage.peak }, settled } survey) :
    graph.CutsAt routine chain survey := by
  intro calls hchain hend
  cases calls with
  | nil => exact absurd hend hnew
  | cons call rest =>
    obtain ⟨hcall, -, hrest⟩ := isChainOff_cons.1 hchain
    rw [usage_of_getElem? husage] at hcall
    obtain ⟨settled', hkept, -, -, hcut⟩ := hfolded.each call (List.mem_reverse.2 hcall)
    obtain ⟨place, hplace, hany⟩ :=
      (hexact call hcall settled' hkept).cuts rest hrest (List.mem_cons_of_mem _ hend)
    have hne : routine ≠ endpoint (.sub call.callee) rest := by
      intro heq
      rw [heq] at hnew
      exact hnew hend
    rw [placeIn, if_neg hne] at hplace
    exact ⟨place, hplace, hcut place hany⟩

/-- A routine that is not cut above its place leads to no active one, and may be kept. -/
theorem exact_close {survey : Survey} (hactive : graph.Active chain routine)
    (hkept : graph.Kept (routine :: chain) survey.settled)
    (hattained : graph.Attained chain routine survey.reach)
    (hcuts : graph.CutsAt routine chain survey) :
    graph.Exact routine chain (survey.close routine chain.length) := by
  unfold Survey.close
  cases hcut : survey.cut.any (· < chain.length) with
  | true => exact ⟨hkept.of_cons, hattained, hcuts⟩
  | false =>
    have hapart : ∀ other ∈ chain, ¬ graph.Leads routine other := by
      intro other hother hleads
      obtain ⟨calls, hchain, rfl⟩ := exists_chain_of_leads hleads
      obtain ⟨first, hfirst, hend, hoff, -⟩ := exists_chain_until chain hchain hother
      obtain ⟨place, hplace, hany⟩ := hcuts first ⟨hfirst, hoff⟩ hend
      rw [any_lt_of_any_le (placeIn_lt hplace) hany] at hcut
      cases hcut
    have henters : graph.Enters routine := by
      rcases hactive.called with hmain | ⟨caller, hcaller, hedge⟩
      · exact .inl hmain
      · exact .inr ⟨caller, hedge, hapart caller hcaller⟩
    -- What holds of the routine and of everything kept before holds of everything kept now.
    have hinsert {P : Routine → Reach → Prop} (hself : P routine survey.reach)
        (hrest : ∀ other reach, survey.settled[other]? = some reach → P other reach) :
        ∀ other reach, (survey.settled.insert routine survey.reach)[other]? = some reach →
          P other reach := by
      intro other reach hother
      rw [Std.TreeMap.getElem?_insert] at hother
      split at hother
      · next heq =>
        rw [Std.LawfulEqCmp.compare_eq_iff_eq] at heq
        injection hother with hother
        exact heq ▸ hother ▸ hself
      · exact hrest other reach hother
    rw [if_neg (by simp)]
    refine ⟨⟨?_, ?_, ?_⟩, hattained, ?_⟩
    · refine hinsert (P := fun kept _ => ∀ other ∈ chain, ¬ graph.Mutual kept other)
        (fun other hother hmutual => hapart other hother hmutual.1) ?_
      exact hkept.of_cons.apart
    · exact hinsert (P := fun kept _ => graph.Enters kept) henters hkept.enters
    · exact hinsert (P := fun kept reach => graph.Attained [] kept reach) hattained.of_nil
        hkept.attained
    · intro calls hchain hend
      exact absurd (leads_endpoint hchain.1.noted) (hapart _ hend)

/-- **Where every cycle is entered once, the survey finds what some chain has.** -/
theorem exact_survey (graph : CallGraph) (honce : graph.EntersCyclesOnce) :
    ∀ routine chain settled, graph.Kept chain settled → graph.Active chain routine →
      graph.Exact routine chain (graph.survey routine chain settled) := by
  refine survey_induction graph ?_ ?_ ?_ ?_
  · intro routine chain settled reach hkept h hactive
    rw [survey_of_settled hkept]
    exact exact_of_settled h hactive hkept
  · intro routine chain settled hnone hunknown h hactive
    rw [survey_of_unknown hnone hunknown]
    exact exact_of_unknown h hactive hunknown
  · intro routine chain settled usage place hnone husage hplace h hactive
    rw [survey_of_active hnone husage hplace]
    exact exact_of_active h husage hplace
  · intro routine chain settled usage hnone husage hnew ih h hactive
    have hexact : ∀ call ∈ usage.calls, ∀ settled, graph.Kept (routine :: chain) settled →
        graph.Exact (.sub call.callee) (routine :: chain)
          (graph.survey (.sub call.callee) (routine :: chain) settled) :=
      fun call hcall settled hkept => ih _ settled hkept (hactive.cons husage hcall)
    have hfolded := folded_surveyCalls usage (h.cons honce hactive hnone)
      fun call hcall settled hkept => (hexact call hcall settled hkept).kept
    rw [survey_of_new hnone husage (placeIn_eq_none.2 hnew)]
    exact exact_close hactive hfolded.settled (attained_of_folded husage hnew hexact hfolded)
      (cuts_of_folded husage hnew hexact hfolded)

/-! ### The ceilings and the chains -/

/-- How high the chains from the main routine rise. -/
def rises (graph : CallGraph) : Set Nat :=
  {n | ∃ calls, graph.IsChain .main calls ∧ graph.rise .main calls = n}

/-- How many frames the chains from the main routine open. -/
def nestings (graph : CallGraph) : Set Nat :=
  {n | ∃ calls, graph.IsChain .main calls ∧ calls.length = n}

/-- The same depths and calls are noted, in whatever order. -/
def SameNotes (graph other : CallGraph) : Prop :=
  ∀ routine, (other.usage routine).peak = (graph.usage routine).peak ∧
    ∀ call, call ∈ (other.usage routine).calls ↔ call ∈ (graph.usage routine).calls

theorem exists_greatest {numbers : Set Nat} (hsome : numbers.Nonempty) {bound : Nat}
    (hbound : ∀ n ∈ numbers, n ≤ bound) : ∃ greatest, IsGreatest numbers greatest := by
  have habove : BddAbove numbers := ⟨bound, hbound⟩
  exact ⟨sSup numbers, Nat.sSup_mem hsome habove, fun n hn => le_csSup habove hn⟩

theorem le_of_mem_rises {n : Nat} (h : n ∈ graph.rises) :
    n ≤ (graph.survey .main [] ∅).reach.peak := by
  obtain ⟨calls, hchain, rfl⟩ := h
  exact (bounds_survey graph calls hchain).1

theorem le_of_mem_nestings {n : Nat} (h : n ∈ graph.nestings) :
    n ≤ (graph.survey .main [] ∅).reach.frames := by
  obtain ⟨calls, hchain, rfl⟩ := h
  exact (bounds_survey graph calls hchain).2

theorem isGreatest_of_entersCyclesOnce (honce : graph.EntersCyclesOnce) :
    IsGreatest graph.rises (graph.survey .main [] ∅).reach.peak ∧
      IsGreatest graph.nestings (graph.survey .main [] ∅).reach.frames := by
  have hkept : graph.Kept [] ∅ := by
    constructor <;> intro routine reach h <;> simp at h
  have hactive : graph.Active [] .main := ⟨by simp, by simp, .inl rfl⟩
  obtain ⟨⟨calls, hchain, hrise⟩, ⟨calls', hchain', hlength⟩⟩ :=
    (exact_survey graph honce .main [] ∅ hkept hactive).attained
  exact ⟨⟨⟨calls, hchain.1, hrise⟩, fun _ => le_of_mem_rises⟩,
    ⟨⟨calls', hchain'.1, hlength⟩, fun _ => le_of_mem_nestings⟩⟩

theorem highestDepth_of_le (hpeak : (graph.survey .main [] ∅).reach.peak ≤ stackCapacity)
    (hframes : (graph.survey .main [] ∅).reach.frames ≤ stackCapacity) :
    graph.highestDepth = .ok (graph.survey .main [] ∅).reach.peak := by
  unfold highestDepth
  dsimp only
  rw [if_neg (Nat.not_lt.2 hpeak), if_neg (Nat.not_lt.2 hframes)]

theorem exists_overflow (h : ¬ ((graph.survey .main [] ∅).reach.peak ≤ stackCapacity ∧
    (graph.survey .main [] ∅).reach.frames ≤ stackCapacity)) :
    ∃ overflow, graph.highestDepth = .error overflow ∧
      overflow.violation.kind = .stackOverflow := by
  unfold highestDepth
  dsimp only
  by_cases hpeak : stackCapacity < (graph.survey .main [] ∅).reach.peak
  · exact ⟨_, if_pos hpeak, rfl⟩
  · have hframes : stackCapacity < (graph.survey .main [] ∅).reach.frames := by
      by_contra hframes
      exact h ⟨Nat.le_of_not_lt hpeak, Nat.le_of_not_lt hframes⟩
    rw [if_neg hpeak]
    exact ⟨_, if_pos hframes, rfl⟩

/-! ### The order of the notes -/

section

variable {other : CallGraph}

theorem SameNotes.noted (h : graph.SameNotes other) :
    ∀ {routine : Routine} {calls : List Call},
      other.Noted routine calls ↔ graph.Noted routine calls
  | _, [] => Iff.rfl
  | routine, call :: _ => and_congr ((h routine).2 call) h.noted

theorem SameNotes.rise_eq (h : graph.SameNotes other) :
    ∀ (routine : Routine) (calls : List Call),
      other.rise routine calls = graph.rise routine calls
  | routine, [] => (h routine).1
  | _, call :: rest => congrArg (call.depth + ·) (h.rise_eq _ rest)

theorem SameNotes.isChain (h : graph.SameNotes other) {calls : List Call} :
    other.IsChain routine calls ↔ graph.IsChain routine calls :=
  ⟨fun hc => ⟨h.noted.1 hc.noted, hc.nodup⟩, fun hc => ⟨h.noted.2 hc.noted, hc.nodup⟩⟩

theorem SameNotes.rises_eq (h : graph.SameNotes other) : other.rises = graph.rises := by
  ext n
  unfold rises
  simp only [Set.mem_ofPred_eq, h.isChain, h.rise_eq]

theorem SameNotes.nestings_eq (h : graph.SameNotes other) : other.nestings = graph.nestings := by
  ext n
  unfold nestings
  simp only [Set.mem_ofPred_eq, h.isChain]

theorem SameNotes.entersCyclesOnce (h : graph.SameNotes other) (honce : graph.EntersCyclesOnce) :
    other.EntersCyclesOnce := by
  have hedge : other.Edge = graph.Edge := by
    funext caller callee
    unfold Edge
    simp only [(h caller).2]
  unfold EntersCyclesOnce Mutual Enters Leads at honce ⊢
  rwa [hedge]

/-- Where every cycle is entered once, the order of the notes makes no difference. -/
theorem SameNotes.highestDepth_eq (h : graph.SameNotes other) (honce : graph.EntersCyclesOnce) :
    other.highestDepth.toOption = graph.highestDepth.toOption := by
  obtain ⟨hpeak, hframes⟩ := isGreatest_of_entersCyclesOnce honce
  obtain ⟨hpeak', hframes'⟩ := isGreatest_of_entersCyclesOnce (h.entersCyclesOnce honce)
  rw [h.rises_eq] at hpeak'
  rw [h.nestings_eq] at hframes'
  have hsamePeak := hpeak'.unique hpeak
  have hsameFrames := hframes'.unique hframes
  by_cases hle : (graph.survey .main [] ∅).reach.peak ≤ stackCapacity ∧
      (graph.survey .main [] ∅).reach.frames ≤ stackCapacity
  · rw [highestDepth_of_le hle.1 hle.2,
      highestDepth_of_le (hsamePeak ▸ hle.1) (hsameFrames ▸ hle.2), hsamePeak]
  · obtain ⟨overflow, hoverflow, -⟩ := exists_overflow hle
    rw [← hsamePeak, ← hsameFrames] at hle
    obtain ⟨overflow', hoverflow', -⟩ := exists_overflow hle
    rw [hoverflow, hoverflow']
    rfl

end

/-- **The ceilings against the chains.**  The depth that is reported is never below what a
chain needs, and where a chain needs more than there is, a stack overflow is.  Where every
cycle is entered once, the depth is exactly what the highest chain needs, nothing else is
refused, and the order of the notes makes no difference. -/
theorem highestDepth_spec (graph : CallGraph) :
    ∃ highest longest, IsGreatest graph.rises highest ∧ IsGreatest graph.nestings longest ∧
      (∀ depth, graph.highestDepth = .ok depth → highest ≤ depth ∧ depth ≤ stackCapacity) ∧
      (¬ (highest ≤ stackCapacity ∧ longest ≤ stackCapacity) →
        ∃ overflow, graph.highestDepth = .error overflow ∧
          overflow.violation.kind = .stackOverflow) ∧
      (graph.EntersCyclesOnce →
        (highest ≤ stackCapacity ∧ longest ≤ stackCapacity → graph.highestDepth = .ok highest) ∧
        ∀ other, graph.SameNotes other →
          other.highestDepth.toOption = graph.highestDepth.toOption) := by
  obtain ⟨highest, hhighest⟩ : ∃ greatest, IsGreatest graph.rises greatest :=
    exists_greatest ⟨_, [], isChain_nil, rfl⟩ fun _ => le_of_mem_rises
  obtain ⟨longest, hlongest⟩ : ∃ greatest, IsGreatest graph.nestings greatest :=
    exists_greatest ⟨_, [], isChain_nil, rfl⟩ fun _ => le_of_mem_nestings
  have hle := le_of_mem_rises hhighest.1
  have hle' := le_of_mem_nestings hlongest.1
  refine ⟨highest, longest, hhighest, hlongest, ?_, ?_, ?_⟩
  · intro depth hdepth
    obtain ⟨rfl, hlimit, -⟩ := highestDepth_eq_ok hdepth
    exact ⟨hle, hlimit⟩
  · intro hneeds
    apply exists_overflow
    intro hfits
    exact hneeds ⟨Nat.le_trans hle hfits.1, Nat.le_trans hle' hfits.2⟩
  · intro honce
    obtain ⟨hpeak, hframes⟩ := isGreatest_of_entersCyclesOnce honce
    obtain rfl := hhighest.unique hpeak
    obtain rfl := hlongest.unique hframes
    refine ⟨?_, ?_⟩
    · intro hfits
      exact highestDepth_of_le hfits.1 hfits.2
    · intro other hsame
      exact hsame.highestDepth_eq honce

/-- A routine that calls itself. -/
def recursive : CallGraph :=
  (((∅ : CallGraph).noteCall .main ⟨2, 0, 7⟩).noteCall (.sub 7) ⟨9, 1, 7⟩).noteDepth (.sub 7) 2

theorem entersCyclesOnce_recursive : recursive.EntersCyclesOnce := by
  -- Nothing is called but the routine itself.
  have hcalled {caller callee : Routine} (h : recursive.Edge caller callee) : callee = .sub 7 := by
    obtain ⟨call, hcall, rfl⟩ := h
    unfold recursive at hcall
    by_cases hself : Routine.sub 7 = caller
    · subst hself
      simp [usage_noteDepth, usage_noteCall] at hcall
      rw [hcall]
    · by_cases hmain : Routine.main = caller
      · subst hmain
        simp [usage_noteDepth, usage_noteCall] at hcall
        rw [hcall]
      · simp [usage_noteDepth, usage_noteCall, hself, hmain] at hcall
  have hentered {routine : Routine} (h : recursive.Enters routine) :
      routine = .main ∨ routine = .sub 7 := by
    rcases h with h | ⟨caller, hedge, -⟩
    · exact .inl h
    · exact .inr (hcalled hedge)
  have hmain {routine : Routine} (h : recursive.Leads routine .main) : routine = .main := by
    rcases Relation.ReflTransGen.cases_tail h with h | ⟨caller, -, hedge⟩
    · exact h.symm
    · cases hcalled hedge
  intro routine other hmutual henters henters'
  rcases hentered henters with rfl | rfl
  · exact (hmain hmutual.2).symm
  · rcases hentered henters' with rfl | rfl
    · exact hmain hmutual.1
    · rfl

/-- The highest chain of a routine that calls itself goes through it twice. -/
theorem highestDepth_recursive : recursive.EntersCyclesOnce ∧
    ∃ highest longest, IsGreatest recursive.rises highest ∧
      IsGreatest recursive.nestings longest ∧
      (highest ≤ stackCapacity ∧ longest ≤ stackCapacity →
        recursive.highestDepth = .ok highest) := by
  obtain ⟨highest, longest, hhighest, hlongest, -, -, hexact⟩ := highestDepth_spec recursive
  exact ⟨entersCyclesOnce_recursive, highest, longest, hhighest, hlongest,
    (hexact entersCyclesOnce_recursive).1⟩

/-- A program with a cycle of two routines, at `7` and at `12`, that the main routine enters
at both. -/
def twoEntrances : Code :=
  .ofBytes #[0x60, 0x07, 0xE3, 0x60, 0x0C, 0xE3, 0x00, 0x5B, 0x60, 0x0C, 0xE3, 0xE4, 0x5B, 0x34,
    0x60, 0x16, 0x57, 0x5F, 0x60, 0x07, 0xE3, 0x50, 0x5B, 0x60, 0x1B, 0xE3, 0xE4, 0x5B, 0x5F,
    0x5F, 0x5F, 0x50, 0x50, 0x50, 0xE4] .prague

theorem notes_twoEntrances :
    (Walk.start.finish twoEntrances).toOption.map
        (fun w => ([.main, .sub 7, .sub 12, .sub 27].map w.graph.usage,
          w.graph.highestDepth.toOption))
      = some ([⟨1, [⟨5, 0, 12⟩, ⟨2, 0, 7⟩]⟩, ⟨1, [⟨10, 0, 12⟩]⟩,
          ⟨2, [⟨20, 1, 7⟩, ⟨25, 0, 27⟩]⟩, ⟨3, []⟩], some 4) := by
  decide +kernel

/-- The chains of `twoEntrances` rise to three at most, but four is reported: what is kept of
the routine at `12` counts a call of the one at `7`, and is used again for that one. -/
theorem highestDepth_twoEntrances :
    ∃ last, Walk.start.finish twoEntrances = .ok last ∧ IsGreatest last.graph.rises 3 ∧
      IsGreatest last.graph.nestings 3 ∧ last.graph.highestDepth = .ok 4 := by
  have hnotes := notes_twoEntrances
  cases hfinish : Walk.start.finish twoEntrances with
  | error _ => rw [hfinish] at hnotes; cases hnotes
  | ok last =>
    rw [hfinish] at hnotes
    simp only [Except.toOption, Option.map_some, List.map_cons, List.map_nil, Option.some.injEq,
      Prod.mk.injEq, List.cons.injEq, and_true] at hnotes
    obtain ⟨⟨hmain, hseven, htwelve, hlast⟩, hdepth⟩ := hnotes
    have hchains27 {calls : List Call} (h : last.graph.IsChain (.sub 27) calls) : calls = [] := by
      cases calls with
      | nil => rfl
      | cons call rest =>
        have hcall := (isChain_cons.1 h).1
        rw [hlast] at hcall
        cases hcall
    have hchains12 {calls : List Call} (h : last.graph.IsChain (.sub 12) calls) :
        calls = [] ∨ calls = [⟨25, 0, 27⟩] ∨ calls = [⟨20, 1, 7⟩] ∨
          calls = [⟨20, 1, 7⟩, ⟨10, 0, 12⟩] := by
      cases calls with
      | nil => exact .inl rfl
      | cons call rest =>
        obtain ⟨hcall, hnew, hrest⟩ := isChain_cons.1 h
        rw [htwelve] at hcall
        rcases List.mem_cons.1 hcall with rfl | hcall
        · cases rest with
          | nil => exact .inr (.inr (.inl rfl))
          | cons call rest =>
            obtain ⟨hcall, -, hrest⟩ := isChain_cons.1 hrest
            rw [hseven] at hcall
            obtain rfl := List.mem_singleton.1 hcall
            cases rest with
            | nil => exact .inr (.inr (.inr rfl))
            | cons => simp [callers] at hnew
        · obtain rfl := List.mem_singleton.1 hcall
          rw [hchains27 hrest]
          exact .inr (.inl rfl)
    have hchains7 {calls : List Call} (h : last.graph.IsChain (.sub 7) calls) :
        calls = [] ∨ calls = [⟨10, 0, 12⟩] ∨ calls = [⟨10, 0, 12⟩, ⟨25, 0, 27⟩] ∨
          calls = [⟨10, 0, 12⟩, ⟨20, 1, 7⟩] := by
      cases calls with
      | nil => exact .inl rfl
      | cons call rest =>
        obtain ⟨hcall, hnew, hrest⟩ := isChain_cons.1 h
        rw [hseven] at hcall
        obtain rfl := List.mem_singleton.1 hcall
        rcases hchains12 hrest with rfl | rfl | rfl | rfl
        · exact .inr (.inl rfl)
        · exact .inr (.inr (.inl rfl))
        · exact .inr (.inr (.inr rfl))
        · simp [callers] at hnew
    have hbound {calls : List Call} (h : last.graph.IsChain .main calls) :
        last.graph.rise .main calls ≤ 3 ∧ calls.length ≤ 3 := by
      cases calls with
      | nil => simp [rise, hmain]
      | cons call rest =>
        obtain ⟨hcall, -, hrest⟩ := isChain_cons.1 h
        rw [hmain] at hcall
        rcases List.mem_cons.1 hcall with rfl | hcall
        · rcases hchains12 hrest with rfl | rfl | rfl | rfl <;>
            simp [rise, hseven, htwelve, hlast]
        · obtain rfl := List.mem_singleton.1 hcall
          rcases hchains7 hrest with rfl | rfl | rfl | rfl <;>
            simp [rise, hseven, htwelve, hlast]
    have hhighest : last.graph.IsChain .main [⟨2, 0, 7⟩, ⟨10, 0, 12⟩, ⟨25, 0, 27⟩] := by
      simp [isChain_cons, isChain_nil, callers, hmain, hseven, htwelve]
    refine ⟨last, rfl, ⟨⟨_, hhighest, ?_⟩, ?_⟩, ⟨⟨_, hhighest, rfl⟩, ?_⟩, ?_⟩
    · simp [rise, hlast]
    · rintro n ⟨calls, hchain, rfl⟩
      exact (hbound hchain).1
    · rintro n ⟨calls, hchain, rfl⟩
      exact (hbound hchain).2
    · cases hresult : last.graph.highestDepth with
      | error _ => rw [hresult] at hdepth; cases hdepth
      | ok depth =>
        rw [hresult] at hdepth
        injection hdepth with hdepth
        rw [hdepth]

end CallGraph

end EvmSafety
