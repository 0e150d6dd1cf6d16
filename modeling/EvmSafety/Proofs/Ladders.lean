/-
Where the survey goes through a call over and over.

A `ladder` is a cycle of routines with two ways from each to the next one: it is called twice,
and the last routine calls the first.  Each routine behind the first is cut at the first, so
nothing is kept of it, and it is gone through again for each of the two calls.  The turns
double from step to step, and the last call has `2 ^ n` of them.
-/
import EvmSafety.Proofs.Visits

namespace EvmSafety

namespace CallGraph

variable {graph : CallGraph} {routine : Routine} {chain : List Routine}

/-- What is noted of the `i`-th routine of a ladder: two calls of the next one, or, of the last
routine, one call of the first. -/
def rung (n i : Nat) : Usage where
  calls := if i < n then [⟨2 * i + 1, 0, i + 1⟩, ⟨2 * i, 0, i + 1⟩] else [⟨2 * n, 0, 0⟩]

/-- What is noted where a program calls the first of `n + 1` routines, each of which calls the
next one twice, and the last one the first. -/
def ladderNotes (n : Nat) : List (Routine × Usage) :=
  (.main, { calls := [⟨0, 0, 0⟩] }) :: (List.range (n + 1)).map fun i => (.sub i, rung n i)

/-- The call graph of that program. -/
def ladder (n : Nat) : CallGraph :=
  Std.TreeMap.ofList (ladderNotes n)

/-- The active routines when the `i`-th one of a ladder is called. -/
def descent : Nat → List Routine
  | 0 => [.main]
  | i + 1 => .sub i :: descent i

/-- The last call of a ladder. -/
def lastCall (n : Nat) : Visit :=
  (.sub n, ⟨2 * n, 0, 0⟩)

theorem pairwise_ladderNotes (n : Nat) :
    (ladderNotes n).Pairwise fun a b => ¬ compare a.1 b.1 = .eq := by
  simp only [ladderNotes, Std.LawfulEqCmp.compare_eq_iff_eq]
  refine List.pairwise_cons.2 ⟨by simp, List.pairwise_map.2 ?_⟩
  refine List.Pairwise.imp ?_ (List.nodup_range (n := n + 1))
  intro i j hne heq
  exact hne (Routine.sub.inj heq)

theorem size_ladder (n : Nat) : (ladder n).size = n + 2 := by
  rw [ladder, Std.TreeMap.size_ofList (pairwise_ladderNotes n)]
  simp [ladderNotes]

theorem getElem?_ladder_main (n : Nat) :
    (ladder n)[Routine.main]? = some { calls := [⟨0, 0, 0⟩] } :=
  Std.TreeMap.getElem?_ofList_of_mem Std.ReflCmp.compare_self (pairwise_ladderNotes n)
    List.mem_cons_self

theorem getElem?_ladder_sub {n i : Nat} (h : i ≤ n) :
    (ladder n)[Routine.sub i]? = some (rung n i) := by
  refine Std.TreeMap.getElem?_ofList_of_mem Std.ReflCmp.compare_self (pairwise_ladderNotes n) ?_
  refine List.mem_cons_of_mem _ (List.mem_map.2 ⟨i, ?_, rfl⟩)
  exact List.mem_range.2 (Nat.lt_succ_of_le h)

theorem not_mem_descent {i j : Nat} (h : i ≤ j) : Routine.sub j ∉ descent i := by
  induction i with
  | zero => simp [descent]
  | succ i ih =>
    have hne : j ≠ i := by omega
    simp [descent, hne, ih (by omega)]

theorem length_descent (i : Nat) : (descent i).length = i + 1 := by
  induction i with
  | zero => rfl
  | succ i ih => rw [descent, List.length_cons, ih]

theorem placeIn_descent (i : Nat) : placeIn (.sub 0) (descent (i + 1)) = some 1 := by
  induction i with
  | zero => rfl
  | succ i ih =>
    rw [descent, placeIn, if_neg (by simp)]
    exact ih

theorem close_of_cut {survey : Survey} {place bound : Nat} (hcut : survey.cut = some place)
    (hlt : place < bound) : survey.close routine bound = survey := by
  have hany : survey.cut.any (· < bound) = true := by
    rw [hcut, Option.any_some, decide_eq_true_eq]
    exact hlt
  rw [Survey.close, if_pos hany]

/-- A tour that keeps nothing, is cut at the first routine of a ladder, and takes so many turns
of the last call. -/
structure Climbs (n turns : Nat) (visits : List Visit) (tour : Tour) : Prop where
  settled : tour.survey.settled = ∅
  cut : tour.survey.cut = some 1
  count : tour.visits.count (lastCall n) = visits.count (lastCall n) + turns

/-- The turn of a call takes the turns of its callee. -/
theorem climbs_tourCall {n turns : Nat} {sofar : Tour} {call : Call}
    (hsettled : sofar.survey.settled = ∅)
    (hcut : sofar.survey.cut = none ∨ sofar.survey.cut = some 1)
    (h : ∀ visits, Climbs n turns visits
      (graph.tour (.sub call.callee) (routine :: chain) ∅ visits)) :
    Climbs n turns ((routine, call) :: sofar.visits)
      (graph.tourCall routine chain sofar call) := by
  have hcallee := h ((routine, call) :: sofar.visits)
  rw [← hsettled] at hcallee
  refine ⟨hcallee.settled, ?_, hcallee.count⟩
  show Option.merge min sofar.survey.cut _ = some 1
  rw [hcallee.cut]
  rcases hcut with hcut | hcut
  · rw [hcut]
    rfl
  · rw [hcut]
    rfl

/-- The two calls of the next routine take its turns twice. -/
theorem climbs_twice {n i turns : Nat} (hlt : i < n)
    (h : ∀ visits, Climbs n turns visits
      ((ladder n).tour (.sub (i + 1)) (descent (i + 1)) ∅ visits)) (visits : List Visit) :
    Climbs n (turns + turns) visits
      ((ladder n).tourCalls (.sub i) (descent i) ∅ visits (rung n i)) := by
  have hown (call : Call) (rest : List Visit) :
      ((Routine.sub i, call) :: rest).count (lastCall n) = rest.count (lastCall n) := by
    have hne : i ≠ n := Nat.ne_of_lt hlt
    exact List.count_cons_of_ne (by simp [lastCall, hne])
  have hturn {sofar : Tour} (site : Nat) (hsettled : sofar.survey.settled = ∅)
      (hcut : sofar.survey.cut = none ∨ sofar.survey.cut = some 1) :
      Climbs n turns sofar.visits
        ((ladder n).tourCall (.sub i) (descent i) sofar ⟨site, 0, i + 1⟩) := by
    obtain ⟨hsettled', hcut', hcount⟩ :=
      @climbs_tourCall (ladder n) (.sub i) (descent i) n turns sofar ⟨site, 0, i + 1⟩ hsettled
        hcut h
    rw [hown] at hcount
    exact ⟨hsettled', hcut', hcount⟩
  have hcalls : (rung n i).calls = [⟨2 * i + 1, 0, i + 1⟩, ⟨2 * i, 0, i + 1⟩] := if_pos hlt
  simp only [tourCalls, hcalls, List.reverse_cons, List.reverse_nil, List.nil_append,
    List.cons_append, List.foldl_cons, List.foldl_nil]
  have hfirst := @hturn ⟨{ reach := { peak := (rung n i).peak }, settled := ∅ }, visits⟩ (2 * i)
    rfl (.inl rfl)
  have hsecond := hturn (2 * i + 1) hfirst.settled (.inr hfirst.cut)
  refine ⟨hsecond.settled, hsecond.cut, ?_⟩
  rw [hsecond.count, hfirst.count, Nat.add_assoc]

/-- The last routine calls the first, which is active. -/
theorem climbs_last {n : Nat} (visits : List Visit) :
    Climbs n 1 visits ((ladder n).tourCalls (.sub n) (descent n) ∅ visits (rung n n)) := by
  have hfirst : ∀ visits : List Visit, Climbs n 0 visits
      ((ladder n).tour (.sub 0) (.sub n :: descent n) ∅ visits) := by
    intro visits
    have hplace : placeIn (.sub 0) (.sub n :: descent n) = some 1 := placeIn_descent n
    rw [tour_of_active (by simp) (getElem?_ladder_sub (Nat.zero_le n)) hplace]
    exact ⟨rfl, rfl, rfl⟩
  have hcalls : (rung n n).calls = [⟨2 * n, 0, 0⟩] := if_neg (Nat.lt_irrefl n)
  simp only [tourCalls, hcalls, List.reverse_cons, List.reverse_nil, List.nil_append,
    List.foldl_cons, List.foldl_nil]
  obtain ⟨hsettled, hcut, hcount⟩ := @climbs_tourCall (ladder n) (.sub n) (descent n) n 0
    ⟨{ reach := { peak := (rung n n).peak }, settled := ∅ }, visits⟩ ⟨2 * n, 0, 0⟩ rfl (.inl rfl)
    hfirst
  refine ⟨hsettled, hcut, ?_⟩
  rw [hcount]
  exact List.count_cons_self

/-- Nothing is kept of a routine behind the first one. -/
theorem climbs_tour {n i turns : Nat} (hle : i + 1 ≤ n) {visits : List Visit}
    (h : Climbs n turns visits
      ((ladder n).tourCalls (.sub (i + 1)) (descent (i + 1)) ∅ visits (rung n (i + 1)))) :
    Climbs n turns visits ((ladder n).tour (.sub (i + 1)) (descent (i + 1)) ∅ visits) := by
  have hlt : 1 < (descent (i + 1)).length := by
    rw [length_descent]
    omega
  have hnew := placeIn_eq_none.2 (not_mem_descent (Nat.le_refl (i + 1)))
  rw [tour_of_new (by simp) (getElem?_ladder_sub hle) hnew, close_of_cut h.cut hlt]
  exact h

/-- From a rung to the last one the turns double with every step. -/
theorem climbs_rung {n : Nat} :
    ∀ {rest i : Nat}, i + 1 + rest = n → ∀ visits,
      Climbs n (2 ^ rest) visits
        ((ladder n).tour (.sub (i + 1)) (descent (i + 1)) ∅ visits) := by
  intro rest
  induction rest with
  | zero =>
    intro i hn visits
    subst hn
    exact climbs_tour (Nat.le_refl _) (climbs_last visits)
  | succ rest ih =>
    intro i hn visits
    have hnext : i + 1 + 1 + rest = n := by omega
    have htwice := climbs_twice (by omega) (ih hnext) visits
    rw [← Nat.two_mul, ← Nat.pow_succ'] at htwice
    exact climbs_tour (by omega) htwice

/-- **Two ways at every step:** the last call of a ladder has `2 ^ n` turns, though there are
only two routines more than that. -/
theorem count_visits_ladder (n : Nat) :
    (ladder (n + 1)).visits.count (lastCall (n + 1)) = 2 ^ (n + 1) ∧
      (ladder (n + 1)).size = n + 3 := by
  refine ⟨?_, size_ladder (n + 1)⟩
  have hrung := @climbs_rung (n + 1) n 0 (Nat.add_comm _ _)
  have hfirst := climbs_twice (Nat.succ_pos n) hrung [(.main, ⟨0, 0, 0⟩)]
  have hnew : placeIn (.sub 0) [.main] = none := rfl
  rw [visits, List.count_reverse, tour_of_new (by simp) (getElem?_ladder_main _) rfl]
  simp only [tourCalls, List.reverse_cons, List.reverse_nil, List.nil_append, List.foldl_cons,
    List.foldl_nil, tourCall]
  rw [tour_of_new (by simp) (getElem?_ladder_sub (Nat.zero_le _)) hnew]
  have hown : [((.main, ⟨0, 0, 0⟩) : Visit)].count (lastCall (n + 1)) = 0 := by
    simp [lastCall]
  have hcount := hfirst.count
  rw [hown, ← Nat.two_mul, ← Nat.pow_succ', Nat.zero_add] at hcount
  exact hcount

/-- A program of four routines, at `5`, `20`, `35` and `50`.  Each calls the next one at two
places, as in a ladder, and the last one calls the first, at two places as well. -/
def fourRungs : Code :=
  .ofBytes #[0x61, 0x00, 0x05, 0xE3, 0x00,
    0x5B, 0x34, 0x61, 0x00, 0x0F, 0x57, 0x61, 0x00, 0x14, 0xE3, 0x5B, 0x61, 0x00, 0x14, 0xE3,
    0x5B, 0x34, 0x61, 0x00, 0x1E, 0x57, 0x61, 0x00, 0x23, 0xE3, 0x5B, 0x61, 0x00, 0x23, 0xE3,
    0x5B, 0x34, 0x61, 0x00, 0x2D, 0x57, 0x61, 0x00, 0x32, 0xE3, 0x5B, 0x61, 0x00, 0x32, 0xE3,
    0x5B, 0x34, 0x61, 0x00, 0x3C, 0x57, 0x61, 0x00, 0x05, 0xE3, 0x5B, 0x61, 0x00, 0x05, 0xE3]
    .prague

theorem notes_fourRungs :
    (Walk.start.finish fourRungs).toOption.map
        (fun w => (w.graph.size, (w.graph.usage (.sub 50)).calls,
          w.graph.visits.count (.sub 50, ⟨64, 0, 5⟩)))
      = some (5, [⟨59, 0, 5⟩, ⟨64, 0, 5⟩], 8) := by
  decide +kernel

/-- One call of `fourRungs` has eight turns, and there are five routines. -/
theorem count_visits_fourRungs :
    ∃ last, Walk.start.finish fourRungs = .ok last ∧ last.graph.size = 5 ∧
      (last.graph.usage (.sub 50)).calls.count ⟨64, 0, 5⟩ = 1 ∧
      last.graph.visits.count (.sub 50, ⟨64, 0, 5⟩) = 8 := by
  have hnotes := notes_fourRungs
  cases hfinish : Walk.start.finish fourRungs with
  | error _ =>
    rw [hfinish] at hnotes
    cases hnotes
  | ok last =>
    rw [hfinish] at hnotes
    simp only [Except.toOption, Option.map_some, Option.some.injEq, Prod.mk.injEq] at hnotes
    obtain ⟨hsize, hcalls, hcount⟩ := hnotes
    refine ⟨last, rfl, hsize, ?_, hcount⟩
    rw [hcalls]
    decide

end CallGraph

end EvmSafety
