/-
The call graph and the two ceilings.

The walk goes through a subroutine once, at the depth of one caller.  What the stacks can
grow to for all the other callers is read off the call graph: for every routine, the highest
depth seen inside it, and for every call in it the depth the callee starts from.

`survey` adds these up along call chains.  A chain that comes back to a routine it is
already in is cut there, so that recursion counts once.  What a routine contributes then
depends on the chain it is on, unless no cut reaches above it; only in that case is the
result kept for later callers.

The recursion ends because every call of it that goes deeper has one more routine of the
graph on the chain.
-/
import EvmSafety.State
import Std.Data.TreeMap

namespace EvmSafety

/-- A call that a path made. -/
structure Call where
  /-- The offset of the call. -/
  site : Nat
  /-- The depth of the caller once the destination is taken. -/
  depth : Nat
  /-- The entry of the routine called. -/
  callee : Nat
  deriving DecidableEq, Repr, Inhabited

/-- What the paths through one routine showed of it. -/
structure Usage where
  /-- The highest depth seen. -/
  peak : Nat := 0
  /-- The calls made, the latest first. -/
  calls : List Call := []
  deriving DecidableEq, Repr, Inhabited

/-- What is known of every routine that did anything. -/
abbrev CallGraph := Std.TreeMap Routine Usage

/-- How far a routine reaches above its base, the routines it calls included. -/
structure Reach where
  /-- The highest depth. -/
  peak : Nat := 0
  /-- The call it is reached through, if the routine does not reach it by itself. -/
  peakVia : Option Nat := none
  /-- The longest chain of frames opened on top. -/
  frames : Nat := 0
  /-- The call that chain starts with. -/
  framesVia : Option Nat := none
  deriving DecidableEq, Repr, Inhabited

/-- Take into account a call and how far the callee reaches; ties keep the earlier call. -/
def Reach.through (reach : Reach) (call : Call) (callee : Reach) : Reach :=
  let reach :=
    if reach.peak < call.depth + callee.peak then
      { reach with peak := call.depth + callee.peak, peakVia := some call.site }
    else reach
  if reach.frames < callee.frames + 1 then
    { reach with frames := callee.frames + 1, framesVia := some call.site }
  else reach

namespace CallGraph

/-- What is known of a routine; nothing at first. -/
def usage (graph : CallGraph) (routine : Routine) : Usage :=
  graph.getD routine {}

/-- Note that a path in `routine` is at a depth. -/
def noteDepth (graph : CallGraph) (routine : Routine) (depth : Nat) : CallGraph :=
  let usage := graph.usage routine
  graph.insert routine { usage with peak := max usage.peak depth }

/-- Note that a path in `routine` makes a call. -/
def noteCall (graph : CallGraph) (routine : Routine) (call : Call) : CallGraph :=
  let usage := graph.usage routine
  graph.insert routine { usage with calls := call :: usage.calls }

/-! ### Adding up along chains -/

/-- The place of a routine on a chain that lists the innermost first; the outermost has
place zero. -/
def placeIn (routine : Routine) : List Routine → Option Nat
  | [] => none
  | other :: chain => if other = routine then some chain.length else placeIn routine chain

theorem placeIn_eq_none {routine : Routine} {chain : List Routine} :
    placeIn routine chain = none ↔ routine ∉ chain := by
  induction chain with
  | nil => simp [placeIn]
  | cons other chain ih =>
    by_cases h : other = routine
    · simp [placeIn, h]
    · simp [placeIn, h, ih, Ne.symm h]

/-- How many routines of the graph are not on a chain. -/
def offChain (graph : CallGraph) (chain : List Routine) : Nat :=
  graph.keys.countP fun routine => decide (routine ∉ chain)

private theorem countP_lt_of_imp {α : Type} {p q : α → Bool} {x : α} :
    ∀ {l : List α}, (∀ a, p a → q a) → x ∈ l → q x → p x = false → l.countP p < l.countP q
  | [], _, hx, _, _ => absurd hx List.not_mem_nil
  | a :: l, himp, hx, hq, hp => by
    have hle : l.countP p ≤ l.countP q := List.countP_mono_left fun b _ => himp b
    rw [List.countP_cons, List.countP_cons]
    rcases List.mem_cons.1 hx with rfl | hx
    · simp only [hp, hq]
      exact Nat.lt_of_le_of_lt (by simpa using hle) (Nat.lt_succ_self _)
    · have ih := countP_lt_of_imp himp hx hq hp
      by_cases ha : p a = true
      · rw [if_pos ha, if_pos (himp a ha)]
        omega
      · rw [if_neg ha]
        split <;> omega

theorem offChain_cons_lt {graph : CallGraph} {routine : Routine} {chain : List Routine}
    {usage : Usage} (hmem : graph[routine]? = some usage) (hnew : placeIn routine chain = none) :
    graph.offChain (routine :: chain) < graph.offChain chain := by
  rw [placeIn_eq_none] at hnew
  refine countP_lt_of_imp (x := routine) ?_ ?_ ?_ ?_
  · intro other
    simp
  · rw [Std.TreeMap.mem_keys, Std.TreeMap.mem_iff_isSome_getElem?, hmem]
    rfl
  · simpa using hnew
  · simp

/-- What `survey` finds out. -/
structure Survey where
  /-- How far the routine reaches on this chain. -/
  reach : Reach
  /-- The outermost place of the chain that a cut went back to. -/
  cut : Option Nat := none
  /-- The routines whose reach holds on every chain. -/
  settled : Std.TreeMap Routine Reach

/-- How far `routine` reaches above its base when it is called at the end of `chain`, by
chains that enter no routine twice. -/
def survey (graph : CallGraph) (routine : Routine) (chain : List Routine)
    (settled : Std.TreeMap Routine Reach) : Survey :=
  match settled[routine]? with
  | some reach => { reach, settled }
  | none =>
    match hmem : graph[routine]? with
    | none => { reach := {}, settled }
    | some usage =>
      match _hnew : placeIn routine chain with
      | some place => { reach := { peak := usage.peak }, cut := some place, settled }
      | none =>
        let survey := usage.calls.reverse.foldl (fun sofar call =>
            let callee := graph.survey (.sub call.callee) (routine :: chain) sofar.settled
            { reach := sofar.reach.through call callee.reach
              cut := Option.merge min sofar.cut callee.cut
              settled := callee.settled })
          { reach := { peak := usage.peak }, settled }
        if survey.cut.any (· < chain.length) then survey
        else
          { reach := survey.reach, settled := survey.settled.insert routine survey.reach }
termination_by graph.offChain chain
decreasing_by exact offChain_cons_lt hmem _hnew

/-! ### The ceilings -/

/-- A stack that some call chain lets outgrow its limit, and the call that leads there. -/
inductive Overflow
  /-- The data stack. -/
  | slots (site : Nat)
  /-- The return stack, with the number of frames. -/
  | frames (count site : Nat)
  deriving DecidableEq, Repr

/-- The violation an overflow makes. -/
def Overflow.violation : Overflow → Violation
  | slots site => ⟨site, .stackOverflow⟩
  | frames _ site => ⟨site, .stackOverflow⟩

/-- The highest depth that any call chain reaches, if both stacks keep to their limits. -/
def highestDepth (graph : CallGraph) : Except Overflow Nat :=
  let reach := (graph.survey .main [] ∅).reach
  if stackCapacity < reach.peak then .error (.slots (reach.peakVia.getD 0))
  else if stackCapacity < reach.frames then
    .error (.frames reach.frames (reach.framesVia.getD 0))
  else .ok reach.peak

end CallGraph

end EvmSafety
