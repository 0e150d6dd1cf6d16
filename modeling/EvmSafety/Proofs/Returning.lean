/-
Going through a routine and skipping it.

A call is followed in one of two ways.  A path that enters the routine goes through its body
and comes back with the return; a caller that finds the routine known is handed as many
unknown slots as the first path came back with.  Both have to end in the same state, for
whichever body: the slots of the caller with all that is known of them, its base, its frames.

A body is a balanced sequence of actions: operations on the data stack, and calls that are
answered by a return before it ends, which is what lies between a call and the return that
answers it.  The induction follows that structure, and its invariant is that the slots under
the base and the open frames are those found.  An inner call hides the own slots of the body
under a new base, and its return uncovers them again, so the invariant of the inner body is
the only thing needed to get past the pair.

A body can break it in one way, by asking for so many slots that the size does not fit in a
count; what it is granted then takes slots of the caller away.
-/
import EvmSafety.Proofs.Calls
import EvmSafety.Proofs.Capacity

namespace EvmSafety

variable {code : Code}

instance decidableEqResult {ε σ α : Type} [DecidableEq ε] [DecidableEq σ] [DecidableEq α] :
    DecidableEq (EStateM.Result ε σ α)
  | .ok a s, .ok b t => decidable_of_iff (a = b ∧ s = t) (by simp)
  | .error e s, .error f t => decidable_of_iff (e = f ∧ s = t) (by simp)
  | .ok .., .error .. => .isFalse (by simp)
  | .error .., .ok .. => .isFalse (by simp)

/-! ### Operations on the data stack -/

namespace Stack

/-- What a routine can do to the data stack. -/
inductive Operation
  /-- Put one slot on top. -/
  | push (slot : Slot)
  /-- Put unknown slots on top. -/
  | pushUnknowns (n : Nat)
  /-- Take the top slot. -/
  | pop
  /-- Remove slots. -/
  | discard (n : Nat)
  /-- Copy a slot onto the top. -/
  | dup (n : Nat)
  /-- Exchange the top with a slot below it. -/
  | swap (n : Nat)
  /-- Remove slots and put unknown ones. -/
  | apply (pops pushes : Nat)
  /-- Forget what is known of slots. -/
  | forget (n : Nat)
  /-- Take the top slot as a destination. -/
  | takeDestination
  deriving DecidableEq, Repr

/-- Do the operation, and drop what it yields. -/
def Operation.run (code : Code) : Operation → StackOp Unit
  | push slot => Stack.push slot
  | pushUnknowns n => Stack.pushUnknowns n
  | pop => do let _ ← Stack.pop
  | discard n => Stack.discard n
  | dup n => Stack.dup n
  | swap n => Stack.swap n
  | apply pops pushes => Stack.apply pops pushes
  | forget n => modify (Stack.forget n)
  | takeDestination => do let _ ← Stack.takeDestination code

/-- The size that the operation brings the stack to fits in a count. -/
def Operation.Fits : Operation → Stack → Prop
  | pushUnknowns n, s => s.size + n < Decimal.countLimit
  | apply pops pushes, s => pops ≤ s.depth → s.size - pops + pushes < Decimal.countLimit
  | push _, _ | pop, _ | discard _, _ | dup _, _ | swap _, _ | forget _, _ | takeDestination, _ =>
    True

instance (op : Operation) (s : Stack) : Decidable (op.Fits s) :=
  match op with
  | .pushUnknowns n => inferInstanceAs (Decidable (s.size + n < Decimal.countLimit))
  | .apply pops pushes =>
    inferInstanceAs (Decidable (pops ≤ s.depth → s.size - pops + pushes < Decimal.countLimit))
  | .push _ | .pop | .discard _ | .dup _ | .swap _ | .forget _ | .takeDestination =>
    .isTrue trivial

/-- An operation whose size fits leaves a proper stack. -/
theorem Operation.proper_of_run {op : Operation} {s t : Stack} {u : Unit} (hs : s.Proper)
    (hfits : op.Fits s) (h : op.run code s = .ok u t) : t.Proper := by
  cases op with
  | push slot => exact (keeps_push slot).ok hs h
  | pushUnknowns n => exact (keeps_pad n).ok hs ((pushUnknowns_eq_pad hfits).symm.trans h)
  | pop => exact (keeps_pop.bind fun _ => keeps_pure _).ok hs h
  | discard n => exact (keeps_discard n).ok hs h
  | dup n => exact (keeps_dup n).ok hs h
  | swap n => exact (keeps_swap n).ok hs h
  | apply pops pushes =>
    exact (keeps_replaceTop pops pushes).ok hs
      ((apply_eq_replaceTop hs.based hfits).symm.trans h)
  | forget n =>
    cases h
    exact hs.forget n
  | takeDestination =>
    exact ((keeps_takeDestination code).bind fun _ => keeps_pure _).ok hs h

/-- An operation whose size fits works above the base. -/
theorem Operation.run_on_eq_ok {op : Operation} {own below : List Slot} {u : Unit} {s : Stack}
    (hfits : op.Fits (on own below)) (h : op.run code (on own below) = .ok u s) :
    ∃ own', s = on own' below := by
  cases op with
  | push slot => exact ⟨_, push_on_eq_ok h⟩
  | pushUnknowns n => exact ⟨_, pad_on_eq_ok ((pushUnknowns_eq_pad hfits).symm.trans h)⟩
  | pop =>
    obtain ⟨slot, s', hpop, h⟩ := bind_eq_ok h
    obtain ⟨own', -, rfl⟩ := pop_on_eq_ok hpop
    cases h
    exact ⟨own', rfl⟩
  | discard n => exact ⟨_, (discard_on_eq_ok h).2⟩
  | dup n => exact ⟨_, (dup_on_eq_ok h).2.2⟩
  | swap n => exact ⟨_, (swap_on_eq_ok h).2.2⟩
  | apply pops pushes =>
    exact ⟨_, (replaceTop_on_eq_ok ((apply_eq_replaceTop (by simp) hfits).symm.trans h)).2⟩
  | forget n =>
    cases h
    exact ⟨_, forget_on n⟩
  | takeDestination =>
    obtain ⟨dest, s', htake, h⟩ := bind_eq_ok h
    obtain ⟨word, own', -, -, -, rfl⟩ := takeDestination_on_eq_ok htake
    cases h
    exact ⟨own', rfl⟩

end Stack

/-! ### Bodies -/

/-- What a path does to its stacks. -/
inductive Action
  /-- An operation on the data stack. -/
  | operate (op : Stack.Operation)
  /-- A call of the routine at `entry`. -/
  | call (entry returnTo : Nat)
  /-- A return. -/
  | leave
  deriving DecidableEq, Repr

namespace Action

/-- Do the action. -/
def run (code : Code) : Action → StateOp Unit
  | operate op => State.onStack (op.run code)
  | call entry returnTo => State.call entry returnTo
  | leave => do let _ ← Instruction.leave

/-- Do one action after another, up to the first that fails. -/
def runAll (code : Code) : List Action → StateOp Unit
  | [] => pure ()
  | action :: rest => do
    action.run code
    runAll code rest

/-- The size that the action brings the data stack to fits in a count. -/
def Fits : Action → State → Prop
  | operate op, st => op.Fits st.stack
  | call .., _ | leave, _ => True

instance (action : Action) (st : State) : Decidable (action.Fits st) :=
  match action with
  | .operate op => inferInstanceAs (Decidable (op.Fits st.stack))
  | .call .. | .leave => .isTrue trivial

/-- Every size that the actions bring the data stack to fits in a count. -/
def FitAll (code : Code) : List Action → State → Prop
  | [], _ => True
  | action :: rest, st =>
    action.Fits st ∧ ∀ t, action.run code st = .ok () t → FitAll code rest t

/-- Every call is answered by a return, and there are no other returns. -/
inductive Balanced : List Action → Prop
  | nil : Balanced []
  | operate (op : Stack.Operation) {rest : List Action} :
      Balanced rest → Balanced (.operate op :: rest)
  | call (entry returnTo : Nat) {body rest : List Action} :
      Balanced body → Balanced rest →
      Balanced (.call entry returnTo :: (body ++ .leave :: rest))

/-- How many calls are open after the actions if `n` were before, unless a return finds none. -/
def openAfter : Nat → List Action → Option Nat
  | n, [] => some n
  | n, .operate _ :: rest => openAfter n rest
  | n, .call .. :: rest => openAfter (n + 1) rest
  | 0, .leave :: _ => none
  | n + 1, .leave :: rest => openAfter n rest

theorem Balanced.openAfter_append {body : List Action} (h : Balanced body) (n : Nat)
    (rest : List Action) : openAfter n (body ++ rest) = openAfter n rest := by
  induction h generalizing n rest with
  | nil => rfl
  | operate op _ ih => exact ih n rest
  | call entry returnTo _ _ ihbody ihrest =>
    rw [List.cons_append, List.append_assoc, openAfter, ihbody, List.cons_append, openAfter,
      ihrest]

/-- The innermost open call is answered by the first return behind a balanced body. -/
theorem exists_answer {n : Nat} {actions : List Action}
    (h : openAfter (n + 1) actions = some 0) :
    ∃ body rest, Balanced body ∧ actions = body ++ .leave :: rest
      ∧ openAfter n rest = some 0 := by
  -- Behind an inner call two answers are looked for, the second in what the first leaves.
  induction hlength : actions.length using Nat.strongRecOn generalizing n actions with
  | _ length ih =>
    subst hlength
    match actions with
    | [] => simp [openAfter] at h
    | .operate op :: rest =>
      have hrest : openAfter (n + 1) rest = some 0 := h
      obtain ⟨body, behind, hbody, rfl, hopen⟩ := ih rest.length (by simp) hrest rfl
      exact ⟨.operate op :: body, behind, .operate op hbody, rfl, hopen⟩
    | .leave :: rest => exact ⟨[], rest, .nil, rfl, h⟩
    | .call entry returnTo :: rest =>
      have hrest : openAfter (n + 2) rest = some 0 := h
      obtain ⟨inner, behind, hinner, rfl, hopen⟩ := ih rest.length (by simp) hrest rfl
      have hshorter : behind.length < (Action.call entry returnTo ::
          (inner ++ .leave :: behind)).length := by
        simp only [List.length_cons, List.length_append]
        omega
      obtain ⟨body, after, hbody, rfl, hopen'⟩ := ih behind.length hshorter hopen rfl
      exact ⟨.call entry returnTo :: (inner ++ .leave :: body), after,
        .call entry returnTo hinner hbody, by simp, hopen'⟩

/-- A sequence is balanced if counting its open calls ends at none and never fails. -/
theorem balanced_iff {actions : List Action} :
    Balanced actions ↔ openAfter 0 actions = some 0 := by
  constructor
  · intro h
    have hopen := h.openAfter_append 0 []
    rwa [List.append_nil] at hopen
  · intro h
    induction hlength : actions.length using Nat.strongRecOn generalizing actions with
    | _ length ih =>
      subst hlength
      match actions with
      | [] => exact .nil
      | .operate op :: rest => exact .operate op (ih rest.length (by simp) h rfl)
      | .call entry returnTo :: rest =>
        obtain ⟨body, behind, hbody, rfl, hopen⟩ := exists_answer h
        have hshorter : behind.length < (Action.call entry returnTo ::
            (body ++ .leave :: behind)).length := by
          simp only [List.length_cons, List.length_append]
          omega
        exact .call entry returnTo hbody (ih behind.length hshorter hopen rfl)

instance (actions : List Action) : Decidable (Balanced actions) :=
  decidable_of_iff _ balanced_iff.symm

theorem runAll_append (before after : List Action) :
    runAll code (before ++ after) = (do runAll code before; runAll code after) := by
  induction before with
  | nil => rfl
  | cons action rest ih =>
    show (do action.run code; runAll code (rest ++ after))
      = (do (do action.run code; runAll code rest); runAll code after)
    rw [ih, bind_assoc]

instance {ε σ : Type} {P : σ → Prop} [DecidablePred P] (result : EStateM.Result ε σ Unit) :
    Decidable (∀ t, result = .ok () t → P t) :=
  match result with
  | .ok () t =>
    decidable_of_iff (P t) ⟨fun h _ hsame => (EStateM.Result.ok.inj hsame).2 ▸ h, fun h => h t rfl⟩
  | .error _ _ => .isTrue nofun

instance decidableFitAll (code : Code) : (actions : List Action) → (st : State) →
    Decidable (FitAll code actions st)
  | [], _ => .isTrue trivial
  | action :: rest, st =>
    have : DecidablePred (FitAll code rest) := decidableFitAll code rest
    inferInstanceAs
      (Decidable (action.Fits st ∧ ∀ t, action.run code st = .ok () t → FitAll code rest t))

theorem fitAll_append {before after : List Action} {s : State}
    (h : FitAll code (before ++ after) s) :
    FitAll code before s ∧ ∀ t, runAll code before s = .ok () t → FitAll code after t := by
  induction before generalizing s with
  | nil =>
    refine ⟨trivial, ?_⟩
    intro t hrun
    cases hrun
    exact h
  | cons action rest ih =>
    obtain ⟨hfits, hrest⟩ := h
    refine ⟨⟨hfits, fun t hrun => (ih (hrest t hrun)).1⟩, ?_⟩
    intro t hrun
    obtain ⟨u, mid, haction, hbehind⟩ := bind_eq_ok hrun
    exact (ih (hrest mid haction)).2 t hbehind

theorem proper_of_run {action : Action} {s t : State} {u : Unit} (hs : s.Proper)
    (hfits : action.Fits s) (h : action.run code s = .ok u t) : t.Proper := by
  cases action with
  | operate op =>
    obtain ⟨stack, hop, rfl⟩ := State.onStack_eq_ok h
    exact Stack.Operation.proper_of_run hs hfits hop
  | call entry returnTo =>
    exact (State.keeps_admitCall.bind fun _ _ hs => hs.raiseBase).ok hs h
  | leave => exact (Instruction.keeps_leave.bind fun _ => keeps_pure _).ok hs h

/-- Actions whose sizes fit leave a proper stack. -/
theorem proper_of_runAll {actions : List Action} {s t : State} (hs : s.Proper)
    (hfits : FitAll code actions s) (h : runAll code actions s = .ok () t) : t.Proper := by
  induction actions generalizing s with
  | nil =>
    cases h
    exact hs
  | cons action rest ih =>
    obtain ⟨u, mid, haction, hrest⟩ := bind_eq_ok h
    exact ih (proper_of_run hs hfits.1 haction) (hfits.2 mid haction) hrest

end Action

/-! ### Entering and leaving -/

namespace State

theorem call_of_room {s : State} (entry returnTo : Nat)
    (hroom : s.frames.length < stackCapacity) :
    State.call entry returnTo s = .ok () (s.entered returnTo entry) := by
  rw [call_apply, if_pos hroom]
  rfl

theorem call_eq_ok {s t : State} {entry returnTo : Nat} {u : Unit}
    (h : State.call entry returnTo s = .ok u t) : t = s.entered returnTo entry := by
  rw [call_apply] at h
  by_cases hroom : s.frames.length < stackCapacity
  · rw [if_pos hroom] at h
    cases h
    rfl
  · rw [if_neg hroom] at h
    cases h

theorem below_entered (returnTo entry : Nat) {s : State} (h : s.stack.base ≤ s.stack.size) :
    (s.entered returnTo entry).stack.below = s.stack.slots := by
  rw [eq_on h, entered, Stack.raiseBase_on, Stack.below_on, Stack.slots_on]

theorem below_padded (net : Nat) {s : State} (h : s.stack.base ≤ s.stack.size) :
    (s.padded net).stack.below = s.stack.below := by
  rw [eq_on h, padded_on, Stack.below_on, Stack.below_on]

theorem based_padded (net : Nat) {s : State} (h : s.stack.base ≤ s.stack.size) :
    (s.padded net).stack.base ≤ (s.padded net).stack.size := by
  rw [size_padded]
  exact Nat.le_add_left_of_le h

theorem onStack_pushUnknowns {net : Nat} {s : State} (h : s.stack.size + net ≤ stackCapacity) :
    onStack (Stack.pushUnknowns net) s = .ok () (s.padded net) := by
  have hfits : s.stack.size + net < Decimal.countLimit := Nat.lt_of_le_of_lt h (by decide)
  rw [onStack, Stack.pushUnknowns_eq_pad hfits]
  exact (onStack_pad net s).trans (if_pos h)

/-- A return above the slots and frames of a caller hands the caller unknown slots. -/
theorem leave_above (own : List Slot) (returnTo entry : Nat) {s : State}
    (h : s.stack.base ≤ s.stack.size) :
    Instruction.leave
        ⟨.on own s.stack.slots, ⟨returnTo, s.stack.base, entry⟩ :: s.frames⟩
      = .ok (.back own.length ⟨returnTo, s.stack.base, entry⟩) (s.padded own.length) := by
  simp only [Instruction.leave, State.ret, Stack.depth_on, Stack.forget_own,
    State.restoreBase_slots _ h]

end State

namespace Action

/-- **A balanced body leaves the callers alone:** the slots under the base and the frames. -/
theorem Balanced.preserves {actions : List Action} (hbalanced : Balanced actions) {s t : State}
    (hbase : s.stack.base ≤ s.stack.size) (hfits : FitAll code actions s)
    (hrun : runAll code actions s = .ok () t) :
    ∃ own, t = ⟨.on own s.stack.below, s.frames⟩ := by
  induction hbalanced generalizing s t with
  | nil =>
    cases hrun
    exact ⟨_, State.eq_on hbase⟩
  | operate op _ ih =>
    obtain ⟨u, mid, hop, hrest⟩ := bind_eq_ok hrun
    have hbehind := hfits.2 mid hop
    obtain ⟨stack, hstack, rfl⟩ := State.onStack_eq_ok hop
    have hop : op.Fits s.stack := hfits.1
    rw [← Stack.on_own_below hbase] at hstack hop
    obtain ⟨own, rfl⟩ := Stack.Operation.run_on_eq_ok hop hstack
    have h := ih (by simp) hbehind hrest
    rwa [Stack.below_on] at h
  | call entry returnTo _ _ ihbody ihrest =>
    obtain ⟨u, opened, hcall, hrun⟩ := bind_eq_ok hrun
    obtain ⟨hfitsBody, hfitsBehind⟩ := fitAll_append (hfits.2 opened hcall)
    obtain rfl := State.call_eq_ok hcall
    rw [runAll_append] at hrun
    obtain ⟨u, closing, hbody, hrun⟩ := bind_eq_ok hrun
    have hfitsLeave := hfitsBehind closing hbody
    obtain ⟨own, rfl⟩ := ihbody (Nat.le_refl _) hfitsBody hbody
    rw [State.below_entered returnTo entry hbase] at hrun hfitsLeave
    obtain ⟨u, closed, hleave, hrest⟩ := bind_eq_ok hrun
    have hfitsRest := hfitsLeave.2 closed hleave
    -- The return uncovers the state of the inner call, with what it hands over on top.
    obtain ⟨flow, s', hleft, hdone⟩ := bind_eq_ok hleave
    rw [show (s.entered returnTo entry).frames
      = ⟨returnTo, s.stack.base, entry⟩ :: s.frames from rfl,
      State.leave_above own returnTo entry hbase] at hleft
    cases hleft
    cases hdone
    have h := ihrest (State.based_padded own.length hbase) hfitsRest hrest
    rwa [State.below_padded own.length hbase] at h

end Action

/-! ### The two ways agree -/

namespace State

end State

end EvmSafety
