/-
A routine does not see its callers.

What a routine asks of the state is answered from the slots above its base and from the frames
it has opened itself.  So the run of a sequence of requests can be told without its callers:
it goes from a state that has only these to another such state, and with anything whatever
below it goes the same way, with the same replies.  Only the limits count what is below, and
the frames that are closed tell where the base is.

The replies and the state that is left are found first and hold for all callers at once, so
that two runs over different callers need no comparison step by step.  The induction on the
requests keeps that the base is not above the top, and that the frames of the state are the
calls that are open in the sequence.
-/
import EvmSafety.Proofs.Requests

namespace EvmSafety

variable {code : Code}

/-! ### Putting callers below -/

/-- The frame with `d` more slots below. -/
def Frame.raised (d : Nat) (frame : Frame) : Frame :=
  { frame with callerBase := frame.callerBase + d }

/-- The reply with `d` more slots below: only a base shows where they end. -/
def Reply.raised (d : Nat) : Reply → Reply
  | frame closed => frame (closed.raised d)
  | base former => base (former + d)
  | reply => reply

/-- The stack with more slots below. -/
def Stack.atop (s : Stack) (below : List Slot) : Stack where
  slots := s.slots ++ below
  base := s.base + below.length

/-- The state with the slots and frames of callers below. -/
def State.atop (st : State) (below : List Slot) (frames : List Frame) : State where
  stack := st.stack.atop below
  frames := st.frames.map (Frame.raised below.length) ++ frames

namespace Stack

theorem on_atop (own inner below : List Slot) :
    (on own inner).atop below = on own (inner ++ below) := by
  simp [atop, on]

theorem raiseBase_atop (s : Stack) (below : List Slot) :
    (s.atop below).raiseBase = s.raiseBase.atop below := by
  simp [atop, raiseBase, size]

theorem restoreBase_atop (s : Stack) (below : List Slot) (base : Nat) :
    (s.atop below).restoreBase (base + below.length) = (s.restoreBase base).atop below := by
  simp only [atop, restoreBase, size, List.length_append, Nat.add_min_add_right]

/-! ### Operations -/

theorem Operation.raised_outcome {op : Operation} {own left : List Slot} {reply : Reply}
    (h : op.outcome code own = .settles reply left) (d : Nat) : reply.raised d = reply := by
  cases op with
  | push | pushUnknowns => cases h
  | pop =>
    cases own <;>
    · cases h
      rfl
  | discard | swap | dup | apply =>
    rw [outcome] at h
    split at h <;> cases h <;> rfl
  | forget =>
    cases h
    rfl
  | takeDestination =>
    cases own with
    | nil =>
      cases h
      rfl
    | cons slot own =>
      cases slot with
      | unknown =>
        cases h
        rfl
      | constant word =>
        rw [outcome] at h
        split at h <;> cases h <;> rfl

/-- **An operation is answered from the own slots,** but for the limit. -/
theorem Operation.exists_outcome (code : Code) (op : Stack.Operation) (own : List Slot) :
    ∃ reply left, (∀ d, Reply.raised d reply = reply) ∧ ∀ below,
      (op.outcome code own).onto below = (reply, on left below) ∨
        ((op.outcome code own).onto below).1.HitsLimit := by
  cases h : op.outcome code own with
  | settles reply left => exact ⟨reply, left, raised_outcome h, fun _ => .inl rfl⟩
  | grows left short =>
    refine ⟨.done, left, fun _ => rfl, ?_⟩
    intro below
    rw [Outcome.onto]
    split
    · exact .inl rfl
    · exact .inr (.inl rfl)

end Stack

/-- A state is what its routine has itself over what its callers have. -/
theorem State.atop_own {st : State} (h : st.stack.base ≤ st.stack.size) :
    State.atop ⟨⟨st.stack.own, 0⟩, []⟩ st.stack.below st.frames = st := by
  have hstack : Stack.atop ⟨st.stack.own, 0⟩ st.stack.below = st.stack := by
    rw [Stack.atop, Nat.zero_add]
    exact Stack.on_own_below h
  rw [State.atop, hstack]
  rfl

/-! ### Requests -/

namespace Request

/-- With `n` calls open before, every return answers a call of the sequence, and no base is put
back but by a return. -/
def ownReturns : Nat → List Request → Bool
  | _, [] => true
  | n, operate _ :: rest | n, raiseBase :: rest | n, admitCall :: rest => ownReturns n rest
  | n, call .. :: rest => ownReturns (n + 1) rest
  | n + 1, ret :: rest => ownReturns n rest
  | 0, ret :: _ | _, restoreBase _ :: _ => false

/-- The state has the frames that the returns of the sequence close, and the base that a stack
has. -/
structure Covers (r : State) (requests : List Request) : Prop where
  based : r.stack.base ≤ r.stack.size
  returns : ownReturns r.frames.length requests = true

/-- **A request is answered from what the routine has itself,** but for the limits. -/
theorem ask_atop (code : Code) {request : Request} {rest : List Request} {r : State}
    (hcovers : Covers r (request :: rest)) :
    ∃ (reply : Reply) (left : State), Covers left rest ∧ ∀ below frames,
      request.Fits (r.atop below frames) →
      request.ask code (r.atop below frames)
          = (reply.raised below.length, left.atop below frames) ∨
        (request.ask code (r.atop below frames)).1.HitsLimit := by
  obtain ⟨hbase, hreturns⟩ := hcovers
  cases request with
  | operate op =>
    obtain ⟨reply, own', hplain, hoverAll⟩ := op.exists_outcome code r.stack.own
    refine ⟨reply, { r with stack := .on own' r.stack.below }, ⟨by simp, hreturns⟩, ?_⟩
    intro below frames hfits
    have hstack : (r.atop below frames).stack = .on r.stack.own (r.stack.below ++ below) := by
      rw [← Stack.on_atop, Stack.on_own_below hbase]
      rfl
    have hop : op.Fits (r.atop below frames).stack := hfits
    rw [hstack] at hop
    rw [ask_operate, hstack, op.settle_answer code hop, hplain]
    rcases hoverAll (r.stack.below ++ below) with h | h
    · rw [h, ← Stack.on_atop]
      exact .inl rfl
    · exact .inr h
  | raiseBase =>
    refine ⟨.base r.stack.base, { r with stack := r.stack.raiseBase },
      ⟨Nat.le_refl _, hreturns⟩, ?_⟩
    intro below frames _
    refine .inl ?_
    rw [State.atop, State.atop, ← Stack.raiseBase_atop]
    rfl
  | restoreBase base => cases hreturns
  | admitCall =>
    refine ⟨.done, r, ⟨hbase, hreturns⟩, ?_⟩
    intro below frames _
    rw [ask_admitCall]
    split
    · exact .inl rfl
    · exact .inr (.inr rfl)
  | call entry returnTo =>
    refine ⟨.done, ⟨r.stack.raiseBase, ⟨returnTo, r.stack.base, entry⟩ :: r.frames⟩,
      ⟨Nat.le_refl _, hreturns⟩, ?_⟩
    intro below frames _
    rw [ask_call]
    split
    · rw [State.atop, State.atop, ← Stack.raiseBase_atop]
      exact .inl rfl
    · exact .inr (.inr rfl)
  | ret =>
    obtain ⟨stack, opened⟩ := r
    cases opened with
    | nil => cases hreturns
    | cons frame opened =>
      refine ⟨.frame frame, ⟨stack.restoreBase frame.callerBase, opened⟩,
        ⟨Nat.min_le_right _ _, hreturns⟩, ?_⟩
      intro below frames _
      refine .inl ?_
      rw [State.atop, State.atop, ← Stack.restoreBase_atop]
      rfl

/-- **A sequence of requests is answered from what the routine has itself,** unless it hits a
limit. -/
theorem askAll_atop (code : Code) {requests : List Request} {r : State}
    (hcovers : Covers r requests) :
    ∃ (replies : List Reply) (left : State), ∀ below frames,
      FitAll (requests.map (Prod.mk code)) (r.atop below frames) →
      askAll code requests (r.atop below frames)
          = (replies.map (Reply.raised below.length), left.atop below frames) ∨
        ∃ reply ∈ (askAll code requests (r.atop below frames)).1, reply.HitsLimit := by
  induction requests generalizing r with
  | nil => exact ⟨[], r, fun below frames _ => .inl rfl⟩
  | cons request rest ih =>
    obtain ⟨reply, mid, hmid, hfirst⟩ := ask_atop code hcovers
    obtain ⟨replies, left, hrest⟩ := ih hmid
    refine ⟨reply :: replies, left, ?_⟩
    intro below frames hfits
    obtain ⟨hfits, hfitsRest⟩ := hfits
    rcases hfirst below frames hfits with hfirst | hlimit
    · dsimp only at hfitsRest
      rw [hfirst] at hfitsRest
      rw [askAll, hfirst]
      rcases hrest below frames hfitsRest with hrest | ⟨reply', hmem, hlimit⟩
      · rw [hrest]
        exact .inl rfl
      · exact .inr ⟨reply', List.mem_cons_of_mem _ hmem, hlimit⟩
    · exact .inr ⟨_, List.mem_cons_self, hlimit⟩

end Request

end EvmSafety
