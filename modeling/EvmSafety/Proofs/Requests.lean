/-
Sequences of requests.

A state is used by one operation after another, each of which may fail, and who asks goes on
after a failure with the state that the failure left.  A request is an operation with what it
is asked for, and its reply is what is seen of it from outside: what it yields, or the fault.
What a state shows over its life is then the list of its replies, and what is left of it at
the end.

There is no limit on what may be asked in which order.  Where a property needs one, such as
that a return answers a call of the same sequence, it says so.  One is needed by most: that the
sizes which are asked for fit in a count.  An operation whose size fits comes to something that
the own slots tell alone, but for the question whether there is room.
-/
import EvmSafety.Proofs.Returning

namespace EvmSafety

/-- What is seen of an operation from outside. -/
inductive Reply
  /-- It was done. -/
  | done
  /-- It was done and yielded a slot. -/
  | slot (slot : Slot)
  /-- It was done and yielded a destination. -/
  | dest (offset : Nat)
  /-- It was done and yielded the former base. -/
  | base (base : Nat)
  /-- It was done and yielded the closed frame. -/
  | frame (frame : Frame)
  /-- It failed. -/
  | refused (fault : StackFault)
  deriving DecidableEq, Repr

namespace Reply

/-- The operation did not fail. -/
def Granted : Reply → Prop
  | refused _ => False
  | done | slot _ | dest _ | base _ | frame _ => True

instance : DecidablePred Granted
  | refused _ => .isFalse fun h => h
  | done | slot _ | dest _ | base _ | frame _ => .isTrue trivial

/-- The operation failed because one of the stacks is full. -/
def HitsLimit (reply : Reply) : Prop :=
  reply = refused .overflow ∨ reply = refused .returnOverflow

instance : DecidablePred HitsLimit :=
  fun _ => inferInstanceAs (Decidable (_ ∨ _))

/-- The reply to an operation that was carried out, and what it left. -/
def settle {σ : Type} : EStateM.Result StackFault σ Reply → Reply × σ
  | .ok reply s => (reply, s)
  | .error fault s => (refused fault, s)

theorem eq_ok_of_granted {σ : Type} {result : EStateM.Result StackFault σ Reply} {reply : Reply}
    {s : σ} (h : settle result = (reply, s)) (hgranted : reply.Granted) :
    result = .ok reply s := by
  cases result with
  | ok reply' s' =>
    cases h
    rfl
  | error fault s' =>
    cases h
    exact hgranted.elim

section

variable {σ α : Type} {op : EStateM StackFault σ α} {s t : σ}

theorem settle_ok (wrap : α → Reply) {a : α} (h : op s = .ok a t) :
    settle ((do let a ← op; return wrap a) s) = (wrap a, t) := by
  rw [bind_apply, h]
  rfl

theorem return_eq_ok {wrap : α → Reply} {reply : Reply}
    (h : (do let a ← op; return wrap a) s = .ok reply t) :
    ∃ a, op s = .ok a t ∧ reply = wrap a := by
  obtain ⟨a, u, hop, hdone⟩ := bind_eq_ok h
  cases hdone
  exact ⟨a, hop, rfl⟩

theorem settle_error {rest : α → EStateM StackFault σ Reply} {fault : StackFault}
    (h : op s = .error fault t) : settle ((op >>= rest) s) = (refused fault, t) := by
  rw [bind_apply, h]
  rfl

end

end Reply

/-- Do the operation and reply with what it yields. -/
def Stack.Operation.answer (code : Code) : Stack.Operation → StackOp Reply
  | push slot => do
    Stack.push slot
    return .done
  | pushUnknowns n => do
    Stack.pushUnknowns n
    return .done
  | pop => do
    let slot ← Stack.pop
    return .slot slot
  | discard n => do
    Stack.discard n
    return .done
  | dup n => do
    Stack.dup n
    return .done
  | swap n => do
    Stack.swap n
    return .done
  | apply pops pushes => do
    Stack.apply pops pushes
    return .done
  | forget n => do
    modify (Stack.forget n)
    return .done
  | takeDestination => do
    let dest ← Stack.takeDestination code
    return .dest dest

/-! ### What an operation comes to -/

namespace Stack

/-- What an operation comes to, told from the own slots. -/
inductive Outcome
  /-- It replies and leaves these slots. -/
  | settles (reply : Reply) (left : List Slot)
  /-- It is done and leaves the first slots if there is room for them.  If there is not, it is
  refused and leaves the second. -/
  | grows (left short : List Slot)

/-- The reply to an operation and the stack after it, with the slots of callers below. -/
def Outcome.onto (below : List Slot) : Outcome → Reply × Stack
  | settles reply left => (reply, on left below)
  | grows left short =>
    if left.length + below.length ≤ stackCapacity then (.done, on left below)
    else (.refused .overflow, on short below)

theorem Outcome.based_onto (outcome : Outcome) (below : List Slot) :
    (outcome.onto below).2.base ≤ (outcome.onto below).2.size := by
  cases outcome with
  | settles reply left =>
    rw [onto]
    simp
  | grows left short =>
    rw [onto]
    split <;> simp

/-- What an operation comes to on the slots of a routine. -/
def Operation.outcome (code : Code) : Operation → List Slot → Outcome
  | push slot, own => .grows (slot :: own) own
  | pushUnknowns n, own => .grows (List.replicate n .unknown ++ own) own
  | pop, [] => .settles (.refused (.underflow 1 0)) []
  | pop, slot :: own => .settles (.slot slot) own
  | discard n, own =>
    if n ≤ own.length then .settles .done (own.drop n)
    else .settles (.refused (.underflow n own.length)) own
  | dup n, own =>
    if n = 0 ∨ own.length < n then .settles (.refused (.underflow n own.length)) own
    else .grows (own.getD (n - 1) .unknown :: own) own
  | swap n, own =>
    if n = 0 ∨ own.length ≤ n then
      .settles (.refused (.underflow (Count.sum n 1) own.length)) own
    else .settles .done (exchange n own)
  | apply pops pushes, own =>
    if pops ≤ own.length then
      .grows (List.replicate pushes .unknown ++ own.drop pops) (own.drop pops)
    else .settles (.refused (.underflow pops own.length)) own
  | forget n, own =>
    .settles .done (List.replicate (min n own.length) .unknown ++ own.drop n)
  | takeDestination, [] => .settles (.refused (.underflow 1 0)) []
  | takeDestination, .unknown :: own => .settles (.refused .dynamicJump) own
  | takeDestination, .constant word :: own =>
    if code.isDest word.toNat then .settles (.dest word.toNat) own
    else .settles (.refused (.invalidDestination word)) own

section

variable {own below left short : List Slot} {op : StackOp Unit}

/-- An operation that is done or refused by a test of the own slots. -/
theorem settle_tested {α : Type} {op : StackOp α} {wrap : α → Reply} {granted : Prop}
    [Decidable granted] {a : α} {fault : StackFault}
    (h : op (on own below)
      = if granted then .ok a (on left below) else .error fault (on short below)) :
    Reply.settle ((do let a ← op; return wrap a) (on own below))
      = (if granted then .settles (wrap a) left
          else .settles (.refused fault) short : Outcome).onto below := by
  by_cases hgranted : granted
  · rw [if_pos hgranted] at h ⊢
    exact Reply.settle_ok wrap h
  · rw [if_neg hgranted] at h ⊢
    exact Reply.settle_error h

/-- An operation that asks for room and is done if there is. -/
theorem settle_grows {room : Prop} [Decidable room]
    (h : op (on own below)
      = if room then .ok () (on left below) else .error .overflow (on short below))
    (hroom : room ↔ left.length + below.length ≤ stackCapacity) :
    Reply.settle ((do op; return Reply.done) (on own below))
      = (Outcome.grows left short).onto below := by
  by_cases hfree : room
  · rw [if_pos hfree] at h
    rw [Outcome.onto, if_pos (hroom.1 hfree)]
    exact Reply.settle_ok _ h
  · rw [if_neg hfree] at h
    rw [Outcome.onto, if_neg (mt hroom.2 hfree)]
    exact Reply.settle_error h

theorem settle_push (slot : Slot) :
    Reply.settle ((do push slot; return Reply.done) (on own below))
      = (Outcome.grows (slot :: own) own).onto below := by
  refine settle_grows (push_on slot) ?_
  rw [List.length_cons]
  omega

theorem settle_pad (n : Nat) :
    Reply.settle ((do pad n; return Reply.done) (on own below))
      = (Outcome.grows (List.replicate n .unknown ++ own) own).onto below := by
  refine settle_grows (pad_on n) ?_
  rw [List.length_append, List.length_replicate]
  omega

end

/-- **An operation whose size fits comes to what its own slots tell,** over any callers. -/
theorem Operation.settle_answer (code : Code) {op : Operation} {own below : List Slot}
    (hfits : op.Fits (on own below)) :
    Reply.settle (op.answer code (on own below)) = (op.outcome code own).onto below := by
  cases op with
  | push slot => exact settle_push slot
  | pushUnknowns n =>
    rw [answer, bind_apply, pushUnknowns_eq_pad hfits]
    exact settle_pad n
  | pop =>
    cases own with
    | nil => exact Reply.settle_error pop_on_nil
    | cons slot own => exact Reply.settle_ok .slot (pop_on_cons slot)
  | discard n => exact settle_tested (discard_on n)
  | dup n =>
    have hdup := @dup_on own below n
    by_cases hfew : n = 0 ∨ own.length < n
    · rw [if_pos hfew] at hdup
      rw [outcome, if_pos hfew]
      exact Reply.settle_error hdup
    · rw [if_neg hfew] at hdup
      rw [outcome, if_neg hfew, answer, bind_apply, hdup]
      exact settle_push _
  | swap n =>
    have hswap := @swap_on own below n
    rw [← ite_not] at hswap
    rw [outcome, ← ite_not]
    exact settle_tested hswap
  | apply pops pushes =>
    have hreplace := @replaceTop_on own below pops pushes
    rw [← apply_eq_replaceTop (by simp) hfits] at hreplace
    by_cases hle : pops ≤ own.length
    · rw [if_pos hle] at hreplace
      rw [outcome, if_pos hle, answer, bind_apply, hreplace]
      exact settle_pad pushes
    · rw [if_neg hle] at hreplace
      rw [outcome, if_neg hle]
      exact Reply.settle_error hreplace
  | forget n => exact congrArg (Prod.mk Reply.done) (forget_on n)
  | takeDestination =>
    match own with
    | [] => exact Reply.settle_error (takeDestination_on_nil code)
    | .unknown :: own => exact Reply.settle_error (takeDestination_on_unknown code)
    | .constant word :: own => exact settle_tested (takeDestination_on_constant code word)

end Stack

/-! ### Requests -/

/-- What a state can be asked for. -/
inductive Request
  /-- An operation on the data stack. -/
  | operate (op : Stack.Operation)
  /-- Make the current top the base. -/
  | raiseBase
  /-- Put the base back. -/
  | restoreBase (base : Nat)
  /-- Refuse if another frame would outgrow the limit. -/
  | admitCall
  /-- Open a frame. -/
  | call (entry returnTo : Nat)
  /-- Close the innermost frame. -/
  | ret
  deriving DecidableEq, Repr

namespace Request

/-- Do what is asked for and reply with what it yields. -/
def answer (code : Code) : Request → StateOp Reply
  | operate op => State.onStack (op.answer code)
  | raiseBase => fun st => .ok (.base st.stack.base) { st with stack := st.stack.raiseBase }
  | restoreBase base => fun st => .ok .done { st with stack := st.stack.restoreBase base }
  | admitCall => do
    State.admitCall
    return .done
  | call entry returnTo => do
    State.call entry returnTo
    return .done
  | ret => do
    let frame ← State.ret
    return .frame frame

/-- The reply to a request, and the state after it. -/
def ask (code : Code) (request : Request) (st : State) : Reply × State :=
  Reply.settle (request.answer code st)

/-- The replies to one request after another, and the state after them. -/
def askAll (code : Code) : List Request → State → List Reply × State
  | [], st => ([], st)
  | request :: rest, st =>
    let first := request.ask code st
    let behind := askAll code rest first.2
    (first.1 :: behind.1, behind.2)

/-- The size that the request brings the data stack to fits in a count. -/
def Fits : Request → State → Prop
  | operate op, st => op.Fits st.stack
  | raiseBase, _ | restoreBase _, _ | admitCall, _ | call .., _ | ret, _ => True

instance (request : Request) (st : State) : Decidable (request.Fits st) :=
  match request with
  | operate op => inferInstanceAs (Decidable (op.Fits st.stack))
  | raiseBase | restoreBase _ | admitCall | call .. | ret => .isTrue trivial

/-- Every size that the requests bring the data stack to, one after another, fits in a count.
Each request comes with the code whose destinations it may take. -/
def FitAll : List (Code × Request) → State → Prop
  | [], _ => True
  | asked :: rest, st => asked.2.Fits st ∧ FitAll rest (asked.2.ask asked.1 st).2

instance decidableFitAll : (requests : List (Code × Request)) → (st : State) →
    Decidable (FitAll requests st)
  | [], _ => .isTrue trivial
  | asked :: rest, st =>
    have := decidableFitAll rest (asked.2.ask asked.1 st).2
    inferInstanceAs (Decidable (asked.2.Fits st ∧ FitAll rest (asked.2.ask asked.1 st).2))

theorem ask_operate (code : Code) (op : Stack.Operation) (st : State) :
    ask code (.operate op) st
      = ((Reply.settle (op.answer code st.stack)).1,
        { st with stack := (Reply.settle (op.answer code st.stack)).2 }) := by
  simp only [ask, answer, State.onStack]
  cases op.answer code st.stack <;> rfl

/-- An operation whose size fits, asked of a state. -/
theorem ask_operate_eq (code : Code) {op : Stack.Operation} {st : State}
    (hbased : st.stack.base ≤ st.stack.size) (hfits : op.Fits st.stack) :
    ask code (.operate op) st
      = (((op.outcome code st.stack.own).onto st.stack.below).1,
        { st with stack := ((op.outcome code st.stack.own).onto st.stack.below).2 }) := by
  rw [← Stack.on_own_below hbased] at hfits
  rw [ask_operate, ← op.settle_answer code hfits, Stack.on_own_below hbased]

theorem ask_admitCall (code : Code) (st : State) :
    ask code .admitCall st
      = if st.frames.length < stackCapacity then (.done, st)
        else (.refused .returnOverflow, st) := by
  simp only [ask, answer, bind_apply, State.admitCall]
  by_cases hroom : st.frames.length < stackCapacity
  · rw [if_pos hroom, if_pos hroom]
    rfl
  · rw [if_neg hroom, if_neg hroom]
    rfl

theorem ask_call (code : Code) (entry returnTo : Nat) (st : State) :
    ask code (.call entry returnTo) st
      = if st.frames.length < stackCapacity then (.done, st.entered returnTo entry)
        else (.refused .returnOverflow, st) := by
  simp only [ask, answer, bind_apply, State.call_apply]
  by_cases hroom : st.frames.length < stackCapacity
  · rw [if_pos hroom, if_pos hroom]
    rfl
  · rw [if_neg hroom, if_neg hroom]
    rfl

/-- **A request whose size fits keeps the base below the top.** -/
theorem based_ask (code : Code) {request : Request} {st : State}
    (hbased : st.stack.base ≤ st.stack.size) (hfits : request.Fits st) :
    (request.ask code st).2.stack.base ≤ (request.ask code st).2.stack.size := by
  cases request with
  | operate op =>
    rw [ask_operate_eq code hbased hfits]
    exact Stack.Outcome.based_onto _ _
  | raiseBase => exact Nat.le_refl _
  | restoreBase base => exact Nat.min_le_right _ _
  | admitCall =>
    rw [ask_admitCall]
    split <;> exact hbased
  | call entry returnTo =>
    rw [ask_call]
    split
    · exact Nat.le_refl _
    · exact hbased
  | ret =>
    obtain ⟨stack, opened⟩ := st
    cases opened with
    | nil => exact hbased
    | cons frame opened => exact Nat.min_le_right _ _

end Request

end EvmSafety
