/-
What every request leaves intact.

A state may start with more slots than there may be, its base may be moved anywhere, and most
requests can fail on the way.  Whatever is asked of it in whatever order, its base never comes
to lie above its top, its data stack never outgrows what it started with or the limit, and its
frames never outgrow theirs.  So the depth above the base is a true difference, and so is what
an operation leaves of the slots it counts down from the top.

One request is told in terms of the two parts of the stack: it works on the own slots, leaves
at most as many as it found unless there is room for more, and, if it is refused, takes from
the top what it had removed before it was.  That is nothing but for two requests.  The rest is
an induction on the requests.

All this holds as long as the sizes that are asked for fit in a count.  It is a condition on the
arguments of `pushUnknowns` and `apply` alone, and it cannot be dropped: a request for so many
slots that the size does not fit is granted, and what it takes away may be a caller's.
-/
import EvmSafety.Proofs.Isolation

namespace EvmSafety

variable {code : Code}

/-! ### One operation -/

namespace Stack

/-- The slot at a height, counted from the bottom. -/
def fromBottom (s : Stack) (height : Nat) : Option Slot :=
  s.slots.reverse[height]?

theorem fromBottom_on {own below : List Slot} {height : Nat} (h : height < below.length) :
    (on own below).fromBottom height = below.reverse[height]? := by
  have hlt : height < below.reverse.length := by simpa using h
  simp only [fromBottom, slots_on, List.reverse_append, List.getElem?_append_left hlt]

/-- How many slots an operation has removed by the time it is refused: `apply` its operands if
there is no room for what it puts, and a destination is taken before it is read. -/
def Operation.removedBy : Operation → StackFault → Nat
  | apply pops _, .overflow => pops
  | takeDestination, .dynamicJump => 1
  | takeDestination, .invalidDestination _ => 1
  | _, _ => 0

/-- What an operation comes to spares the own slots. -/
def Operation.Spares (op : Operation) (own : List Slot) : Outcome → Prop
  | .settles reply left =>
    left.length ≤ own.length ∧ ∀ fault, reply = .refused fault →
      op.removedBy fault ≤ own.length ∧ left = own.drop (op.removedBy fault)
  | .grows _ short =>
    op.removedBy .overflow ≤ own.length ∧ short = own.drop (op.removedBy .overflow)

/-- What is left of the own slots by an operation, above the slots of callers. -/
structure Operation.Leaves (op : Operation) (own below : List Slot) (reply : Reply)
    (left : List Slot) : Prop where
  /-- They grow only if there is room. -/
  size : left.length ≤ own.length ∨ left.length + below.length ≤ stackCapacity
  /-- A refused operation takes no more than it had removed. -/
  refused : ∀ fault, reply = .refused fault →
    op.removedBy fault ≤ own.length ∧ left = own.drop (op.removedBy fault)

namespace Operation

variable {op : Operation} {own below left : List Slot} {reply : Reply}

theorem spares_of_granted (h : reply.Granted) (hle : left.length ≤ own.length) :
    op.Spares own (.settles reply left) := by
  refine ⟨hle, ?_⟩
  rintro fault rfl
  exact h.elim

theorem spares_of_refused {fault : StackFault} (hle : op.removedBy fault ≤ own.length) :
    op.Spares own (.settles (.refused fault) (own.drop (op.removedBy fault))) := by
  refine ⟨?_, ?_⟩
  · rw [List.length_drop]
    exact Nat.sub_le _ _
  · intro other h
    cases h
    exact ⟨hle, rfl⟩

/-- **Every operation spares the own slots,** whether it is granted or refused. -/
theorem spares_outcome (code : Code) (op : Operation) (own : List Slot) :
    op.Spares own (op.outcome code own) := by
  cases op with
  | push slot => exact ⟨Nat.zero_le _, rfl⟩
  | pushUnknowns n => exact ⟨Nat.zero_le _, rfl⟩
  | pop =>
    cases own with
    | nil => exact spares_of_refused (Nat.zero_le _)
    | cons slot own => exact spares_of_granted trivial (Nat.le_succ _)
  | discard n =>
    rw [outcome]
    split
    · exact spares_of_granted trivial (by simp)
    · exact spares_of_refused (Nat.zero_le _)
  | dup n =>
    rw [outcome]
    split
    · exact spares_of_refused (Nat.zero_le _)
    · exact ⟨Nat.zero_le _, rfl⟩
  | swap n =>
    rw [outcome]
    split
    · exact spares_of_refused (Nat.zero_le _)
    · exact spares_of_granted trivial (Nat.le_of_eq (length_exchange n))
  | apply pops pushes =>
    rw [outcome]
    split
    · next hle => exact ⟨hle, rfl⟩
    · exact spares_of_refused (Nat.zero_le _)
  | forget n =>
    refine spares_of_granted trivial ?_
    simp only [List.length_append, List.length_replicate, List.length_drop]
    omega
  | takeDestination =>
    cases own with
    | nil => exact spares_of_refused (Nat.zero_le _)
    | cons slot own =>
      cases slot with
      | unknown => exact spares_of_refused (Nat.le_add_left 1 _)
      | constant word =>
        rw [outcome]
        split
        · exact spares_of_granted trivial (Nat.le_succ _)
        · exact spares_of_refused (Nat.le_add_left 1 _)

/-- **What an operation leaves,** whether it is granted or refused. -/
theorem exists_leaves (code : Code) (op : Operation) (own below : List Slot) :
    ∃ reply left, (op.outcome code own).onto below = (reply, on left below) ∧
      op.Leaves own below reply left := by
  have hspares := op.spares_outcome code own
  cases houtcome : op.outcome code own with
  | settles reply left =>
    rw [houtcome] at hspares
    exact ⟨reply, left, rfl, .inl hspares.1, hspares.2⟩
  | grows left short =>
    rw [houtcome] at hspares
    obtain ⟨hle, rfl⟩ := hspares
    rw [Outcome.onto]
    split
    · next hroom =>
      refine ⟨.done, left, rfl, .inr hroom, ?_⟩
      intro fault h
      cases h
    · refine ⟨.refused .overflow, _, rfl, .inl ?_, ?_⟩
      · rw [List.length_drop]
        exact Nat.sub_le _ _
      · intro fault h
        cases h
        exact ⟨hle, rfl⟩

end Operation

end Stack

/-! ### One request -/

/-- The state with slots taken from the top. -/
def State.dropTop (n : Nat) (st : State) : State :=
  { st with stack := { st.stack with slots := st.stack.slots.drop n } }

@[simp] theorem State.dropTop_zero (st : State) : st.dropTop 0 = st := rfl

/-- A new state whose data stack holds some slots. -/
def State.holding (slots : List Slot) : State where
  stack := { slots }

/-- A state that started with `initial` slots keeps to its bounds. -/
structure State.Bounded (initial : Nat) (st : State) : Prop where
  /-- The base is not above the top. -/
  based : st.stack.base ≤ st.stack.size
  /-- There are no more slots than at the start, or than there may be. -/
  slots : st.stack.size ≤ max initial stackCapacity
  /-- There are no more frames than there may be. -/
  frames : st.frames.length ≤ stackCapacity

namespace Request

/-- How many slots a request has removed by the time it is refused. -/
def removedBy (fault : StackFault) : Request → Nat
  | operate op => op.removedBy fault
  | raiseBase | restoreBase _ | admitCall | call .. | ret => 0

/-- What a request leaves intact in a state, whether it is granted or refused. -/
structure Respects (code : Code) (request : Request) (st : State) : Prop where
  /-- A refused request leaves the whole state as it was, unless it had removed slots. -/
  untouched : ∀ fault left, request.ask code st = (.refused fault, left) →
    request.removedBy fault = 0 → left = st
  /-- If it had, exactly these are gone, which were above the base. -/
  removed : ∀ fault left, request.ask code st = (.refused fault, left) →
    request.removedBy fault ≤ st.stack.depth ∧ left = st.dropTop (request.removedBy fault)
  /-- Every slot under the base stays what it is and where it is. -/
  below : ∀ height < st.stack.base,
    (request.ask code st).2.stack.fromBottom height = st.stack.fromBottom height

variable {initial : Nat} {st : State}

/-- A request that keeps the slots and removes none before it is refused. -/
theorem respects_of_slots {request : Request}
    (hslots : (request.ask code st).2.stack.slots = st.stack.slots)
    (hnone : ∀ fault, request.removedBy fault = 0)
    (hrefused : ∀ fault left, request.ask code st = (.refused fault, left) → left = st) :
    request.Respects code st := by
  refine ⟨?_, ?_, ?_⟩
  · intro fault left h _
    exact hrefused fault left h
  · intro fault left h
    rw [hnone]
    exact ⟨Nat.zero_le _, hrefused fault left h⟩
  · intro height _
    rw [Stack.fromBottom, Stack.fromBottom, hslots]

/-- An operation on the data stack keeps the bounds and leaves intact what it has to. -/
theorem operate_bounded (code : Code) {op : Stack.Operation} (h : st.Bounded initial)
    (hfits : op.Fits st.stack) :
    (ask code (.operate op) st).2.Bounded initial ∧ Respects code (.operate op) st := by
  have hbased := h.based
  obtain ⟨reply, left, hover, hleaves⟩ := op.exists_leaves code st.stack.own st.stack.below
  have hask : ask code (.operate op) st
      = (reply, { st with stack := .on left st.stack.below }) := by
    rw [ask_operate_eq code hbased hfits, hover]
  have hbelow := Stack.length_below hbased
  have hown := Stack.length_own hbased
  have hrefused : ∀ fault after, ask code (.operate op) st = (.refused fault, after) →
      op.removedBy fault ≤ st.stack.depth ∧ after = st.dropTop (op.removedBy fault) := by
    intro fault after hafter
    rw [hask] at hafter
    cases hafter
    obtain ⟨hle, rfl⟩ := hleaves.refused fault rfl
    have hdrop : st.stack.slots.drop (op.removedBy fault)
        = st.stack.own.drop (op.removedBy fault) ++ st.stack.below := by
      rw [← List.drop_append_of_le_length hle, ← Stack.slots_on, Stack.on_own_below hbased]
    refine ⟨hown ▸ hle, ?_⟩
    simp only [State.dropTop, Stack.on, hdrop, hbelow]
  rw [hask]
  refine ⟨⟨by simp, ?_, h.frames⟩, ⟨?_, hrefused, ?_⟩⟩
  · show (Stack.on left st.stack.below).size ≤ max initial stackCapacity
    have hsize := hleaves.size
    have hslots := h.slots
    have hdepth := Stack.depth_eq hbased
    rw [Stack.size_on]
    omega
  · intro fault after hafter hnone
    obtain ⟨-, rfl⟩ := hrefused fault after hafter
    rw [show op.removedBy fault = 0 from hnone, State.dropTop_zero]
  · intro height hheight
    have hlt : height < st.stack.below.length := by omega
    have hbefore := @Stack.fromBottom_on st.stack.own _ _ hlt
    rw [Stack.on_own_below hbased] at hbefore
    rw [hask, hbefore]
    exact Stack.fromBottom_on hlt

/-- **One request** whose size fits keeps the bounds and leaves intact what it has to. -/
theorem ask_bounded (code : Code) {request : Request} (h : st.Bounded initial)
    (hfits : request.Fits st) :
    (request.ask code st).2.Bounded initial ∧ request.Respects code st := by
  cases request with
  | operate op => exact operate_bounded code h hfits
  | raiseBase =>
    refine ⟨⟨Nat.le_refl _, h.slots, h.frames⟩, respects_of_slots rfl (fun _ => rfl) ?_⟩
    intro fault left hleft
    cases hleft
  | restoreBase base =>
    refine ⟨⟨Nat.min_le_right _ _, h.slots, h.frames⟩, respects_of_slots rfl (fun _ => rfl) ?_⟩
    intro fault left hleft
    cases hleft
  | admitCall =>
    have hleft : (ask code .admitCall st).2 = st := by
      rw [ask_admitCall]
      split <;> rfl
    rw [hleft]
    refine ⟨h, respects_of_slots (by rw [hleft]) (fun _ => rfl) ?_⟩
    intro fault left hrefused
    rw [hrefused] at hleft
    exact hleft
  | call entry returnTo =>
    have hask := ask_call code entry returnTo st
    by_cases hroom : st.frames.length < stackCapacity
    · rw [if_pos hroom] at hask
      rw [hask]
      refine ⟨⟨Nat.le_refl _, h.slots, hroom⟩,
        respects_of_slots (by rw [hask]; rfl) (fun _ => rfl) ?_⟩
      intro fault left hleft
      rw [hask] at hleft
      cases hleft
    · rw [if_neg hroom] at hask
      rw [hask]
      refine ⟨h, respects_of_slots (by rw [hask]) (fun _ => rfl) ?_⟩
      intro fault left hleft
      rw [hask] at hleft
      cases hleft
      rfl
  | ret =>
    obtain ⟨stack, opened⟩ := st
    cases opened with
    | nil =>
      refine ⟨h, respects_of_slots rfl (fun _ => rfl) ?_⟩
      intro fault left hleft
      cases hleft
      rfl
    | cons frame opened =>
      refine ⟨⟨Nat.min_le_right _ _, h.slots, Nat.le_of_succ_le h.frames⟩,
        respects_of_slots rfl (fun _ => rfl) ?_⟩
      intro fault left hleft
      cases hleft

/-! ### Any sequence of requests -/

/-- What is left of a state by one request after another, whatever the replies.  Each comes with
the code whose destinations it may take. -/
def leftBy (st : State) (requests : List (Code × Request)) : State :=
  requests.foldl (fun st asked => (asked.2.ask asked.1 st).2) st

theorem leftBy_bounded {requests : List (Code × Request)} (h : st.Bounded initial)
    (hfits : FitAll requests st) : (leftBy st requests).Bounded initial := by
  induction requests generalizing st with
  | nil => exact h
  | cons asked rest ih => exact ih (ask_bounded asked.1 h hfits.1).1 hfits.2

theorem bounded_holding (slots : List Slot) : (State.holding slots).Bounded slots.length :=
  ⟨Nat.zero_le _, Nat.le_max_left _ _, Nat.zero_le _⟩

end Request

end EvmSafety
