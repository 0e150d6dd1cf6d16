/-
The stack in two parts.

A routine owns the slots above its base; those below belong to its callers.  `on own below`
is the stack with these two parts, and every stack whose base is not above its top is one.
Each operation is stated here once on a stack in two parts: it works on the own slots alone
and hands the others back as they were.  What is proved elsewhere about paths, calls and
returns uses these equations and never unfolds an operation.
-/
import EvmSafety.Stack
import Mathlib.Data.List.GetD

namespace EvmSafety

/-- One operation after another, on a state. -/
theorem bind_apply {ε σ α β : Type} (op : EStateM ε σ α) (rest : α → EStateM ε σ β) (s : σ) :
    (op >>= rest) s
      = match op s with
        | .ok a s => rest a s
        | .error e s => .error e s := rfl

namespace Count

/-- A sum that fits is the sum. -/
theorem sum_eq {a b : Nat} (h : a + b < Decimal.countLimit) : sum a b = a + b :=
  Nat.mod_eq_of_lt h

/-- A difference that needs no borrowing is the difference. -/
theorem difference_eq {a b : Nat} (h : b ≤ a) : difference a b = a - b :=
  if_pos h

end Count

namespace Stack

/-- The stack with the slots `own` above its base and the slots `below` under it. -/
def on (own below : List Slot) : Stack where
  slots := own ++ below
  base := below.length

/-- The base is not above the top, so the depth is a true difference. -/
theorem depth_eq {s : Stack} (h : s.base ≤ s.size) : s.depth = s.size - s.base :=
  Count.difference_eq h

theorem depth_le {s : Stack} (h : s.base ≤ s.size) : s.depth ≤ s.size := by
  rw [depth_eq h]
  exact Nat.sub_le _ _

theorem base_add_depth {s : Stack} (h : s.base ≤ s.size) : s.base + s.depth = s.size := by
  rw [depth_eq h]
  exact Nat.add_sub_cancel' h

/-- The slots above the base. -/
def own (s : Stack) : List Slot :=
  s.slots.take (s.size - s.base)

/-- The slots under the base. -/
def below (s : Stack) : List Slot :=
  s.slots.drop (s.size - s.base)

section

variable (own below : List Slot)

@[simp] theorem slots_on : (on own below).slots = own ++ below := rfl

@[simp] theorem base_on : (on own below).base = below.length := rfl

@[simp] theorem size_on : (on own below).size = own.length + below.length := by
  simp [size]

@[simp] theorem depth_on : (on own below).depth = own.length := by
  rw [depth_eq (by simp), size_on, base_on, Nat.add_sub_cancel]

@[simp] theorem own_on : (on own below).own = own := by
  simp [Stack.own]

@[simp] theorem below_on : (on own below).below = below := by
  simp [Stack.below]

end

theorem length_own {s : Stack} (h : s.base ≤ s.size) : s.own.length = s.depth := by
  rw [Stack.own, List.length_take, depth_eq h]
  exact Nat.min_eq_left (Nat.sub_le _ _)

theorem length_below {s : Stack} (h : s.base ≤ s.size) : s.below.length = s.base := by
  rw [Stack.below, List.length_drop]
  exact Nat.sub_sub_self h

/-- A stack whose base is not above its top is one in two parts. -/
theorem on_own_below {s : Stack} (h : s.base ≤ s.size) : on s.own s.below = s := by
  rw [on, length_below h, Stack.own, Stack.below, List.take_append_drop]

/-! ### Sums that fit -/

/-- Bringing a stack to more slots than it has puts unknown ones on top. -/
theorem resize_add (s : Stack) (n : Nat) :
    s.resize (s.size + n) = { s with slots := List.replicate n .unknown ++ s.slots } := by
  rw [resize, Nat.add_sub_cancel_left, Nat.sub_eq_zero_of_le (Nat.le_add_right _ _),
    List.drop_zero]

theorem pad_apply (n : Nat) (s : Stack) :
    pad n s
      = if s.size + n ≤ stackCapacity then
          .ok () { s with slots := List.replicate n .unknown ++ s.slots }
        else .error .overflow s := by
  rw [pad, growTo, resize_add]

/-- Slots that are there can be removed. -/
theorem discard_apply (n : Nat) {s : Stack} (h : s.base ≤ s.size) :
    discard n s
      = if n ≤ s.depth then .ok () { s with slots := s.slots.drop n }
        else .error (.underflow n s.depth) s := by
  unfold discard
  split
  · next hle =>
    have hsize : n ≤ s.size := Nat.le_trans hle (depth_le h)
    rw [Count.difference_eq hsize, Nat.sub_sub_self hsize]
  · rfl

/-- Where the sum fits, putting unknown slots is padding. -/
theorem pushUnknowns_eq_pad {n : Nat} {s : Stack} (h : s.size + n < Decimal.countLimit) :
    pushUnknowns n s = pad n s := by
  rw [pushUnknowns, Count.sum_eq h, pad]

/-- **Where the sum does not fit, asking for more slots is granted and takes slots away,** those
of the callers too if the routine has fewer. -/
theorem pushUnknowns_of_carry {n : Nat} {s : Stack} (hn : n < Decimal.countLimit)
    (hcarry : Decimal.countLimit ≤ s.size + n) (hsize : s.size ≤ stackCapacity) :
    pushUnknowns n s
      = .ok () { s with slots := s.slots.drop (Decimal.countLimit - n) } := by
  have hlimit : stackCapacity < Decimal.countLimit := by decide
  have hsum : Count.sum s.size n = s.size - (Decimal.countLimit - n) := by
    rw [Count.sum, Nat.mod_eq_sub_mod hcarry, Nat.mod_eq_of_lt (by omega)]
    omega
  have hroom : s.size - (Decimal.countLimit - n) ≤ stackCapacity :=
    Nat.le_trans (Nat.sub_le _ _) hsize
  have hshort : Decimal.countLimit - n ≤ s.size := by omega
  rw [pushUnknowns, hsum, growTo, if_pos hroom, resize, Nat.sub_sub_self hshort,
    Nat.sub_eq_zero_of_le (Nat.sub_le _ _)]
  rfl

/-- Where the sum fits, `apply` replaces the slots on top. -/
theorem apply_eq_replaceTop {pops pushes : Nat} {s : Stack} (hbased : s.base ≤ s.size)
    (h : pops ≤ s.depth → s.size - pops + pushes < Decimal.countLimit) :
    apply pops pushes s = replaceTop pops pushes s := by
  unfold apply replaceTop
  rw [bind_apply, bind_apply, discard_apply pops hbased]
  by_cases hle : pops ≤ s.depth
  · rw [if_pos hle]
    refine pushUnknowns_eq_pad ?_
    rw [size, List.length_drop]
    exact h hle
  · rw [if_neg hle]

/-! ### Operations on a stack in two parts -/

section

variable {own below : List Slot}

theorem push_on (slot : Slot) :
    push slot (on own below)
      = if own.length + below.length < stackCapacity then .ok () (on (slot :: own) below)
        else .error .overflow (on own below) := by
  rw [push, size_on]
  rfl

theorem pad_on (n : Nat) :
    pad n (on own below)
      = if own.length + below.length + n ≤ stackCapacity then
          .ok () (on (List.replicate n .unknown ++ own) below)
        else .error .overflow (on own below) := by
  rw [pad_apply, size_on]
  simp only [on, List.append_assoc]

theorem pop_on_nil : pop (on [] below) = .error (.underflow 1 0) (on [] below) := by
  rw [pop, depth_on]
  rfl

theorem pop_on_cons (slot : Slot) :
    pop (on (slot :: own) below) = .ok slot (on own below) := by
  rw [pop, depth_on]
  rfl

theorem discard_on (n : Nat) :
    discard n (on own below)
      = if n ≤ own.length then .ok () (on (own.drop n) below)
        else .error (.underflow n own.length) (on own below) := by
  rw [discard_apply n (by simp), depth_on]
  split
  · next h => simp only [on, List.drop_append_of_le_length h]
  · rfl

theorem dup_on (n : Nat) :
    dup n (on own below)
      = if n = 0 ∨ own.length < n then .error (.underflow n own.length) (on own below)
        else push (own.getD (n - 1) .unknown) (on own below) := by
  rw [dup, depth_on]
  split
  · rfl
  · next h =>
    have hlt : n - 1 < own.length := by omega
    rw [slots_on, List.getD_append _ _ _ _ hlt]

/-- Exchanging stays among the slots it counts. -/
theorem exchange_append {n : Nat} (hn : n ≠ 0) (h : n < own.length) :
    exchange n (own ++ below) = exchange n own ++ below := by
  cases own with
  | nil => simp at h
  | cons top rest =>
    have hlt : n - 1 < rest.length := by
      simp only [List.length_cons] at h
      omega
    simp only [List.cons_append, exchange, List.getD_append _ _ _ _ hlt,
      List.set_append_left _ _ hlt]

theorem length_exchange (n : Nat) : (exchange n own).length = own.length := by
  cases own <;> simp [exchange]

theorem swap_on (n : Nat) :
    swap n (on own below)
      = if n = 0 ∨ own.length ≤ n then
          .error (.underflow (Count.sum n 1) own.length) (on own below)
        else .ok () (on (exchange n own) below) := by
  rw [swap, depth_on]
  split
  · rfl
  · next h =>
    rw [slots_on, exchange_append (by omega) (by omega)]
    rfl

theorem replaceTop_on (pops pushes : Nat) :
    replaceTop pops pushes (on own below)
      = if pops ≤ own.length then
          pad pushes (on (own.drop pops) below)
        else .error (.underflow pops own.length) (on own below) := by
  unfold replaceTop
  rw [bind_apply, discard_on]
  by_cases h : pops ≤ own.length
  · rw [if_pos h, if_pos h]
  · rw [if_neg h, if_neg h]

theorem takeDestination_on_nil (code : Code) :
    takeDestination code (on [] below) = .error (.underflow 1 0) (on [] below) := by
  unfold takeDestination
  rw [bind_apply, pop_on_nil]

theorem takeDestination_on_unknown (code : Code) :
    takeDestination code (on (.unknown :: own) below) = .error .dynamicJump (on own below) := by
  unfold takeDestination
  rw [bind_apply, pop_on_cons]
  rfl

theorem takeDestination_on_constant (code : Code) (word : Word) :
    takeDestination code (on (.constant word :: own) below)
      = if code.isDest word.toNat then .ok word.toNat (on own below)
        else .error (.invalidDestination word) (on own below) := by
  unfold takeDestination
  rw [bind_apply, pop_on_cons]
  dsimp only
  split <;> rfl

/-! ### Moving the base -/

theorem forget_on (n : Nat) :
    forget n (on own below)
      = on (List.replicate (min n own.length) .unknown ++ own.drop n) below := by
  have hmin := Nat.min_le_right n own.length
  have hdrop : own.drop (min n own.length) = own.drop n := by
    rcases Nat.le_total n own.length with h | h
    · rw [Nat.min_eq_left h]
    · rw [Nat.min_eq_right h, List.drop_length, List.drop_eq_nil_of_le h]
  unfold forget
  dsimp only
  rw [depth_on, slots_on, base_on, List.drop_append_of_le_length hmin, hdrop]
  simp only [on, List.append_assoc]

/-- All that is above the base can be forgotten at once. -/
theorem forget_own :
    forget own.length (on own below) = on (List.replicate own.length .unknown) below := by
  rw [forget_on, Nat.min_self, List.drop_length, List.append_nil]

theorem raiseBase_on : raiseBase (on own below) = on [] (own ++ below) := by
  simp [raiseBase, on, size]

theorem depth_raiseBase (s : Stack) : s.raiseBase.depth = 0 := by
  rw [depth_eq (Nat.le_refl _)]
  exact Nat.sub_self _

/-- A lower base hands the slots between over to the routine. -/
theorem restoreBase_on {base : Nat} (h : base ≤ below.length) :
    restoreBase base (on own below)
      = on (own ++ below.take (below.length - base)) (below.drop (below.length - base)) := by
  have hlen : (below.drop (below.length - base)).length = base := by
    rw [List.length_drop]
    omega
  unfold restoreBase
  rw [size_on, Nat.min_eq_left (by omega)]
  simp only [on, List.append_assoc, List.take_append_drop, hlen]

end

end Stack

end EvmSafety
