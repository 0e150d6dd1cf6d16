/-
The symbolic stack.

A slot does not hold a word but what is known of one: that it is a constant that some push
put there, moved since by copies and exchanges at most, or nothing.  Only the first can name
a jump destination.

The top of the stack is the head of the list.  The base splits it: the slots below belong to
the caller of the current routine and no operation reads, moves or removes them.  Everything
an operation asks about is therefore the depth above the base.

Operations that can fail keep the stack as they left it when they did.  Most fail before they
change anything; a failed `apply` has removed its operands, and a failed `takeDestination` has
removed the destination.

Counts and sizes are words of 64 bits, and a sum or a difference that does not fit in one
comes out too small or too large.  A list that fits in memory is far from that size; a number
of slots that is asked for is not.  So `pushUnknowns` and `apply` can shorten the stack, even
below the base, and such a stack claims a depth that it does not have.  Where `dup`, `swap` or
`forget` would then reach for a slot that is not there, the program stops; what they do here
is of no account.  `pad` and `replaceTop` are the same two operations with a sum that always
fits.  A walk, which never asks for more slots than there may be, is told with these.
-/
import EvmSafety.Code
import EvmSafety.Text.Decimal

namespace EvmSafety

/-- How many slots the data stack may hold, and how many frames the return stack. -/
def stackCapacity : Nat := 1024

/-- What is known of one word on the stack. -/
inductive Slot
  /-- It is this constant. -/
  | constant (word : Word)
  /-- Nothing. -/
  | unknown
  deriving DecidableEq, Repr, Inhabited

/-- Whether the word is known. -/
def Slot.isKnown : Slot → Bool
  | constant _ => true
  | unknown => false

/-- Why an operation on the stacks fails. -/
inductive StackFault
  /-- Fewer slots above the base than needed. -/
  | underflow (needed available : Nat)
  /-- The data stack would outgrow its limit. -/
  | overflow
  /-- A return without an open frame. -/
  | returnUnderflow
  /-- The return stack would outgrow its limit. -/
  | returnOverflow
  /-- The destination is not a known constant. -/
  | dynamicJump
  /-- The destination is a constant that no jump may land on. -/
  | invalidDestination (word : Word)
  deriving DecidableEq, Repr

namespace StackFault

/-- The kind of violation the fault makes. -/
def kind : StackFault → Violation.Kind
  | underflow .. | returnUnderflow => .stackUnderflow
  | overflow | returnOverflow => .stackOverflow
  | dynamicJump => .dynamicJump
  | invalidDestination _ => .invalidDestination

/-- The wording of the fault. -/
def message : StackFault → String
  | underflow needed available => s!"stack underflow: needed {needed} items, have {available}"
  | overflow => s!"stack overflow: limit {stackCapacity}"
  | returnUnderflow => "return stack underflow"
  | returnOverflow => s!"return stack overflow: limit {stackCapacity}"
  | dynamicJump => "jump destination has no static provenance"
  | invalidDestination word => s!"invalid jump destination {word.text}"

end StackFault

namespace Count

/-- The sum of two counts.  What does not fit in 64 bits is lost. -/
def sum (a b : Nat) : Nat :=
  (a + b) % Decimal.countLimit

/-- The difference of two counts.  What is missing is borrowed. -/
def difference (a b : Nat) : Nat :=
  if b ≤ a then a - b else a + Decimal.countLimit - b

end Count

/-- A stack of slots, the top first, with the base of the current routine. -/
structure Stack where
  /-- The slots, the top first. -/
  slots : List Slot := []
  /-- How many slots at the bottom belong to callers. -/
  base : Nat := 0
  deriving DecidableEq, Repr, Inhabited

/-- An operation on a stack that may fail. -/
abbrev StackOp (α : Type) := EStateM StackFault Stack α

namespace Stack

/-- How many slots there are. -/
def size (s : Stack) : Nat :=
  s.slots.length

/-- How many slots lie above the base. -/
def depth (s : Stack) : Nat :=
  Count.difference s.size s.base

/-! ### Operations that always succeed -/

/-- Make the current top the base. -/
def raiseBase (s : Stack) : Stack :=
  { s with base := s.size }

/-- Put the base back to an earlier place, at most to the top. -/
def restoreBase (base : Nat) (s : Stack) : Stack :=
  { s with base := min base s.size }

/-- Bring the stack to a size: unknown slots come on top, or slots go from the top. -/
def resize (size : Nat) (s : Stack) : Stack :=
  { s with slots := List.replicate (size - s.size) .unknown ++ s.slots.drop (s.size - size) }

/-- Forget what is known of the top `n` slots above the base. -/
def forget (n : Nat) (s : Stack) : Stack :=
  let k := min n s.depth
  { s with slots := List.replicate k .unknown ++ s.slots.drop k }

/-! ### Operations that may fail -/

/-- Put one slot on top. -/
def push (slot : Slot) : StackOp Unit := fun s =>
  if s.size < stackCapacity then .ok () { s with slots := slot :: s.slots }
  else .error .overflow s

/-- Bring the stack to a size if it may have that many slots. -/
def growTo (size : Nat) : StackOp Unit := fun s =>
  if size ≤ stackCapacity then .ok () (s.resize size) else .error .overflow s

/-- Put `n` slots on top of which nothing is known. -/
def pushUnknowns (n : Nat) : StackOp Unit := fun s =>
  growTo (Count.sum s.size n) s

/-- Put `n` unknown slots on top, with a sum that fits. -/
def pad (n : Nat) : StackOp Unit := fun s =>
  growTo (s.size + n) s

/-- Take the top slot. -/
def pop : StackOp Slot := fun s =>
  match s.depth, s.slots with
  | _ + 1, slot :: rest => .ok slot { s with slots := rest }
  | _, _ => .error (.underflow 1 0) s

/-- Remove the top `n` slots. -/
def discard (n : Nat) : StackOp Unit := fun s =>
  if n ≤ s.depth then
    .ok () { s with slots := s.slots.drop (s.size - Count.difference s.size n) }
  else .error (.underflow n s.depth) s

/-- Copy the `n`-th slot from the top, counted from one, onto the top. -/
def dup (n : Nat) : StackOp Unit := fun s =>
  if n = 0 ∨ s.depth < n then .error (.underflow n s.depth) s
  else push (s.slots.getD (n - 1) .unknown) s

/-- The list with its head and its `n`-th entry after the head exchanged. -/
def exchange (n : Nat) : List Slot → List Slot
  | [] => []
  | top :: rest => rest.getD (n - 1) .unknown :: rest.set (n - 1) top

/-- Exchange the top with the slot `n` below it. -/
def swap (n : Nat) : StackOp Unit := fun s =>
  if n = 0 ∨ s.depth ≤ n then .error (.underflow (Count.sum n 1) s.depth) s
  else .ok () { s with slots := exchange n s.slots }

/-- Remove `pops` slots, then put `pushes` unknown ones. -/
def apply (pops pushes : Nat) : StackOp Unit := do
  discard pops
  pushUnknowns pushes

/-- Remove `pops` slots, then put `pushes` unknown ones, with a sum that fits. -/
def replaceTop (pops pushes : Nat) : StackOp Unit := do
  discard pops
  pad pushes

/-- Take the top slot and read it as the name of a destination of `code`. -/
def takeDestination (code : Code) : StackOp Nat := do
  match ← pop with
  | .unknown => throw .dynamicJump
  | .constant word =>
    if code.isDest word.toNat then return word.toNat
    else throw (.invalidDestination word)

end Stack

end EvmSafety
