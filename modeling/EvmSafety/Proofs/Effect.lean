/-
What an instruction does to a stack in two parts.

`execute` goes through the operations of the state one after another; here its successful
outcomes are listed once, on a stack in two parts, as the inductive family `Executes`.  Each
outcome says which slots were taken and left, where the path goes, and that the slots below
the base and the open frames are as before.  What the walk does next is decided from these
outcomes alone.

The table of opcodes counts the words an instruction takes and leaves, and `execute` moves
them; `Counted` says what the counts of an entry have to be for the two to agree, and every
entry of the table is so counted.
-/
import EvmSafety.Flow
import EvmSafety.Proofs.Split
import EvmSafety.Proofs.Tiling

namespace EvmSafety

/-- One operation after another succeeds if both do. -/
theorem bind_eq_ok {ε σ α β : Type} {op : EStateM ε σ α} {rest : α → EStateM ε σ β} {s s' : σ}
    {b : β} (h : (op >>= rest) s = .ok b s') :
    ∃ a t, op s = .ok a t ∧ rest a t = .ok b s' := by
  rw [bind_apply] at h
  cases hop : op s with
  | ok a t => exact ⟨a, t, rfl, by rw [hop] at h; exact h⟩
  | error e t => rw [hop] at h; cases h

/-! ### Operations on states -/

namespace State

theorem onStack_eq_ok {α : Type} {op : StackOp α} {s t : State} {a : α}
    (h : onStack op s = .ok a t) : ∃ stack, op s.stack = .ok a stack ∧ t = { s with stack } := by
  unfold onStack at h
  cases hop : op s.stack with
  | ok b stack =>
    rw [hop] at h
    cases h
    exact ⟨stack, rfl, rfl⟩
  | error fault stack =>
    rw [hop] at h
    cases h

theorem admitCall_eq_ok {s t : State} {u : Unit} (h : admitCall s = .ok u t) :
    s.frames.length < stackCapacity ∧ t = s := by
  unfold admitCall at h
  by_cases hroom : s.frames.length < stackCapacity
  · rw [if_pos hroom] at h
    cases h
    exact ⟨hroom, rfl⟩
  · rw [if_neg hroom] at h
    cases h

theorem call_apply (entry returnTo : Nat) (s : State) :
    State.call entry returnTo s =
      if s.frames.length < stackCapacity then
        .ok () ⟨s.stack.raiseBase, ⟨returnTo, s.stack.base, entry⟩ :: s.frames⟩
      else .error .returnOverflow s := by
  unfold State.call
  rw [bind_apply, admitCall]
  by_cases hroom : s.frames.length < stackCapacity
  · rw [if_pos hroom, if_pos hroom]
    rfl
  · rw [if_neg hroom, if_neg hroom]

end State

/-! ### Kinds of moves -/

namespace Move

/-- Whether a move always goes on to the following instruction. -/
def isStraight : Move → Bool
  | .push | .dup _ | .swap _ | .jumpdest | .effect => true
  | _ => false

/-- Whether the destination of a move is taken from the stack. -/
def popsDestination : Move → Bool
  | .jump | .jumpi | .jumpsub => true
  | _ => false

/-- Whether the destination of a move is spelt by its immediate. -/
def isRelative : Move → Bool
  | .rjump | .rjumpi => true
  | _ => false

/-- Straight moves and halts have no destination. -/
theorem noDestination {move : Move} (h : move.isStraight = true ∨ move = .halt) :
    move.popsDestination = false ∧ move.isRelative = false := by
  rcases h with h | rfl
  · cases move with
    | push | dup | swap | jumpdest | effect => exact ⟨rfl, rfl⟩
    | halt | invalid | jump | jumpi | rjump | rjumpi | jumpsub | returnsub => cases h
  · exact ⟨rfl, rfl⟩

end Move

/-! ### The counts of the table -/

namespace Opcode

/-- The counts of words are those of the move. -/
def Counted (op : Opcode) : Prop :=
  match op.move with
  | .push => op.pops = 0 ∧ op.pushes = 1
  | .dup n => n ≠ 0 ∧ op.pops = n ∧ op.pushes = n + 1
  | .swap n => n ≠ 0 ∧ op.pops = n + 1 ∧ op.pushes = n + 1
  | .jump | .jumpsub | .rjumpi => op.pops = 1 ∧ op.pushes = 0
  | .jumpi => op.pops = 2 ∧ op.pushes = 0
  | .rjump | .returnsub | .jumpdest | .invalid => op.pops = 0 ∧ op.pushes = 0
  | .halt => op.pushes = 0
  | .effect => True

instance (op : Opcode) : Decidable op.Counted := by
  unfold Counted
  split <;> infer_instance

/-- Only straight moves leave words. -/
theorem Counted.pushes_eq_zero {op : Opcode} (h : op.Counted)
    (hmove : op.move.isStraight = false) : op.pushes = 0 := by
  unfold Counted at h
  cases hkind : op.move with
  | push | dup | swap | jumpdest | effect =>
    rw [hkind] at hmove
    cases hmove
  | halt =>
    rw [hkind] at h
    exact h
  | invalid | jump | jumpi | rjump | rjumpi | jumpsub | returnsub =>
    rw [hkind] at h
    exact h.2

theorem counted_of_mem_table : ∀ op ∈ table, op.Counted := by
  decide +kernel

end Opcode

theorem Code.counted_of_decode {code : Code} {offset : Nat} {ins : Instruction}
    (h : code.decode offset = .ok ins) : ins.opcode.Counted :=
  Opcode.counted_of_mem_table _ (Code.mem_table_of_decode h)

namespace Instruction

/-! ### Straight-line instructions -/

/-- What an instruction that goes on to the next one makes of the own slots. -/
inductive Straight (ins : Instruction) (own : List Slot) : List Slot → Prop
  | push (hmove : ins.opcode.move = .push) :
      Straight ins own (.constant ins.literal :: own)
  | dup {n : Nat} (hmove : ins.opcode.move = .dup n) (hn : n ≠ 0) (hle : n ≤ own.length) :
      Straight ins own (own.getD (n - 1) .unknown :: own)
  | swap {n : Nat} (hmove : ins.opcode.move = .swap n) (hn : n ≠ 0) (hlt : n < own.length) :
      Straight ins own (Stack.exchange n own)
  | effect (hmove : ins.opcode.move = .jumpdest ∨ ins.opcode.move = .effect)
      (hle : ins.opcode.pops ≤ own.length) :
      Straight ins own
        (List.replicate ins.opcode.pushes .unknown ++ own.drop ins.opcode.pops)

/-- A straight-line instruction takes and leaves what the table says. -/
theorem Straight.length_eq {ins : Instruction} {own own' : List Slot}
    (h : Straight ins own own') (hcounted : ins.opcode.Counted) :
    ins.opcode.pops ≤ own.length ∧
      own'.length = own.length - ins.opcode.pops + ins.opcode.pushes := by
  unfold Opcode.Counted at hcounted
  cases h with
  | push hmove =>
    rw [hmove] at hcounted
    obtain ⟨hpops, hpushes⟩ := hcounted
    rw [hpops, hpushes]
    simp
  | dup hmove hn hle =>
    rw [hmove] at hcounted
    obtain ⟨-, hpops, hpushes⟩ := hcounted
    rw [hpops, hpushes, List.length_cons]
    omega
  | swap hmove hn hlt =>
    rw [hmove] at hcounted
    obtain ⟨-, hpops, hpushes⟩ := hcounted
    rw [hpops, hpushes, Stack.length_exchange]
    omega
  | effect hmove hle =>
    refine ⟨hle, ?_⟩
    rw [List.length_append, List.length_replicate, List.length_drop]
    omega

theorem Straight.isStraight {ins : Instruction} {own own' : List Slot}
    (h : Straight ins own own') : ins.opcode.move.isStraight = true := by
  cases h with
  | push hmove => rw [hmove]; rfl
  | dup hmove => rw [hmove]; rfl
  | swap hmove => rw [hmove]; rfl
  | effect hmove => rcases hmove with hmove | hmove <;> rw [hmove] <;> rfl

/-! ### All instructions -/

/-- The successful outcomes of an instruction on a stack in two parts: where the path goes,
and the state it goes there with. -/
inductive Executes (code : Code) (ins : Instruction) (own below : List Slot)
    (frames : List Frame) : Flow → State → Prop
  | halt (hmove : ins.opcode.move = .halt) (hle : ins.opcode.pops ≤ own.length) :
      Executes code ins own below frames .halt
        ⟨.on (own.drop ins.opcode.pops) below, frames⟩
  | straight {own' : List Slot} (h : Straight ins own own') :
      Executes code ins own below frames .advance ⟨.on own' below, frames⟩
  | jump {word : Word} {own' : List Slot} (hmove : ins.opcode.move = .jump)
      (hown : own = .constant word :: own') (hdest : code.isDest word.toNat = true) :
      Executes code ins own below frames (.jump word.toNat) ⟨.on own' below, frames⟩
  | rjump {dest : Nat} (hmove : ins.opcode.move = .rjump)
      (htarget : ins.relativeTarget = some dest) (hdest : code.isDest dest = true) :
      Executes code ins own below frames (.jump dest) ⟨.on own below, frames⟩
  | jumpi {word : Word} {condition : Slot} {own' : List Slot}
      (hmove : ins.opcode.move = .jumpi) (hown : own = .constant word :: condition :: own')
      (hdest : code.isDest word.toNat = true) :
      Executes code ins own below frames (.branch word.toNat) ⟨.on own' below, frames⟩
  | rjumpi {condition : Slot} {own' : List Slot} {dest : Nat}
      (hmove : ins.opcode.move = .rjumpi) (hown : own = condition :: own')
      (htarget : ins.relativeTarget = some dest) (hdest : code.isDest dest = true) :
      Executes code ins own below frames (.branch dest) ⟨.on own' below, frames⟩
  | jumpsub {word : Word} {own' : List Slot} (hmove : ins.opcode.move = .jumpsub)
      (hown : own = .constant word :: own') (hdest : code.isDest word.toNat = true)
      (hroom : frames.length < stackCapacity) :
      Executes code ins own below frames (.call word.toNat) ⟨.on own' below, frames⟩
  | returnsub {frame : Frame} {rest : List Frame} (hmove : ins.opcode.move = .returnsub)
      (hframes : frames = frame :: rest) :
      Executes code ins own below frames (.back own.length frame)
        ⟨(Stack.on (List.replicate own.length .unknown) below).restoreBase frame.callerBase,
          rest⟩

theorem Executes.move_ne_invalid {code : Code} {ins : Instruction} {own below : List Slot}
    {frames : List Frame} {flow : Flow} {state : State}
    (h : Executes code ins own below frames flow state) : ins.opcode.move ≠ .invalid := by
  intro hinvalid
  cases h with
  | straight h => cases hinvalid ▸ h.isStraight
  | _ hmove => cases hinvalid.symm.trans hmove

/-- Only a return changes the routine. -/
theorem Executes.routine_eq {code : Code} {ins : Instruction} {own below : List Slot}
    {s state : State} {flow : Flow} (h : Executes code ins own below s.frames flow state)
    (hreturn : ins.opcode.move ≠ .returnsub) : state.routine = s.routine := by
  cases h with
  | returnsub hmove => exact absurd hmove hreturn
  | _ => rfl

/-- A jump that succeeds has a constant destination, and may land there. -/
theorem Executes.lands {code : Code} {ins : Instruction} {own below : List Slot}
    {frames : List Frame} {flow : Flow} {state : State}
    (h : Executes code ins own below frames flow state) :
    (ins.opcode.move.popsDestination = true → ∃ word own',
      own = .constant word :: own' ∧ code.isDest word.toNat = true) ∧
    (ins.opcode.move.isRelative = true → ∃ dest,
      ins.relativeTarget = some dest ∧ code.isDest dest = true) := by
  cases h with
  | halt hmove =>
    obtain ⟨hpopped, hrelative⟩ := Move.noDestination (.inr hmove)
    simp [hpopped, hrelative]
  | straight h =>
    obtain ⟨hpopped, hrelative⟩ := Move.noDestination (.inl h.isStraight)
    simp [hpopped, hrelative]
  | jump hmove hown hdest =>
    exact ⟨fun _ => ⟨_, _, hown, hdest⟩, by simp [hmove, Move.isRelative]⟩
  | jumpi hmove hown hdest =>
    exact ⟨fun _ => ⟨_, _, hown, hdest⟩, by simp [hmove, Move.isRelative]⟩
  | jumpsub hmove hown hdest =>
    exact ⟨fun _ => ⟨_, _, hown, hdest⟩, by simp [hmove, Move.isRelative]⟩
  | rjump hmove htarget hdest =>
    exact ⟨by simp [hmove, Move.popsDestination], fun _ => ⟨_, htarget, hdest⟩⟩
  | rjumpi hmove _ htarget hdest =>
    exact ⟨by simp [hmove, Move.popsDestination], fun _ => ⟨_, htarget, hdest⟩⟩
  | returnsub hmove => simp [hmove, Move.popsDestination, Move.isRelative]

/-- Every instruction but a return takes and leaves what the table says, and none of them
touches the callers. -/
theorem Executes.counts {code : Code} {ins : Instruction} {own below : List Slot}
    {frames : List Frame} {flow : Flow} {state : State}
    (h : Executes code ins own below frames flow state) (hcounted : ins.opcode.Counted) :
    ins.opcode.pops ≤ own.length ∧
      ((∀ net frame, flow ≠ .back net frame) → ∃ own', state = ⟨.on own' below, frames⟩ ∧
        own'.length = own.length - ins.opcode.pops + ins.opcode.pushes) := by
  cases h with
  | halt hmove hle =>
    rw [Opcode.Counted, hmove] at hcounted
    exact ⟨hle, fun _ => ⟨_, rfl, by rw [List.length_drop, hcounted, Nat.add_zero]⟩⟩
  | straight h =>
    obtain ⟨hle, hlength⟩ := h.length_eq hcounted
    exact ⟨hle, fun _ => ⟨_, rfl, hlength⟩⟩
  | jump hmove hown =>
    rw [Opcode.Counted, hmove] at hcounted
    rw [hown, hcounted.1, hcounted.2]
    exact ⟨by simp, fun _ => ⟨_, rfl, by simp⟩⟩
  | rjump hmove =>
    rw [Opcode.Counted, hmove] at hcounted
    rw [hcounted.1, hcounted.2]
    exact ⟨by simp, fun _ => ⟨_, rfl, by simp⟩⟩
  | jumpi hmove hown =>
    rw [Opcode.Counted, hmove] at hcounted
    rw [hown, hcounted.1, hcounted.2]
    exact ⟨by simp, fun _ => ⟨_, rfl, by simp⟩⟩
  | rjumpi hmove hown =>
    rw [Opcode.Counted, hmove] at hcounted
    rw [hown, hcounted.1, hcounted.2]
    exact ⟨by simp, fun _ => ⟨_, rfl, by simp⟩⟩
  | jumpsub hmove hown =>
    rw [Opcode.Counted, hmove] at hcounted
    rw [hown, hcounted.1, hcounted.2]
    exact ⟨by simp, fun _ => ⟨_, rfl, by simp⟩⟩
  | returnsub hmove =>
    rw [Opcode.Counted, hmove] at hcounted
    rw [hcounted.1]
    exact ⟨Nat.zero_le _, fun hnot => absurd rfl (hnot _ _)⟩

/-- Only an instruction that goes on to the next one leaves words. -/
theorem Executes.pushes_eq_zero {code : Code} {ins : Instruction} {own below : List Slot}
    {frames : List Frame} {flow : Flow} {state : State}
    (h : Executes code ins own below frames flow state) (hcounted : ins.opcode.Counted)
    (hflow : flow ≠ .advance) : ins.opcode.pushes = 0 := by
  refine hcounted.pushes_eq_zero (eq_false_of_ne_true fun hstraight => ?_)
  cases h with
  | straight => exact hflow rfl
  | halt hmove | jump hmove | rjump hmove | jumpi hmove | rjumpi hmove | jumpsub hmove
  | returnsub hmove =>
    rw [hmove] at hstraight
    cases hstraight

/-- Only a call on a constant calls. -/
theorem Executes.of_call {code : Code} {ins : Instruction} {own below : List Slot}
    {frames : List Frame} {entry : Nat} {state : State}
    (h : Executes code ins own below frames (.call entry) state) :
    ins.opcode.move = .jumpsub ∧ code.isDest entry = true ∧ ∃ word own',
      own = .constant word :: own' ∧ word.toNat = entry ∧ state = ⟨.on own' below, frames⟩ := by
  cases h with
  | jumpsub hmove hown hdest => exact ⟨hmove, hdest, _, _, hown, rfl, rfl⟩

theorem attempt_eq_ok {α : Type} {op : StateOp α} {st st' : State} {a : α}
    (h : attempt op st = .ok a st') : op st = .ok a st' := by
  unfold attempt at h
  cases hop : op st with
  | ok b t =>
    rw [hop] at h
    cases h
    rfl
  | error fault t =>
    rw [hop] at h
    cases h

theorem onStack_eq_ok {α : Type} {op : StackOp α} {stack : Stack} {frames : List Frame} {a : α}
    {st : State} (h : onStack op ⟨stack, frames⟩ = .ok a st) :
    ∃ stack', op stack = .ok a stack' ∧ st = ⟨stack', frames⟩ :=
  State.onStack_eq_ok (attempt_eq_ok h)

/-- An operation on the data stack, and then the rest. -/
theorem onStack_bind_eq_ok {α β : Type} {op : StackOp α}
    {rest : α → EStateM Violation.Kind State β} {stack : Stack} {frames : List Frame} {b : β}
    {st : State} (h : (onStack op >>= rest) ⟨stack, frames⟩ = .ok b st) :
    ∃ a stack', op stack = .ok a stack' ∧ rest a ⟨stack', frames⟩ = .ok b st := by
  obtain ⟨a, t, hrun, hrest⟩ := bind_eq_ok h
  obtain ⟨stack', hop, rfl⟩ := onStack_eq_ok hrun
  exact ⟨a, stack', hop, hrest⟩

theorem relativeLanding_of_target {code : Code} {ins : Instruction} {dest : Nat}
    (htarget : ins.relativeTarget = some dest) (hdest : code.isDest dest = true) :
    ins.relativeLanding code = some dest :=
  Option.filter_eq_some_iff.2 ⟨htarget, hdest⟩

theorem goRelative_eq_ok {code : Code} {ins : Instruction} {flow : Nat → Flow} {st st' : State}
    {flow' : Flow} (h : goRelative code ins flow st = .ok flow' st') :
    ∃ dest, ins.relativeTarget = some dest ∧ code.isDest dest = true ∧ flow' = flow dest
      ∧ st' = st := by
  unfold goRelative at h
  cases hlanding : ins.relativeLanding code with
  | none => rw [hlanding] at h; cases h
  | some dest =>
    obtain ⟨htarget, hin⟩ := Option.filter_eq_some_iff.1 hlanding
    rw [hlanding] at h
    cases h
    exact ⟨dest, htarget, hin, rfl, rfl⟩

end Instruction

namespace Stack

theorem pop_on_eq_ok {own below : List Slot} {slot : Slot} {s : Stack}
    (h : pop (on own below) = .ok slot s) : ∃ own', own = slot :: own' ∧ s = on own' below := by
  cases own with
  | nil => rw [pop_on_nil] at h; cases h
  | cons top own' =>
    rw [pop_on_cons] at h
    cases h
    exact ⟨own', rfl, rfl⟩

theorem takeDestination_on_eq_ok {code : Code} {own below : List Slot} {dest : Nat} {s : Stack}
    (h : takeDestination code (on own below) = .ok dest s) :
    ∃ word own', own = .constant word :: own' ∧ word.toNat = dest ∧ code.isDest dest = true
      ∧ s = on own' below := by
  cases own with
  | nil => rw [takeDestination_on_nil] at h; cases h
  | cons top own' =>
    cases top with
    | unknown => rw [takeDestination_on_unknown] at h; cases h
    | constant word =>
      rw [takeDestination_on_constant] at h
      split at h
      · next hdest =>
        cases h
        exact ⟨word, own', rfl, rfl, hdest, rfl⟩
      · cases h

theorem push_on_eq_ok {slot : Slot} {own below : List Slot} {s : Stack} {u : Unit}
    (h : push slot (on own below) = .ok u s) : s = on (slot :: own) below := by
  rw [push_on] at h
  split at h
  · cases h; rfl
  · cases h

theorem pad_on_eq_ok {n : Nat} {own below : List Slot} {s : Stack} {u : Unit}
    (h : pad n (on own below) = .ok u s) :
    s = on (List.replicate n .unknown ++ own) below := by
  rw [pad_on] at h
  split at h
  · cases h; rfl
  · cases h

theorem discard_on_eq_ok {n : Nat} {own below : List Slot} {s : Stack} {u : Unit}
    (h : discard n (on own below) = .ok u s) : n ≤ own.length ∧ s = on (own.drop n) below := by
  rw [discard_on] at h
  split at h
  · next hle => cases h; exact ⟨hle, rfl⟩
  · cases h

theorem dup_on_eq_ok {n : Nat} {own below : List Slot} {s : Stack} {u : Unit}
    (h : dup n (on own below) = .ok u s) :
    n ≠ 0 ∧ n ≤ own.length ∧ s = on (own.getD (n - 1) .unknown :: own) below := by
  rw [dup_on] at h
  split at h
  · cases h
  · next hn => exact ⟨by omega, by omega, push_on_eq_ok h⟩

theorem swap_on_eq_ok {n : Nat} {own below : List Slot} {s : Stack} {u : Unit}
    (h : swap n (on own below) = .ok u s) :
    n ≠ 0 ∧ n < own.length ∧ s = on (exchange n own) below := by
  rw [swap_on] at h
  split at h
  · cases h
  · next hn => cases h; exact ⟨by omega, by omega, rfl⟩

theorem replaceTop_on_eq_ok {pops pushes : Nat} {own below : List Slot} {s : Stack} {u : Unit}
    (h : replaceTop pops pushes (on own below) = .ok u s) :
    pops ≤ own.length ∧ s = on (List.replicate pushes .unknown ++ own.drop pops) below := by
  rw [replaceTop_on] at h
  split at h
  · next hle => exact ⟨hle, pad_on_eq_ok h⟩
  · cases h

end Stack

namespace Instruction

/-- A return on a stack in two parts forgets the own slots and closes the frame. -/
theorem leave_on_eq_ok {own below : List Slot} {frames : List Frame} {flow : Flow} {st : State}
    (h : leave ⟨.on own below, frames⟩ = .ok flow st) :
    ∃ frame rest, frames = frame :: rest ∧ flow = .back own.length frame ∧
      st = ⟨(Stack.on (List.replicate own.length .unknown) below).restoreBase frame.callerBase,
        rest⟩ := by
  cases frames with
  | nil => cases h
  | cons frame rest =>
    simp only [leave, State.ret, Stack.depth_on, Stack.forget_own,
      EStateM.Result.ok.injEq] at h
    exact ⟨frame, rest, rfl, h.1.symm, h.2.symm⟩

/-- **Every success of an instruction is one of the listed outcomes.** -/
theorem executes_of_execute {code : Code} {ins : Instruction} {own below : List Slot}
    {frames : List Frame} {flow : Flow} {st : State}
    (h : ins.execute code ⟨.on own below, frames⟩ = .ok flow st) :
    Executes code ins own below frames flow st := by
  unfold execute at h
  cases hmove : ins.opcode.move with
  | halt =>
    simp only [hmove] at h
    obtain ⟨u, s, hop, h⟩ := onStack_bind_eq_ok h
    obtain ⟨hle, rfl⟩ := Stack.discard_on_eq_ok hop
    cases h
    exact .halt hmove hle
  | invalid => simp only [hmove] at h; cases h
  | push =>
    simp only [hmove] at h
    obtain ⟨u, s, hop, h⟩ := onStack_bind_eq_ok h
    obtain rfl := Stack.push_on_eq_ok hop
    cases h
    exact .straight (.push hmove)
  | dup n =>
    simp only [hmove] at h
    obtain ⟨u, s, hop, h⟩ := onStack_bind_eq_ok h
    obtain ⟨hn, hle, rfl⟩ := Stack.dup_on_eq_ok hop
    cases h
    exact .straight (.dup hmove hn hle)
  | swap n =>
    simp only [hmove] at h
    obtain ⟨u, s, hop, h⟩ := onStack_bind_eq_ok h
    obtain ⟨hn, hlt, rfl⟩ := Stack.swap_on_eq_ok hop
    cases h
    exact .straight (.swap hmove hn hlt)
  | jumpdest =>
    simp only [hmove] at h
    obtain ⟨u, s, hop, h⟩ := onStack_bind_eq_ok h
    obtain ⟨hle, rfl⟩ := Stack.replaceTop_on_eq_ok hop
    cases h
    exact .straight (.effect (.inl hmove) hle)
  | effect =>
    simp only [hmove] at h
    obtain ⟨u, s, hop, h⟩ := onStack_bind_eq_ok h
    obtain ⟨hle, rfl⟩ := Stack.replaceTop_on_eq_ok hop
    cases h
    exact .straight (.effect (.inr hmove) hle)
  | jump =>
    simp only [hmove] at h
    obtain ⟨dest, s, hop, h⟩ := onStack_bind_eq_ok h
    obtain ⟨word, own', hown, rfl, hdest, rfl⟩ := Stack.takeDestination_on_eq_ok hop
    cases h
    exact .jump hmove hown hdest
  | jumpi =>
    simp only [hmove] at h
    obtain ⟨dest, s, hop, h⟩ := onStack_bind_eq_ok h
    obtain ⟨word, own', hown, rfl, hdest, rfl⟩ := Stack.takeDestination_on_eq_ok hop
    obtain ⟨condition, s, hpop, h⟩ := onStack_bind_eq_ok h
    obtain ⟨own'', rfl, rfl⟩ := Stack.pop_on_eq_ok hpop
    cases h
    exact .jumpi hmove hown hdest
  | rjump =>
    simp only [hmove] at h
    obtain ⟨dest, htarget, hdest, rfl, rfl⟩ := goRelative_eq_ok h
    exact .rjump hmove htarget hdest
  | rjumpi =>
    simp only [hmove] at h
    obtain ⟨condition, s, hpop, h⟩ := onStack_bind_eq_ok h
    obtain ⟨own', hown, rfl⟩ := Stack.pop_on_eq_ok hpop
    obtain ⟨dest, htarget, hdest, rfl, rfl⟩ := goRelative_eq_ok h
    exact .rjumpi hmove hown htarget hdest
  | jumpsub =>
    simp only [hmove] at h
    obtain ⟨dest, s, hop, h⟩ := onStack_bind_eq_ok h
    obtain ⟨word, own', hown, rfl, hdest, rfl⟩ := Stack.takeDestination_on_eq_ok hop
    obtain ⟨u, t, hadmit, h⟩ := bind_eq_ok h
    obtain ⟨hroom, rfl⟩ := State.admitCall_eq_ok (attempt_eq_ok hadmit)
    cases h
    exact .jumpsub hmove hown hdest hroom
  | returnsub =>
    simp only [hmove] at h
    obtain ⟨frame, rest, hframes, rfl, rfl⟩ := leave_on_eq_ok (attempt_eq_ok h)
    exact .returnsub hmove hframes

end Instruction

end EvmSafety
