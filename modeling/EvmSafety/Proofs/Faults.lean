/-
Why an instruction fails.

The operations on the stack fail for want of slots or of room, and only taking a destination
looks at what a slot says.  `Fails` lists the failures of an instruction as `Executes` lists
its successes: what was missing, on a stack in two parts, and the kind of violation it makes.
Misalignment is not among them, as it is a matter between paths.
-/
import EvmSafety.Proofs.Effect

namespace EvmSafety

/-! ### Failures on a stack in two parts -/

namespace Stack

section

variable {own below : List Slot} {fault : StackFault} {s : Stack}

theorem push_on_eq_error {slot : Slot} (h : push slot (on own below) = .error fault s) :
    fault.kind = .stackOverflow ∧ stackCapacity ≤ own.length + below.length := by
  rw [push_on] at h
  by_cases hroom : own.length + below.length < stackCapacity
  · rw [if_pos hroom] at h
    cases h
  · rw [if_neg hroom] at h
    cases h
    exact ⟨rfl, Nat.le_of_not_lt hroom⟩

theorem pad_on_eq_error {n : Nat} (h : pad n (on own below) = .error fault s) :
    fault.kind = .stackOverflow ∧ stackCapacity < own.length + below.length + n := by
  rw [pad_on] at h
  by_cases hroom : own.length + below.length + n ≤ stackCapacity
  · rw [if_pos hroom] at h
    cases h
  · rw [if_neg hroom] at h
    cases h
    exact ⟨rfl, Nat.lt_of_not_le hroom⟩

theorem pop_on_eq_error (h : pop (on own below) = .error fault s) :
    fault.kind = .stackUnderflow ∧ own = [] := by
  match own with
  | [] =>
    rw [pop_on_nil] at h
    cases h
    exact ⟨rfl, rfl⟩
  | slot :: own =>
    rw [pop_on_cons] at h
    cases h

theorem discard_on_eq_error {n : Nat} (h : discard n (on own below) = .error fault s) :
    fault.kind = .stackUnderflow ∧ own.length < n := by
  rw [discard_on] at h
  by_cases hle : n ≤ own.length
  · rw [if_pos hle] at h
    cases h
  · rw [if_neg hle] at h
    cases h
    exact ⟨rfl, Nat.lt_of_not_le hle⟩

theorem dup_on_eq_error {n : Nat} (h : dup n (on own below) = .error fault s) :
    (fault.kind = .stackUnderflow ∧ (n = 0 ∨ own.length < n)) ∨
      (fault.kind = .stackOverflow ∧ n ≤ own.length ∧
        stackCapacity ≤ own.length + below.length) := by
  rw [dup_on] at h
  by_cases hfew : n = 0 ∨ own.length < n
  · rw [if_pos hfew] at h
    cases h
    exact .inl ⟨rfl, hfew⟩
  · rw [if_neg hfew] at h
    obtain ⟨hkind, hfull⟩ := push_on_eq_error h
    exact .inr ⟨hkind, by omega, hfull⟩

theorem swap_on_eq_error {n : Nat} (h : swap n (on own below) = .error fault s) :
    fault.kind = .stackUnderflow ∧ (n = 0 ∨ own.length ≤ n) := by
  rw [swap_on] at h
  by_cases hfew : n = 0 ∨ own.length ≤ n
  · rw [if_pos hfew] at h
    cases h
    exact ⟨rfl, hfew⟩
  · rw [if_neg hfew] at h
    cases h

theorem replaceTop_on_eq_error {pops pushes : Nat}
    (h : replaceTop pops pushes (on own below) = .error fault s) :
    (fault.kind = .stackUnderflow ∧ own.length < pops) ∨
      (fault.kind = .stackOverflow ∧ pops ≤ own.length ∧
        stackCapacity < own.length - pops + below.length + pushes) := by
  rw [replaceTop_on] at h
  by_cases hle : pops ≤ own.length
  · rw [if_pos hle] at h
    obtain ⟨hkind, hfull⟩ := pad_on_eq_error h
    rw [List.length_drop] at hfull
    exact .inr ⟨hkind, hle, hfull⟩
  · rw [if_neg hle] at h
    cases h
    exact .inl ⟨rfl, Nat.lt_of_not_le hle⟩

theorem takeDestination_on_eq_error {code : Code}
    (h : takeDestination code (on own below) = .error fault s) :
    (fault.kind = .stackUnderflow ∧ own = []) ∨
      (fault.kind = .dynamicJump ∧ ∃ own', own = .unknown :: own') ∨
      (fault.kind = .invalidDestination ∧ ∃ word own', own = .constant word :: own' ∧
        code.isDest word.toNat = false) := by
  match own with
  | [] =>
    rw [takeDestination_on_nil] at h
    cases h
    exact .inl ⟨rfl, rfl⟩
  | .unknown :: own =>
    rw [takeDestination_on_unknown] at h
    cases h
    exact .inr (.inl ⟨rfl, own, rfl⟩)
  | .constant word :: own =>
    rw [takeDestination_on_constant] at h
    by_cases hdest : code.isDest word.toNat = true
    · rw [if_pos hdest] at h
      cases h
    · rw [if_neg hdest] at h
      cases h
      exact .inr (.inr ⟨rfl, word, own, rfl, eq_false_of_ne_true hdest⟩)

end

end Stack

namespace Instruction

/-- The instruction names its destination statically, and no jump may land there. -/
def Strays (code : Code) (ins : Instruction) (own : List Slot) : Prop :=
  (ins.opcode.move.popsDestination = true ∧ ∃ word own', own = .constant word :: own' ∧
    code.isDest word.toNat = false) ∨
  (ins.opcode.move.isRelative = true ∧ ins.relativeLanding code = none)

/-- The ways in which an instruction fails on a stack in two parts, and the kind of violation
that each of them makes. -/
inductive Fails (code : Code) (ins : Instruction) (own below : List Slot)
    (frames : List Frame) : Violation.Kind → Prop
  /-- It is the designated invalid one. -/
  | invalid (hmove : ins.opcode.move = .invalid) :
      Fails code ins own below frames .invalidInstruction
  /-- The routine has fewer slots than it takes. -/
  | few (hlt : own.length < ins.opcode.pops) : Fails code ins own below frames .stackUnderflow
  /-- It returns, and no frame is open. -/
  | unframed (hmove : ins.opcode.move = .returnsub) (hframes : frames = []) :
      Fails code ins own below frames .stackUnderflow
  /-- Its destination is not known. -/
  | unknown {own' : List Slot} (hmove : ins.opcode.move.popsDestination = true)
      (hown : own = .unknown :: own') : Fails code ins own below frames .dynamicJump
  /-- No jump may land where it leads. -/
  | strays (h : ins.Strays code own) : Fails code ins own below frames .invalidDestination
  /-- There is no room for what it leaves. -/
  | full (hmove : ins.opcode.move.isStraight = true) (hle : ins.opcode.pops ≤ own.length)
      (hfull : stackCapacity
        < own.length - ins.opcode.pops + below.length + ins.opcode.pushes) :
      Fails code ins own below frames .stackOverflow
  /-- There is no room for another frame. -/
  | deep (hmove : ins.opcode.move = .jumpsub) (hfull : stackCapacity ≤ frames.length) :
      Fails code ins own below frames .stackOverflow

section

variable {code : Code} {ins : Instruction} {own below : List Slot} {frames : List Frame}
  {kind : Violation.Kind} {st : State}

theorem onStack_bind_eq_error {α β : Type} {op : StackOp α}
    {rest : α → EStateM Violation.Kind State β} {stack : Stack}
    (h : (onStack op >>= rest) ⟨stack, frames⟩ = .error kind st) :
    (∃ fault stack', op stack = .error fault stack' ∧ fault.kind = kind) ∨
      ∃ a stack', op stack = .ok a stack' ∧ rest a ⟨stack', frames⟩ = .error kind st := by
  simp only [bind_apply, onStack, attempt, State.onStack] at h
  cases hop : op stack with
  | ok a stack' =>
    simp only [hop] at h
    exact .inr ⟨a, stack', rfl, h⟩
  | error fault stack' =>
    simp only [hop, EStateM.Result.error.injEq] at h
    exact .inl ⟨fault, stack', rfl, h.1⟩

/-- An operation on the data stack that only moves on once it has succeeded. -/
theorem onStack_return_eq_error {α : Type} {op : StackOp α} {stack : Stack} {flow : α → Flow}
    (h : (do let a ← onStack op; return flow a) ⟨stack, frames⟩ = .error kind st) :
    ∃ fault stack', op stack = .error fault stack' ∧ fault.kind = kind := by
  rcases onStack_bind_eq_error h with hfault | ⟨a, stack', -, hpure⟩
  · exact hfault
  · cases hpure

theorem goRelative_eq_error {flow : Nat → Flow} {st' : State}
    (h : goRelative code ins flow st' = .error kind st) :
    kind = .invalidDestination ∧ ins.relativeLanding code = none := by
  unfold goRelative at h
  cases hlanding : ins.relativeLanding code with
  | some dest =>
    rw [hlanding] at h
    cases h
  | none =>
    rw [hlanding] at h
    cases h
    exact ⟨rfl, rfl⟩

/-- If taking a destination fails, slots are missing, or the destination is to blame. -/
theorem fails_of_takeDestination {fault : StackFault} {stack' : Stack}
    (hmove : ins.opcode.move.popsDestination = true) (hpops : 0 < ins.opcode.pops)
    (h : Stack.takeDestination code (.on own below) = .error fault stack') :
    Fails code ins own below frames fault.kind := by
  rcases Stack.takeDestination_on_eq_error h with ⟨hkind, rfl⟩ | ⟨hkind, own', hown⟩ |
    ⟨hkind, hstrays⟩
  · rw [hkind]
    exact .few hpops
  · rw [hkind]
    exact .unknown hmove hown
  · rw [hkind]
    exact .strays (.inl ⟨hmove, hstrays⟩)

/-- If a straight move fails, slots are missing or there is no room. -/
theorem fails_of_straight (hcounted : ins.opcode.Counted)
    (hstraight : ins.opcode.move.isStraight = true)
    (h : ins.execute code ⟨.on own below, frames⟩ = .error kind st) :
    Fails code ins own below frames kind := by
  unfold Opcode.Counted at hcounted
  unfold execute at h
  cases hmove : ins.opcode.move with
  | push =>
    simp only [hmove] at h hcounted
    obtain ⟨fault, stack', hfault, rfl⟩ := onStack_return_eq_error h
    obtain ⟨hkind, hfull⟩ := Stack.push_on_eq_error hfault
    rw [hkind]
    exact .full hstraight (by omega) (by omega)
  | dup n =>
    simp only [hmove] at h hcounted
    obtain ⟨fault, stack', hfault, rfl⟩ := onStack_return_eq_error h
    rcases Stack.dup_on_eq_error hfault with ⟨hkind, hfew⟩ | ⟨hkind, hle, hfull⟩
    · rw [hkind]
      exact .few (by omega)
    · rw [hkind]
      exact .full hstraight (by omega) (by omega)
  | swap n =>
    simp only [hmove] at h hcounted
    obtain ⟨fault, stack', hfault, rfl⟩ := onStack_return_eq_error h
    obtain ⟨hkind, hfew⟩ := Stack.swap_on_eq_error hfault
    rw [hkind]
    exact .few (by omega)
  | jumpdest | effect =>
    simp only [hmove] at h
    obtain ⟨fault, stack', hfault, rfl⟩ := onStack_return_eq_error h
    rcases Stack.replaceTop_on_eq_error hfault with ⟨hkind, hlt⟩ | ⟨hkind, hle, hfull⟩
    · rw [hkind]
      exact .few hlt
    · rw [hkind]
      exact .full hstraight hle hfull
  | halt | invalid | jump | jumpi | rjump | rjumpi | jumpsub | returnsub =>
    rw [hmove] at hstraight
    cases hstraight

/-- If a move that pops its destination fails, the destination is to blame, slots are missing or
there is no room for a frame. -/
theorem fails_of_popsDestination (hcounted : ins.opcode.Counted)
    (hpops : ins.opcode.move.popsDestination = true)
    (h : ins.execute code ⟨.on own below, frames⟩ = .error kind st) :
    Fails code ins own below frames kind := by
  unfold Opcode.Counted at hcounted
  unfold execute at h
  cases hmove : ins.opcode.move with
  | jump =>
    simp only [hmove] at h hcounted
    obtain ⟨fault, stack', hfault, rfl⟩ := onStack_return_eq_error h
    exact fails_of_takeDestination hpops (by omega) hfault
  | jumpi =>
    simp only [hmove] at h hcounted
    rcases onStack_bind_eq_error h with ⟨fault, stack', hfault, rfl⟩ | ⟨dest, stack', htake, hpop⟩
    · exact fails_of_takeDestination hpops (by omega) hfault
    · obtain ⟨word, own', rfl, -, -, rfl⟩ := Stack.takeDestination_on_eq_ok htake
      obtain ⟨fault, stack', hfault, rfl⟩ := onStack_return_eq_error hpop
      obtain ⟨hkind, rfl⟩ := Stack.pop_on_eq_error hfault
      rw [hkind]
      exact .few (by simp [hcounted])
  | jumpsub =>
    simp only [hmove] at h hcounted
    rcases onStack_bind_eq_error h with ⟨fault, stack', hfault, rfl⟩ | ⟨entry, stack', -, hadmit⟩
    · exact fails_of_takeDestination hpops (by omega) hfault
    · by_cases hroom : frames.length < stackCapacity
      · simp only [bind_apply, attempt, State.admitCall, if_pos hroom] at hadmit
        cases hadmit
      · simp only [bind_apply, attempt, State.admitCall, if_neg hroom] at hadmit
        cases hadmit
        exact .deep hmove (Nat.le_of_not_lt hroom)
  | halt | invalid | push | dup | swap | jumpdest | effect | rjump | rjumpi | returnsub =>
    rw [hmove] at hpops
    cases hpops

/-- **Every failure of an instruction is one of the listed ones.** -/
theorem fails_of_execute (hcounted : ins.opcode.Counted)
    (h : ins.execute code ⟨.on own below, frames⟩ = .error kind st) :
    Fails code ins own below frames kind := by
  have hcounts := hcounted
  have hexecute := h
  unfold Opcode.Counted at hcounts
  unfold execute at hexecute
  cases hmove : ins.opcode.move with
  | push | dup | swap | jumpdest | effect =>
    exact fails_of_straight hcounted (by rw [hmove]; rfl) h
  | jump | jumpi | jumpsub => exact fails_of_popsDestination hcounted (by rw [hmove]; rfl) h
  | halt =>
    simp only [hmove] at hexecute
    obtain ⟨fault, stack', hfault, rfl⟩ := onStack_return_eq_error hexecute
    obtain ⟨hkind, hlt⟩ := Stack.discard_on_eq_error hfault
    rw [hkind]
    exact .few hlt
  | invalid =>
    simp only [hmove] at hexecute
    cases hexecute
    exact .invalid hmove
  | rjump =>
    simp only [hmove] at hexecute
    obtain ⟨rfl, hlanding⟩ := goRelative_eq_error hexecute
    exact .strays (.inr ⟨by rw [hmove]; rfl, hlanding⟩)
  | rjumpi =>
    simp only [hmove] at hexecute hcounts
    rcases onStack_bind_eq_error hexecute with ⟨fault, stack', hfault, rfl⟩ |
      ⟨condition, stack', -, hgo⟩
    · obtain ⟨hkind, rfl⟩ := Stack.pop_on_eq_error hfault
      rw [hkind]
      exact .few (by simp [hcounts])
    · obtain ⟨rfl, hlanding⟩ := goRelative_eq_error hgo
      exact .strays (.inr ⟨by rw [hmove]; rfl, hlanding⟩)
  | returnsub =>
    simp only [hmove] at hexecute
    cases frames with
    | nil =>
      cases hexecute
      exact .unframed hmove rfl
    | cons frame rest => cases hexecute

end

end Instruction

end EvmSafety
