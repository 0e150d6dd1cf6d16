/-
Counting words.

The table says how many words an instruction takes and leaves, and the execution moves slots
without a look at the table, but for the instructions with no part in the control flow.  Here
the two are held against each other on every proper stack: which instructions succeed, how
high the stack is then, and when it is the stack that they fail by.

There is one place where the table does not tell which failure comes first.  A conditional
jump takes its destination before its condition, so that with one slot only it is a bad
destination that is reported, if it is bad, and the missing condition if not.  Calls and
returns are left out: they also fail by the frames, and a return hands over what the table
cannot know.
-/
import EvmSafety.Proofs.Capacity
import EvmSafety.Proofs.Faults

namespace EvmSafety

namespace Instruction

/-- A conditional jump finds nothing but its destination, and the destination is no good: what
it fails by is the destination. -/
inductive Misdirects (code : Code) (ins : Instruction) (own : List Slot) :
    Violation.Kind → Prop
  | unknown (hmove : ins.opcode.move = .jumpi) (hown : own = [.unknown]) :
      Misdirects code ins own .dynamicJump
  | strays {word : Word} (hmove : ins.opcode.move = .jumpi) (hown : own = [.constant word])
      (hdest : code.isDest word.toNat = false) :
      Misdirects code ins own .invalidDestination

/-- The height of the stack changes, and fails to change, as the table counts. -/
structure Accounted (code : Code) (ins : Instruction) (state : State) : Prop where
  /-- A success had the slots to take; it leaves as many as the table says, above the base that
  was there. -/
  succeeds : ∀ flow state', ins.execute code state = .ok flow state' →
    ins.opcode.pops ≤ state.stack.depth ∧
      state'.stack.size = state.stack.size - ins.opcode.pops + ins.opcode.pushes ∧
      state'.stack.base = state.stack.base
  /-- Slots are missing exactly if there are fewer than the table says. -/
  underflows : (∃ state', ins.execute code state = .error .stackUnderflow state') ↔
    state.stack.depth < ins.opcode.pops ∧ ∀ kind, ¬ Misdirects code ins state.stack.own kind
  /-- The exception is reported as what it is. -/
  misdirects : ∀ kind, Misdirects code ins state.stack.own kind →
    state.stack.depth < ins.opcode.pops ∧ ∃ state', ins.execute code state = .error kind state'
  /-- Room is missing exactly if the slots are there and more would be left than may be. -/
  overflows : (∃ state', ins.execute code state = .error .stackOverflow state') ↔
    ins.opcode.pops ≤ state.stack.depth ∧
      stackCapacity < state.stack.size - ins.opcode.pops + ins.opcode.pushes
  /-- Nothing else is asked of an instruction with no destination. -/
  completes : ins.opcode.move.isStraight = true ∨ ins.opcode.move = .halt →
    ins.opcode.pops ≤ state.stack.depth →
    state.stack.size - ins.opcode.pops + ins.opcode.pushes ≤ stackCapacity →
    ∃ flow state', ins.execute code state = .ok flow state'

variable {code : Code} {ins : Instruction} {own below : List Slot} {frames : List Frame}
  {kind : Violation.Kind}

/-! ### Where slots are missing -/

theorem Misdirects.length_lt (h : Misdirects code ins own kind) (hcounted : ins.opcode.Counted) :
    own.length < ins.opcode.pops := by
  unfold Opcode.Counted at hcounted
  cases h with
  | unknown hmove hown | strays hmove hown =>
    rw [hmove] at hcounted
    simp [hown, hcounted.1]

theorem Misdirects.ne_stackUnderflow (h : Misdirects code ins own kind) :
    kind ≠ .stackUnderflow := by
  cases h with
  | unknown | strays => exact nofun

/-- The destination comes first. -/
theorem Misdirects.execute_eq (h : Misdirects code ins own kind) :
    ins.execute code ⟨.on own below, frames⟩ = .error kind ⟨.on [] below, frames⟩ := by
  cases h with
  | unknown hmove hown =>
    subst hown
    simp only [execute, hmove, bind_apply, onStack, attempt, State.onStack,
      Stack.takeDestination_on_unknown, StackFault.kind]
  | strays hmove hown hdest =>
    subst hown
    simp only [execute, hmove, bind_apply, onStack, attempt, State.onStack,
      Stack.takeDestination_on_constant, hdest, Bool.false_eq_true, if_false, StackFault.kind]

/-- A relative conditional jump takes its condition first, wherever it leads. -/
theorem execute_rjumpi_nil (hmove : ins.opcode.move = .rjumpi) :
    ins.execute code ⟨.on [] below, frames⟩
      = .error .stackUnderflow ⟨.on [] below, frames⟩ := by
  simp only [execute, hmove, bind_apply, onStack, attempt, State.onStack, Stack.pop_on_nil,
    StackFault.kind]

/-- An instruction that takes its destination from the stack and lacks slots, though it has
this one, is a conditional jump and has no other. -/
theorem jumpi_of_length_lt (hcounted : ins.opcode.Counted)
    (hmove : ins.opcode.move.popsDestination = true) {slot : Slot} {rest : List Slot}
    (hlt : (slot :: rest).length < ins.opcode.pops) :
    ins.opcode.move = .jumpi ∧ rest = [] := by
  unfold Opcode.Counted at hcounted
  rw [List.length_cons] at hlt
  cases hkind : ins.opcode.move with
  | jump | jumpsub =>
    rw [hkind] at hcounted
    exact absurd hlt (by omega)
  | jumpi =>
    rw [hkind] at hcounted
    exact ⟨rfl, List.length_eq_zero_iff.1 (by omega)⟩
  | halt | invalid | push | dup | swap | jumpdest | effect | rjump | rjumpi | returnsub =>
    rw [hkind] at hmove
    cases hmove

/-- **With fewer slots than it takes an instruction fails for want of them,** or is misdirected
first. -/
theorem exists_underflow (hcounted : ins.opcode.Counted) (hcall : ins.opcode.move ≠ .jumpsub)
    (hlt : own.length < ins.opcode.pops) (hnot : ∀ kind, ¬ Misdirects code ins own kind) :
    ∃ state', ins.execute code ⟨.on own below, frames⟩ = .error .stackUnderflow state' := by
  have hzero : ins.opcode.pops ≠ 0 := Nat.ne_zero_of_lt hlt
  -- That this one has a bad target as well says nothing of which failure comes first.
  by_cases hrelative : ins.opcode.move = .rjumpi
  · unfold Opcode.Counted at hcounted
    rw [hrelative] at hcounted
    have hnil : own = [] := List.length_eq_zero_iff.1 (by omega)
    subst hnil
    exact ⟨_, execute_rjumpi_nil hrelative⟩
  cases hrun : ins.execute code ⟨.on own below, frames⟩ with
  | ok flow state' =>
    have hle := ((executes_of_execute hrun).counts hcounted).1
    exact absurd hle (Nat.not_le.2 hlt)
  | error kind state' =>
    cases fails_of_execute hcounted hrun with
    | few | unframed => exact ⟨state', rfl⟩
    | invalid hmove =>
      rw [Opcode.Counted, hmove] at hcounted
      exact absurd hcounted.1 hzero
    | unknown hmove hown =>
      subst hown
      obtain ⟨hjumpi, rfl⟩ := jumpi_of_length_lt hcounted hmove hlt
      exact absurd (.unknown hjumpi rfl) (hnot .dynamicJump)
    | strays hstrays =>
      rcases hstrays with ⟨hmove, word, rest, hown, hdest⟩ | ⟨hmove, -⟩
      · subst hown
        obtain ⟨hjumpi, rfl⟩ := jumpi_of_length_lt hcounted hmove hlt
        exact absurd (.strays hjumpi rfl hdest) (hnot .invalidDestination)
      · cases hkind : ins.opcode.move with
        | rjump =>
          rw [Opcode.Counted, hkind] at hcounted
          exact absurd hcounted.1 hzero
        | rjumpi => exact absurd hkind hrelative
        | _ =>
          rw [hkind] at hmove
          cases hmove
    | full _ hle => exact absurd hle (Nat.not_le.2 hlt)
    | deep hmove => exact absurd hmove hcall

/-! ### Where room is missing -/

/-- Straight instructions and halts fail for want of slots or of room. -/
theorem Fails.few_or_full (h : Fails code ins own below frames kind)
    (hmove : ins.opcode.move.isStraight = true ∨ ins.opcode.move = .halt) :
    own.length < ins.opcode.pops ∨
      (kind = .stackOverflow ∧
        stackCapacity < own.length - ins.opcode.pops + below.length + ins.opcode.pushes) := by
  obtain ⟨hpopped, hrelative⟩ := Move.noDestination hmove
  cases h with
  | few hlt => exact .inl hlt
  | full _ _ hfull => exact .inr ⟨rfl, hfull⟩
  | invalid hkind | unframed hkind | deep hkind =>
    rw [hkind] at hmove
    exact absurd hmove (by decide)
  | unknown hkind =>
    rw [hpopped] at hkind
    cases hkind
  | strays hstrays =>
    rcases hstrays with ⟨hkind, -⟩ | ⟨hkind, -⟩
    · rw [hpopped] at hkind
      cases hkind
    · rw [hrelative] at hkind
      cases hkind

/-- What is left by an instruction other than a return. -/
theorem left_of_execute (hcounted : ins.opcode.Counted) (hreturn : ins.opcode.move ≠ .returnsub)
    {flow : Flow} {state' : State}
    (hrun : ins.execute code ⟨.on own below, frames⟩ = .ok flow state') :
    ins.opcode.pops ≤ own.length ∧ ∃ own', state' = ⟨.on own' below, frames⟩ ∧
      own'.length = own.length - ins.opcode.pops + ins.opcode.pushes := by
  have hexecutes := executes_of_execute hrun
  have hstays : ∀ net frame, flow ≠ .back net frame := by
    rintro net frame rfl
    cases hexecutes with
    | returnsub hmove => exact hreturn hmove
  obtain ⟨hle, hleft⟩ := hexecutes.counts hcounted
  exact ⟨hle, hleft hstays⟩

/-- **If the slots are there and more would be left than may be, an instruction fails for want
of room,** and only a straight one gets that far. -/
theorem exists_overflow (hcounted : ins.opcode.Counted) (hproper : (Stack.on own below).Proper)
    (hle : ins.opcode.pops ≤ own.length)
    (hfull : stackCapacity < own.length - ins.opcode.pops + below.length + ins.opcode.pushes) :
    ∃ state', ins.execute code ⟨.on own below, frames⟩ = .error .stackOverflow state' := by
  have hwithin := hproper.within
  rw [Stack.size_on] at hwithin
  have hstraight : ins.opcode.move.isStraight = true := by
    by_contra hnot
    have hpushes := hcounted.pushes_eq_zero (eq_false_of_ne_true hnot)
    omega
  cases hrun : ins.execute code ⟨.on own below, frames⟩ with
  | ok flow state' =>
    have hreturn : ins.opcode.move ≠ .returnsub := by
      intro hmove
      rw [hmove] at hstraight
      cases hstraight
    obtain ⟨-, own', rfl, hlength⟩ := left_of_execute hcounted hreturn hrun
    have hfound : State.Proper ⟨.on own below, frames⟩ := hproper
    have hwithin' := Stack.Proper.within (keeps_execute.ok hfound hrun)
    rw [Stack.size_on] at hwithin'
    omega
  | error kind state' =>
    rcases (fails_of_execute hcounted hrun).few_or_full (.inl hstraight) with hlt | ⟨rfl, -⟩
    · exact absurd hle (Nat.not_le.2 hlt)
    · exact ⟨state', rfl⟩

/-- The execution of an instruction and the counts of its opcode agree. -/
theorem accounted_on (hcounted : ins.opcode.Counted) (hcall : ins.opcode.move ≠ .jumpsub)
    (hreturn : ins.opcode.move ≠ .returnsub) (hproper : (Stack.on own below).Proper) :
    ins.Accounted code ⟨.on own below, frames⟩ := by
  have hsize : ins.opcode.pops ≤ own.length → own.length + below.length - ins.opcode.pops
      + ins.opcode.pushes = own.length - ins.opcode.pops + below.length + ins.opcode.pushes := by
    omega
  constructor
  case succeeds =>
    intro flow state' hrun
    obtain ⟨hle, own', rfl, hlength⟩ := left_of_execute hcounted hreturn hrun
    simp only [Stack.depth_on, Stack.size_on, Stack.base_on, and_true]
    exact ⟨hle, by omega⟩
  case underflows =>
    rw [Stack.depth_on, Stack.own_on]
    constructor
    · rintro ⟨state', hrun⟩
      refine ⟨?_, ?_⟩
      · cases fails_of_execute hcounted hrun with
        | few hlt => exact hlt
        | unframed hmove => exact absurd hmove hreturn
      · intro kind hmisdirects
        rw [hmisdirects.execute_eq] at hrun
        cases hrun
        exact hmisdirects.ne_stackUnderflow rfl
    · rintro ⟨hlt, hnot⟩
      exact exists_underflow hcounted hcall hlt hnot
  case misdirects =>
    rw [Stack.depth_on, Stack.own_on]
    intro kind h
    exact ⟨h.length_lt hcounted, _, h.execute_eq⟩
  case overflows =>
    rw [Stack.depth_on, Stack.size_on]
    constructor
    · rintro ⟨state', hrun⟩
      cases fails_of_execute hcounted hrun with
      | full _ hle hfull => exact ⟨hle, by rwa [hsize hle]⟩
      | deep hmove => exact absurd hmove hcall
    · rintro ⟨hle, hfull⟩
      rw [hsize hle] at hfull
      exact exists_overflow hcounted hproper hle hfull
  case completes =>
    rw [Stack.depth_on, Stack.size_on]
    intro hmove hle hroom
    rw [hsize hle] at hroom
    cases hrun : ins.execute code ⟨.on own below, frames⟩ with
    | ok flow state' => exact ⟨flow, state', rfl⟩
    | error kind state' =>
      rcases (fails_of_execute hcounted hrun).few_or_full hmove with hlt | ⟨-, hfull⟩
      · exact absurd hle (Nat.not_le.2 hlt)
      · exact absurd hroom (Nat.not_le.2 hfull)

end Instruction

/-- **The table and the execution agree on the height of the stack:** for every code and fork,
at each instruction but calls and returns, and on every proper stack. -/
theorem Code.accounted_of_decode {code : Code} {offset : Nat} {ins : Instruction} {state : State}
    (hdecode : code.decode offset = .ok ins) (hcall : ins.opcode.move ≠ .jumpsub)
    (hreturn : ins.opcode.move ≠ .returnsub) (hproper : state.stack.Proper) :
    ins.Accounted code state := by
  have hbase : state.stack.base ≤ state.stack.size := hproper.based
  rw [← Stack.on_own_below hbase] at hproper
  rw [State.eq_on hbase]
  exact Instruction.accounted_on (counted_of_decode hdecode) hcall hreturn hproper

/-- A conditional jump with nothing but its destination, which is not known. -/
theorem Code.accounted_jumpsAlone :
    let code := Code.ofBytes #[0x57] .prague
    let state : State := ⟨⟨[.unknown, .constant 0], 1⟩, []⟩
    ∃ ins, code.decode 0 = .ok ins ∧ ins.opcode.move = .jumpi ∧ state.stack.Proper ∧
      ins.Accounted code state ∧ ins.Misdirects code state.stack.own .dynamicJump := by
  intro code state
  have hproper : state.stack.Proper := ⟨by decide, by decide⟩
  let jumpi : Opcode := { byte := 0x57, name := "jumpi", pops := 2, pushes := 0, move := .jumpi }
  have hdecode : code.decode 0 = .ok ⟨0, jumpi, []⟩ := Code.eq_ok_of_toOption (by decide +kernel)
  exact ⟨_, hdecode, rfl, hproper,
    accounted_of_decode hdecode (by decide) (by decide) hproper, .unknown rfl rfl⟩

end EvmSafety
