/-
Newer forks.

A fork has all opcodes of its predecessors.  What the forks up to Cancun added are opcodes
without an immediate, none of them a place to land on and none of them a call.  A byte without
a meaning is skipped as if it were such an opcode, so from one of these forks to a later one no
instruction starts elsewhere and no jump may land elsewhere: the later fork only has
instructions in some of the places where the earlier one has none.

A walk at the earlier fork that comes to such a place is refused there for a missing
instruction.  Until then it cannot tell the two forks apart, so if it is not refused for that,
the walk at the later fork is the same, step by step.

Prague is another matter.  Its relative jumps have an immediate, so the bytes behind them,
which were instructions before, become data.
-/
import EvmSafety.Proofs.Walks
import Mathlib.Control.Monad.Basic

namespace EvmSafety

/-! ### What a fork adds -/

namespace Opcode

variable {byte : UInt8} {fork fork' : Fork} {op : Opcode}

/-- What came after the first fork and before Prague has no immediate and is no place to land
on. -/
theorem plain_of_mem_table : ∀ op ∈ table, op.since ≠ .frontier → op.since ≤ .cancun →
    op.width = 0 ∧ op.move ≠ .jumpdest := by
  decide +kernel

/-- Before Prague no opcode calls. -/
theorem move_ne_jumpsub_of_mem_table : ∀ op ∈ table, op.since ≤ .cancun → op.move ≠ .jumpsub := by
  decide +kernel

/-- **What exists at a fork exists at every later one.** -/
theorem ofByteAt?_of_le (hle : fork ≤ fork') (h : ofByteAt? byte fork = some op) :
    ofByteAt? byte fork' = some op := by
  obtain ⟨hbyte, -⟩ := Option.filter_eq_some_iff.1 h
  have hsince : op.since ≤ fork' := Nat.le_trans (since_le_of_ofByteAt? h) hle
  exact Option.filter_eq_some_iff.2 ⟨hbyte, decide_eq_true hsince⟩

/-- What a fork before Prague has and an earlier one has not is plain. -/
theorem plain_of_new (hcancun : fork' ≤ .cancun) (hold : ofByteAt? byte fork = none)
    (h : ofByteAt? byte fork' = some op) : op.width = 0 ∧ op.move ≠ .jumpdest := by
  have hsince : op.since ≤ .cancun := Nat.le_trans (since_le_of_ofByteAt? h) hcancun
  refine plain_of_mem_table op (mem_table_of_ofByteAt? h) ?_ hsince
  intro hfirst
  obtain ⟨hbyte, -⟩ := Option.filter_eq_some_iff.1 h
  have hearly : op.since ≤ fork := by
    rw [hfirst]
    exact Nat.zero_le _
  rw [ofByteAt?, hbyte, Option.filter_some, existsAt, decide_eq_true hearly, if_pos rfl] at hold
  cases hold

end Opcode

namespace Sweep

variable {fork fork' : Fork}

/-- Between two forks before Prague the sweep does not change. -/
theorem next_of_le (hle : fork ≤ fork') (hcancun : fork' ≤ .cancun) :
    next fork' = next fork := by
  funext sweep byte
  obtain ⟨skip | skip, marks⟩ := sweep
  · cases hop : Opcode.ofByteAt? byte fork with
    | some op => simp only [next, hop, Opcode.ofByteAt?_of_le hle hop]
    | none =>
      cases hop' : Opcode.ofByteAt? byte fork' with
      | none => simp only [next, hop, hop']
      | some op =>
        obtain ⟨hwidth, hmove⟩ := Opcode.plain_of_new hcancun hop hop'
        simp only [next, hop, hop', hwidth, if_neg hmove]
  · rfl

theorem ofBytes_of_le (hle : fork ≤ fork') (hcancun : fork' ≤ .cancun) (bytes : Array UInt8) :
    ofBytes fork' bytes = ofBytes fork bytes := by
  rw [ofBytes, ofBytes, next_of_le hle hcancun]

end Sweep

/-! ### Codes that read alike -/

namespace Code

/-- The second code has every instruction that the first one has, and jumps and returns land on
the same places. -/
structure ReadsLike (code code' : Code) : Prop where
  /-- An instruction that can be read in the first one can be read in the second. -/
  decodes : ∀ offset ins, code.decode offset = .ok ins → code'.decode offset = .ok ins
  /-- A jump may land on the same places. -/
  isDest : code'.isDest = code.isDest
  /-- The same places lie behind a call. -/
  isBehindCall : code'.isBehindCall = code.isBehindCall

variable {fork fork' : Fork} {bytes : Array UInt8}

theorem marks_of_le (hle : fork ≤ fork') (hcancun : fork' ≤ .cancun) :
    (ofBytes bytes fork').marks = (ofBytes bytes fork).marks :=
  congrArg Sweep.marks (Sweep.ofBytes_of_le hle hcancun bytes)

theorem isStart_of_le (hle : fork ≤ fork') (hcancun : fork' ≤ .cancun) :
    (ofBytes bytes fork').isStart = (ofBytes bytes fork).isStart := by
  funext offset
  rw [isStart, isStart, marks_of_le hle hcancun]

theorem isDest_of_le (hle : fork ≤ fork') (hcancun : fork' ≤ .cancun) :
    (ofBytes bytes fork').isDest = (ofBytes bytes fork).isDest := by
  funext offset
  rw [isDest, isDest, marks_of_le hle hcancun]

/-- **An instruction that can be read at a fork is the same at a later one.** -/
theorem decode_of_le (hle : fork ≤ fork') (hcancun : fork' ≤ .cancun) {offset : Nat}
    {ins : Instruction} (h : (ofBytes bytes fork).decode offset = .ok ins) :
    (ofBytes bytes fork').decode offset = .ok ins := by
  unfold decode at h ⊢
  rw [isStart_of_le hle hcancun]
  split at h
  · cases h
  · next byte hbyte =>
    have hbyte' : (ofBytes bytes fork').bytes[offset]? = some byte := hbyte
    rw [hbyte']
    dsimp only
    by_cases hstart : (ofBytes bytes fork).isStart offset = true
    · rw [if_pos hstart] at h ⊢
      split at h
      · cases h
      · next op hop =>
        have hop' : Opcode.ofByteAt? byte (ofBytes bytes fork').fork = some op :=
          Opcode.ofByteAt?_of_le hle hop
        rw [hop']
        exact h
    · rw [if_neg hstart] at h
      cases h

/-- Before Prague no place lies behind a call. -/
theorem isBehindCall_eq_false (hcancun : fork ≤ .cancun) (offset : Nat) :
    (ofBytes bytes fork).isBehindCall offset = false := by
  cases offset with
  | zero => rfl
  | succ site =>
    unfold isBehindCall
    dsimp only
    cases hdecode : (ofBytes bytes fork).decode site with
    | error cause => rfl
    | ok ins =>
      obtain ⟨_, -, hop, -⟩ := decode_eq_ok hdecode
      have hsince : ins.opcode.since ≤ .cancun :=
        Nat.le_trans (Opcode.since_le_of_ofByteAt? hop) hcancun
      have hmove := Opcode.move_ne_jumpsub_of_mem_table _ (mem_table_of_decode hdecode) hsince
      exact decide_eq_false hmove

/-- **Before Prague a code reads at a later fork as it did at an earlier one.** -/
theorem readsLike_of_le (hle : fork ≤ fork') (hcancun : fork' ≤ .cancun) :
    (ofBytes bytes fork).ReadsLike (ofBytes bytes fork') where
  decodes _ _ h := decode_of_le hle hcancun h
  isDest := isDest_of_le hle hcancun
  isBehindCall := by
    funext offset
    rw [isBehindCall_eq_false hcancun, isBehindCall_eq_false (Nat.le_trans hle hcancun)]

end Code

/-! ### The walk at the later fork -/

variable {code code' : Code}

/-- An instruction asks a code only where a jump may land. -/
theorem Instruction.execute_of_isDest_eq (h : code'.isDest = code.isDest) (ins : Instruction) :
    ins.execute code' = ins.execute code := by
  have htake : Stack.takeDestination code' = Stack.takeDestination code := by
    unfold Stack.takeDestination
    rw [h]
  have hrelative (flow : Nat → Flow) : goRelative code' ins flow = goRelative code ins flow := by
    unfold goRelative relativeLanding
    rw [h]
  unfold execute
  simp only [htake, hrelative]

namespace Walk

variable {w : Walk}

theorem follow_of_readsLike (h : code.ReadsLike code') (ins : Instruction) (state : State)
    (flow : Flow) : w.follow code' ins state flow = w.follow code ins state flow := by
  cases flow with
  | advance => simp only [follow, goOn, h.isDest]
  | back net frame => simp only [follow, back, h.isBehindCall]
  | halt => rfl
  | jump dest => rfl
  | branch dest => rfl
  | call entry => rfl

/-- **A step over a code that reads alike is the same,** unless it is one that is refused for a
missing instruction. -/
theorem step_of_readsLike (h : code.ReadsLike code')
    (hreads : ∀ rejection, w.step code = .error rejection →
      rejection.violation.kind ≠ .invalidInstruction) :
    w.step code' = w.step code := by
  unfold step at hreads ⊢
  cases hcursor : w.cursor with
  | idle => rfl
  | arriving path => rfl
  | inside path =>
    simp only [hcursor] at hreads ⊢
    unfold execute at hreads ⊢
    cases hdecode : code.decode path.pc with
    | error cause =>
      simp only [hdecode] at hreads
      exact absurd (by cases cause <;> rfl) (hreads _ rfl)
    | ok ins =>
      simp only [h.decodes _ _ hdecode, Instruction.execute_of_isDest_eq h.isDest,
        follow_of_readsLike h]

end Walk

namespace Code

/-- The result for a code that reads alike is the same, unless the first one is refused for a
missing instruction. -/
theorem ReadsLike.validate_eq (h : code.ReadsLike code')
    (hreads : ∀ violation, code.validate = .error violation →
      violation.kind ≠ .invalidInstruction) :
    code'.validate = code.validate := by
  refine validate_eq_of_finish_eq ?_
  refine Walk.finish_congr (P := fun result => ∀ rejection, result = .error rejection →
    rejection.violation.kind ≠ .invalidInstruction) ?_ ?_
  · intro w hreads
    refine Walk.step_of_readsLike h ?_
    intro rejection hstep
    exact hreads rejection (Walk.finish_eq_error hstep)
  · intro rejection hfinish
    exact hreads _ (validate_of_rejection hfinish)

/-- **A fork before Prague breaks no program of an earlier one:** what was accepted is accepted
with the same analysis, and what was refused for anything but a missing instruction is refused
for the same violation. -/
theorem validate_of_le (bytes : Array UInt8) {fork fork' : Fork} (hle : fork ≤ fork')
    (hcancun : fork' ≤ .cancun) :
    (∀ analysis, (ofBytes bytes fork).validate = .ok analysis →
      (ofBytes bytes fork').validate = .ok analysis) ∧
    ∀ violation, (ofBytes bytes fork).validate = .error violation →
      violation.kind ≠ .invalidInstruction →
      (ofBytes bytes fork').validate = .error violation := by
  have hreads : (ofBytes bytes fork).ReadsLike (ofBytes bytes fork') :=
    readsLike_of_le hle hcancun
  constructor
  · intro analysis haccepted
    rw [hreads.validate_eq, haccepted]
    intro violation hrejected
    rw [haccepted] at hrejected
    cases hrejected
  · intro violation hrejected hkind
    rw [hreads.validate_eq, hrejected]
    intro other hother
    rw [hrejected] at hother
    cases hother
    exact hkind

/-- A program that jumps over bytes to which later forks give a meaning. -/
def jumpsOverNewer : Array UInt8 :=
  #[0x60, 0x06, 0x56, 0x5F, 0x1B, 0x5E, 0x5B, 0x00]

/-- A program that jumps to a word it was called with, in front of such bytes. -/
def jumpsToInput : Array UInt8 :=
  #[0x34, 0x56, 0x5F, 0x5B]

theorem validate_jumpsOverNewer :
    Fork.frontier ≤ .cancun ∧ Fork.cancun ≤ .cancun ∧
    ((ofBytes jumpsOverNewer .frontier).validate = .ok ⟨1, [0, 6], 0⟩ ∧
      (ofBytes jumpsOverNewer .cancun).validate = .ok ⟨1, [0, 6], 0⟩) ∧
    (ofBytes jumpsToInput .frontier).validate = .error ⟨1, .dynamicJump⟩ ∧
      (ofBytes jumpsToInput .cancun).validate = .error ⟨1, .dynamicJump⟩ := by
  have hle : Fork.frontier ≤ .cancun := by decide
  have hcancun : Fork.cancun ≤ .cancun := by decide
  have haccepted : (ofBytes jumpsOverNewer .frontier).validate = .ok ⟨1, [0, 6], 0⟩ := by
    decide +kernel
  have hrejected : (ofBytes jumpsToInput .frontier).validate = .error ⟨1, .dynamicJump⟩ := by
    decide +kernel
  exact ⟨hle, hcancun,
    ⟨haccepted, (validate_of_le _ hle hcancun).1 _ haccepted⟩,
    hrejected, (validate_of_le _ hle hcancun).2 _ hrejected (by decide)⟩

end Code

end EvmSafety
