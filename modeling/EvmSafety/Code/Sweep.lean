/-
The sweep over the code.

Whether a byte is an instruction or data depends on the bytes before it: an opcode's
immediate is skipped, and the next instruction starts right behind it.  One pass from the
first byte to the last settles this for every offset, and marks on the way the
instructions that a jump may land on, which a second pass over the decoded instructions would
find as well.  A byte that encodes no opcode at the fork counts as an instruction without an
immediate, so the sweep never stops early.

The pass only ever looks back, so the marks of a code are a first part of the marks of any
code it begins.
-/
import EvmSafety.Opcode

namespace EvmSafety

/-- What the sweep found at an offset. -/
inductive Mark
  /-- Immediate data of an earlier instruction. -/
  | inside
  /-- The start of an instruction that no jump may land on. -/
  | start
  /-- The start of an instruction that marks a destination. -/
  | dest
  deriving DecidableEq, Repr, Inhabited

/-- The state of the sweep between two bytes. -/
structure Sweep where
  /-- How many bytes ahead are still immediate data. -/
  skip : Nat := 0
  /-- The marks of the bytes behind, in order. -/
  marks : Array Mark := #[]
  deriving DecidableEq, Repr, Inhabited

namespace Sweep

/-- Go past one byte. -/
def next (fork : Fork) : Sweep → UInt8 → Sweep
  | ⟨skip + 1, marks⟩, _ => ⟨skip, marks.push .inside⟩
  | ⟨0, marks⟩, byte =>
    match Opcode.ofByteAt? byte fork with
    | none => ⟨0, marks.push .start⟩
    | some op => ⟨op.width, marks.push (if op.move = .jumpdest then .dest else .start)⟩

/-- Go over a whole code. -/
def ofBytes (fork : Fork) (bytes : Array UInt8) : Sweep :=
  bytes.foldl (next fork) {}

/-- A longer code is swept by going on where the sweep of its first part ended. -/
theorem ofBytes_append (fork : Fork) (bytes more : Array UInt8) :
    ofBytes fork (bytes ++ more) = more.foldl (next fork) (ofBytes fork bytes) :=
  Array.foldl_append

/-- One step marks one byte. -/
@[simp] theorem size_next (fork : Fork) (sweep : Sweep) (byte : UInt8) :
    (sweep.next fork byte).marks.size = sweep.marks.size + 1 := by
  obtain ⟨skip | skip, marks⟩ := sweep
  · rw [next]
    split <;> simp
  · simp [next]

private theorem size_foldl_next (fork : Fork) (bytes : List UInt8) :
    ∀ sweep : Sweep,
      (bytes.foldl (next fork) sweep).marks.size = sweep.marks.size + bytes.length := by
  induction bytes with
  | nil => simp
  | cons byte rest ih => intro sweep; simp [ih]; omega

/-- The sweep marks every byte. -/
@[simp] theorem size_ofBytes (fork : Fork) (bytes : Array UInt8) :
    (ofBytes fork bytes).marks.size = bytes.size := by
  simp [ofBytes, ← Array.foldl_toList, size_foldl_next]

end Sweep

end EvmSafety
