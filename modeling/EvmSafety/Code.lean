/-
Code.

A code is a string of bytes read at one fork.  It carries the marks of its sweep, so that
asking what stands at an offset takes one step, and decoding an offset answers with an
instruction or with the reason why there is none.  The four reasons exclude each other and
are tried in one order: past the end, inside data, undefined, cut off by the end.
-/
import EvmSafety.Code.Instruction
import EvmSafety.Code.Sweep
import EvmSafety.Violation

namespace EvmSafety

/-- Why no instruction can be read at an offset. -/
inductive Unreadable
  /-- The offset is past the end of the code. -/
  | pastEnd (offset : Nat)
  /-- The offset lies inside the immediate of an instruction. -/
  | insideData (offset : Nat)
  /-- The byte has no meaning at the fork. -/
  | undefined (offset : Nat) (byte : UInt8)
  /-- The code ends before the immediate does. -/
  | cutOff (offset needed available : Nat)
  deriving DecidableEq, Repr

namespace Unreadable

/-- The offset that was asked about. -/
def offset : Unreadable → Nat
  | pastEnd offset => offset
  | insideData offset => offset
  | undefined offset _ => offset
  | cutOff offset _ _ => offset

/-- Running into any of them is the same kind of violation. -/
def kind : Unreadable → Violation.Kind
  | pastEnd _ | insideData _ | undefined _ _ | cutOff _ _ _ => .invalidInstruction

/-- The wording of the refusal. -/
def message : Unreadable → String
  | pastEnd offset => s!"offset {offset} is past the end of the code"
  | insideData offset => s!"offset {offset} lies inside immediate data"
  | undefined offset byte =>
    s!"undefined opcode {Hex.ofBytesMarked [byte]} at offset {offset}"
  | cutOff offset needed available =>
    s!"immediate of opcode at offset {offset} is truncated ({needed} bytes, {available} available)"

end Unreadable

/-- Bytes read at a fork, together with what the sweep over them found. -/
structure Code where
  /-- The bytes. -/
  bytes : Array UInt8
  /-- The fork whose instruction set applies. -/
  fork : Fork
  /-- The mark of every byte. -/
  marks : Array Mark := (Sweep.ofBytes fork bytes).marks
  /-- The marks are those of the sweep. -/
  marks_eq : marks = (Sweep.ofBytes fork bytes).marks := by rfl

namespace Code

/-- Read bytes at a fork. -/
def ofBytes (bytes : Array UInt8) (fork : Fork) : Code where
  bytes; fork

/-- The number of bytes. -/
def size (code : Code) : Nat :=
  code.bytes.size

/-- Whether an instruction starts at an offset. -/
def isStart (code : Code) (offset : Nat) : Bool :=
  match code.marks[offset]? with
  | some .start | some .dest => true
  | _ => false

/-- Whether a jump may land on an offset. -/
def isDest (code : Code) (offset : Nat) : Bool :=
  code.marks[offset]? == some .dest

/-- The offsets where instructions start, ascending. -/
def starts (code : Code) : List Nat :=
  (List.range code.size).filter code.isStart

/-- The offsets a jump may land on, ascending. -/
def destinations (code : Code) : List Nat :=
  (List.range code.size).filter code.isDest

/-- How many offsets a jump may land on. -/
def destinationCount (code : Code) : Nat :=
  code.marks.count .dest

/-- Read the instruction that starts at an offset. -/
def decode (code : Code) (offset : Nat) : Except Unreadable Instruction :=
  match code.bytes[offset]? with
  | none => .error (.pastEnd offset)
  | some byte =>
    if code.isStart offset then
      match Opcode.ofByteAt? byte code.fork with
      | none => .error (.undefined offset byte)
      | some op =>
        let available := code.size - offset - 1
        if op.width ≤ available then
          .ok ⟨offset, op, (code.bytes.extract (offset + 1) (offset + 1 + op.width)).toList⟩
        else
          .error (.cutOff offset op.width available)
    else
      .error (.insideData offset)

/-- What stands at every instruction start, in code order. -/
def instructions (code : Code) : List (Except Unreadable Instruction) :=
  code.starts.map code.decode

/-- The name of the instruction at an offset, for messages. -/
def mnemonic (code : Code) (offset : Nat) : String :=
  match code.decode offset with
  | .ok ins => ins.opcode.name
  | .error _ => "undecodable"

/-- Whether the byte before an offset is a call of a subroutine. -/
def isBehindCall (code : Code) : Nat → Bool
  | 0 => false
  | site + 1 =>
    match code.decode site with
    | .ok ins => ins.opcode.move = .jumpsub
    | .error _ => false

/-- A decoded instruction starts where it was asked for, inside the code. -/
theorem offset_lt_of_decode {code : Code} {offset : Nat} {ins : Instruction}
    (h : code.decode offset = .ok ins) : ins.offset = offset ∧ offset < code.size := by
  unfold decode at h
  split at h
  · simp at h
  · next byte hbyte =>
    obtain ⟨hlt, -⟩ := Array.getElem?_eq_some_iff.1 hbyte
    split at h
    · split at h
      · simp at h
      · dsimp only at h
        split at h
        · injection h with h
          exact ⟨by rw [← h], hlt⟩
        · simp at h
    · simp at h

end Code

end EvmSafety
