/-
Listings.

A listing has one line for every instruction start of the code, in order.  A line has one of
three shapes: an instruction with its immediate if it has one; an instruction whose immediate
the end of the code cuts off, with all bytes from there on; a byte that encodes nothing.
-/
import EvmSafety.Code

namespace EvmSafety

/-- One line of a listing. -/
inductive Line
  /-- An instruction. -/
  | instruction (ins : Instruction)
  /-- An instruction cut off by the end, with its bytes. -/
  | truncated (offset : Nat) (name : String) (bytes : List UInt8)
  /-- A byte without a meaning. -/
  | unknown (offset : Nat) (byte : UInt8)
  deriving DecidableEq, Repr

namespace Line

/-- The text of a line. -/
def text : Line → String
  | instruction ins =>
    let head := Hex.ofOffset ins.offset ++ " " ++ ins.opcode.name
    if ins.immediate.isEmpty then head else head ++ " " ++ Hex.ofBytesMarked ins.immediate
  | truncated offset name bytes =>
    Hex.ofOffset offset ++ " " ++ name ++ " (truncated " ++ Hex.ofBytesMarked bytes ++ ")"
  | unknown offset byte => Hex.ofOffset offset ++ " unknown " ++ Hex.ofBytesMarked [byte]

end Line

namespace Code

/-- The bytes from an offset on. -/
def tail (code : Code) (offset : Nat) : List UInt8 :=
  (code.bytes.extract offset code.size).toList

/-- The byte at an offset; zero past the end. -/
def byteAt (code : Code) (offset : Nat) : UInt8 :=
  code.bytes.getD offset 0

/-- The line for an offset. -/
def lineAt (code : Code) (offset : Nat) : Line :=
  match code.decode offset with
  | .ok ins => .instruction ins
  | .error (.cutOff offset _ _) =>
    let name :=
      match Opcode.ofByteAt? (code.byteAt offset) code.fork with
      | some op => op.name
      | none => "unknown"
    .truncated offset name (code.tail offset)
  | .error cause => .unknown cause.offset (code.byteAt cause.offset)

/-- The lines of a code, in order. -/
def lines (code : Code) : List Line :=
  code.starts.map code.lineAt

/-- The listing of a code. -/
def listing (code : Code) : List String :=
  code.lines.map Line.text

end Code

end EvmSafety
