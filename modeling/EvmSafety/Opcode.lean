/-
Opcodes.

An opcode says everything the analysis needs to know about one byte: its mnemonic, how many
words it takes from the stack and leaves there, how wide its inline immediate is, which fork
introduced it, and what kind of move it makes.  The table lists them in byte order, each
byte once; a byte without an entry is undefined at every fork.

The counts of words are stated here and the moves again in the symbolic execution of an
instruction.  That the two agree is not shown in this file.
-/
import EvmSafety.Fork
import EvmSafety.Text.Hex

namespace EvmSafety

/-- What an opcode does to the control flow and to what is known of the stack. -/
inductive Move
  /-- Ends the path successfully. -/
  | halt
  /-- The designated invalid opcode, which always fails. -/
  | invalid
  /-- Pushes its immediate; without one, zero. -/
  | push
  /-- Copies the `n`-th word from the top. -/
  | dup (n : Nat)
  /-- Exchanges the top with the word `n` below it. -/
  | swap (n : Nat)
  /-- Marks a place where a jump may land. -/
  | jumpdest
  /-- Goes to a popped destination. -/
  | jump
  /-- Goes to a popped destination if a popped condition holds. -/
  | jumpi
  /-- Goes to a destination relative to the following instruction. -/
  | rjump
  /-- Goes to a relative destination if a popped condition holds. -/
  | rjumpi
  /-- Calls the subroutine at a popped destination. -/
  | jumpsub
  /-- Returns from the innermost subroutine. -/
  | returnsub
  /-- Takes and leaves fixed numbers of words; nothing is known of those it leaves. -/
  | effect
  deriving DecidableEq, Repr, Inhabited

/-- One entry of the instruction set. -/
structure Opcode where
  /-- The byte it is encoded by. -/
  byte : UInt8
  /-- The mnemonic. -/
  name : String
  /-- Words taken from the stack. -/
  pops : Nat
  /-- Words left on the stack. -/
  pushes : Nat
  /-- The fork that introduced it. -/
  since : Fork := .frontier
  /-- Bytes of inline immediate behind the opcode byte. -/
  width : Nat := 0
  /-- The kind of move it makes. -/
  move : Move := .effect
  deriving DecidableEq, Repr, Inhabited

namespace Opcode

/-- An opcode with fixed counts of words and no say in the control flow. -/
def effect (byte : UInt8) (name : String) (pops pushes : Nat) (since : Fork := .frontier) :
    Opcode where
  byte; name; pops; pushes; since

/-- Words pushed less words popped. -/
def difference (op : Opcode) : Int :=
  op.pushes - op.pops

/-! ### The families of numbered opcodes -/

/-- The opcode that pushes an immediate of `n` bytes. -/
def pushOf (n : Nat) : Opcode where
  byte := UInt8.ofNat (0x5F + n)
  name := "push" ++ toString n
  pops := 0
  pushes := 1
  since := if n = 0 then .shanghai else .frontier
  width := n
  move := .push

/-- The opcode that copies the `n`-th word from the top. -/
def dupOf (n : Nat) : Opcode where
  byte := UInt8.ofNat (0x7F + n)
  name := "dup" ++ toString n
  pops := n
  pushes := n + 1
  move := .dup n

/-- The opcode that exchanges the top with the word `n` below it. -/
def swapOf (n : Nat) : Opcode where
  byte := UInt8.ofNat (0x8F + n)
  name := "swap" ++ toString n
  pops := n + 1
  pushes := n + 1
  move := .swap n

/-- The opcode that logs a range of memory under `n` topics. -/
def logOf (n : Nat) : Opcode :=
  effect (UInt8.ofNat (0xA0 + n)) ("log" ++ toString n) (n + 2) 0

/-- Bytes `00` to `0b`: arithmetic. -/
def arithmetic : List Opcode :=
  [{ byte := 0x00, name := "stop", pops := 0, pushes := 0, move := .halt },
   effect 0x01 "add" 2 1, effect 0x02 "mul" 2 1, effect 0x03 "sub" 2 1, effect 0x04 "div" 2 1,
   effect 0x05 "sdiv" 2 1, effect 0x06 "mod" 2 1, effect 0x07 "smod" 2 1,
   effect 0x08 "addmod" 3 1, effect 0x09 "mulmod" 3 1, effect 0x0A "exp" 2 1,
   effect 0x0B "signextend" 2 1]

/-- Bytes `10` to `20`: comparison, bits and hashing. -/
def logic : List Opcode :=
  [effect 0x10 "lt" 2 1, effect 0x11 "gt" 2 1, effect 0x12 "slt" 2 1, effect 0x13 "sgt" 2 1,
   effect 0x14 "eq" 2 1, effect 0x15 "iszero" 1 1, effect 0x16 "and" 2 1, effect 0x17 "or" 2 1,
   effect 0x18 "xor" 2 1, effect 0x19 "not" 1 1, effect 0x1A "byte" 2 1,
   effect 0x1B "shl" 2 1 .constantinople, effect 0x1C "shr" 2 1 .constantinople,
   effect 0x1D "sar" 2 1 .constantinople, effect 0x20 "sha3" 2 1]

/-- Bytes `30` to `4a`: what a program can ask of the call and of the block. -/
def environment : List Opcode :=
  [effect 0x30 "address" 0 1, effect 0x31 "balance" 1 1, effect 0x32 "origin" 0 1,
   effect 0x33 "caller" 0 1, effect 0x34 "callvalue" 0 1, effect 0x35 "calldataload" 1 1,
   effect 0x36 "calldatasize" 0 1, effect 0x37 "calldatacopy" 3 0, effect 0x38 "codesize" 0 1,
   effect 0x39 "codecopy" 3 0, effect 0x3A "gasprice" 0 1, effect 0x3B "extcodesize" 1 1,
   effect 0x3C "extcodecopy" 4 0, effect 0x3D "returndatasize" 0 1 .byzantium,
   effect 0x3E "returndatacopy" 3 0 .byzantium, effect 0x3F "extcodehash" 1 1 .constantinople,
   effect 0x40 "blockhash" 1 1, effect 0x41 "coinbase" 0 1, effect 0x42 "timestamp" 0 1,
   effect 0x43 "number" 0 1, effect 0x44 "difficulty" 0 1, effect 0x45 "gaslimit" 0 1,
   effect 0x46 "chainid" 0 1 .istanbul, effect 0x47 "selfbalance" 0 1 .istanbul,
   effect 0x48 "basefee" 0 1 .london, effect 0x49 "blobhash" 1 1 .cancun,
   effect 0x4A "blobbasefee" 0 1 .cancun]

/-- Bytes `50` to `5e`: stack, memory, storage and jumps. -/
def flow : List Opcode :=
  [effect 0x50 "pop" 1 0, effect 0x51 "mload" 1 1, effect 0x52 "mstore" 2 0,
   effect 0x53 "mstore8" 2 0, effect 0x54 "sload" 1 1, effect 0x55 "sstore" 2 0,
   { byte := 0x56, name := "jump", pops := 1, pushes := 0, move := .jump },
   { byte := 0x57, name := "jumpi", pops := 2, pushes := 0, move := .jumpi },
   effect 0x58 "pc" 0 1, effect 0x59 "msize" 0 1, effect 0x5A "gas" 0 1,
   { byte := 0x5B, name := "jumpdest", pops := 0, pushes := 0, move := .jumpdest },
   effect 0x5C "tload" 1 1 .cancun, effect 0x5D "tstore" 2 0 .cancun,
   effect 0x5E "mcopy" 3 0 .cancun]

/-- Bytes `e0` to `e4`: static control flow. -/
def staticFlow : List Opcode :=
  [{ byte := 0xE0, name := "rjump", pops := 0, pushes := 0, since := .prague, width := 2,
     move := .rjump },
   { byte := 0xE1, name := "rjumpi", pops := 1, pushes := 0, since := .prague, width := 2,
     move := .rjumpi },
   { byte := 0xE3, name := "jumpsub", pops := 1, pushes := 0, since := .prague,
     move := .jumpsub },
   { byte := 0xE4, name := "returnsub", pops := 0, pushes := 0, since := .prague,
     move := .returnsub }]

/-- Bytes `f0` to `ff`: calls to other programs and the ways to end. -/
def system : List Opcode :=
  [effect 0xF0 "create" 3 1, effect 0xF1 "call" 7 1, effect 0xF2 "callcode" 7 1,
   { byte := 0xF3, name := "return", pops := 2, pushes := 0, move := .halt },
   effect 0xF4 "delegatecall" 6 1 .homestead, effect 0xF5 "create2" 4 1 .constantinople,
   effect 0xFA "staticcall" 6 1 .byzantium,
   { byte := 0xFD, name := "revert", pops := 2, pushes := 0, since := .byzantium,
     move := .halt },
   { byte := 0xFE, name := "invalid", pops := 0, pushes := 0, move := .invalid },
   { byte := 0xFF, name := "selfdestruct", pops := 1, pushes := 0, move := .halt }]

/-! ### The table -/

/-- Every opcode, in byte order. -/
def table : List Opcode :=
  arithmetic ++ logic ++ environment ++ flow
    ++ (List.range 33).map pushOf
    ++ (List.range 16).map (fun i => dupOf (i + 1))
    ++ (List.range 16).map (fun i => swapOf (i + 1))
    ++ (List.range 5).map logOf
    ++ staticFlow ++ system

/-- The table spread out over all bytes, so that a look-up takes one step.  Proofs see it
through the lemma below and never unfold it. -/
@[irreducible] def byByte : Vector (Option Opcode) 256 :=
  Vector.ofFn fun i => table.find? fun op => op.byte == UInt8.ofNat i.val

/-- The opcode a byte encodes at some fork. -/
def ofByte? (byte : UInt8) : Option Opcode :=
  byByte[(⟨byte.toNat, byte.toNat_lt⟩ : Fin 256)]

/-- Looking up a byte searches the table for it. -/
theorem ofByte?_eq_find? (byte : UInt8) :
    ofByte? byte = table.find? fun op => op.byte == byte := by
  unfold ofByte? byByte
  rw [Fin.getElem_fin, Vector.getElem_ofFn, UInt8.ofNat_toNat]

/-- Whether an opcode exists at a fork. -/
def existsAt (op : Opcode) (fork : Fork) : Bool :=
  decide (op.since ≤ fork)

/-- The opcode a byte encodes at one fork. -/
def ofByteAt? (byte : UInt8) (fork : Fork) : Option Opcode :=
  (ofByte? byte).filter (·.existsAt fork)

theorem mem_table_of_ofByteAt? {byte : UInt8} {fork : Fork} {op : Opcode}
    (h : ofByteAt? byte fork = some op) : op ∈ table := by
  obtain ⟨hbyte, -⟩ := Option.filter_eq_some_iff.1 h
  rw [ofByte?_eq_find?] at hbyte
  exact List.mem_of_find?_eq_some hbyte

theorem since_le_of_ofByteAt? {byte : UInt8} {fork : Fork} {op : Opcode}
    (h : ofByteAt? byte fork = some op) : op.since ≤ fork := by
  obtain ⟨-, hexists⟩ := Option.filter_eq_some_iff.1 h
  exact of_decide_eq_true hexists

theorem byte_of_ofByteAt? {byte : UInt8} {fork : Fork} {op : Opcode}
    (h : ofByteAt? byte fork = some op) : op.byte = byte := by
  obtain ⟨hbyte, -⟩ := Option.filter_eq_some_iff.1 h
  rw [ofByte?_eq_find?] at hbyte
  simpa using List.find?_some hbyte

/-- A byte that no fork gives a meaning. -/
structure Missing where
  /-- The byte that was asked for. -/
  byte : UInt8
  deriving DecidableEq, Repr

/-- The wording of the refusal. -/
def Missing.message (missing : Missing) : String :=
  "no opcode " ++ Hex.ofBytesMarked [missing.byte]

/-- The opcode a byte encodes, for a caller who counts on there being one. -/
def require (byte : UInt8) : Except Missing Opcode :=
  match ofByte? byte with
  | some op => .ok op
  | none => .error ⟨byte⟩

end Opcode

end EvmSafety
