/-
Hexadecimal text.

Bytes are written as two lower-case digits each, high half first, and are read back from
digits of either case.  Reading refuses an odd number of digits and any other character, so
it accepts exactly the texts that pair up into digits.  Numbers are written without leading
zeros; code offsets are padded to four digits.
-/

namespace EvmSafety.Hex

/-- The value of one digit, of either case. -/
def value? (c : Char) : Option Nat :=
  if '0' ≤ c ∧ c ≤ '9' then some (c.toNat - 48)
  else if 'a' ≤ c ∧ c ≤ 'f' then some (c.toNat - 87)
  else if 'A' ≤ c ∧ c ≤ 'F' then some (c.toNat - 55)
  else none

/-- The two digits of a byte. -/
def ofByte (b : UInt8) : List Char :=
  [Nat.digitChar (b.toNat / 16), Nat.digitChar (b.toNat % 16)]

/-- The digits of a run of bytes, in order. -/
def ofBytes (bytes : List UInt8) : List Char :=
  bytes.flatMap ofByte

/-- Read pairs of digits, adding one byte per pair to those already read. -/
def readPairs (bytes : Array UInt8) : List Char → Option (Array UInt8)
  | [] => some bytes
  | [_] => none
  | high :: low :: rest =>
    match value? high, value? low with
    | some h, some l => readPairs (bytes.push (UInt8.ofNat (16 * h + l))) rest
    | _, _ => none

/-- The bytes a text of digits stands for, if it is one. -/
def toBytes? (digits : List Char) : Option (Array UInt8) :=
  readPairs #[] digits

/-- A number behind `0x`, without leading zeros. -/
def ofNat (n : Nat) : String :=
  "0x" ++ String.ofList (Nat.toDigits 16 n)

/-- A code offset behind `0x`, in at least four digits. -/
def ofOffset (offset : Nat) : String :=
  "0x" ++ String.ofList (List.leftpad 4 '0' (Nat.toDigits 16 offset))

/-- The number a text of digits of base sixteen stands for; an empty text stands for none. -/
def toNat? (digits : List Char) : Option Nat :=
  if digits.isEmpty then none
  else digits.foldl (fun n c => return 16 * (← n) + (← value? c)) (some 0)

/-- The bytes of a text of digits, behind `0x`. -/
def ofBytesMarked (bytes : List UInt8) : String :=
  "0x" ++ String.ofList (ofBytes bytes)

end EvmSafety.Hex
