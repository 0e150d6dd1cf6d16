/-
Words.

The machine computes on words of 256 bits.  The analysis never computes with them: a word
enters as the literal of a push and leaves as the name of a destination, so all that is
needed is how bytes spell a word and how a word is written.
-/
import EvmSafety.Text.Hex

namespace EvmSafety

/-- A machine word. -/
abbrev Word := BitVec 256

namespace Word

/-- The number a run of bytes spells, the most significant byte first. -/
def bigEndian (bytes : List UInt8) : Nat :=
  bytes.foldl (fun n b => 256 * n + b.toNat) 0

/-- The word a run of at most 32 bytes spells, the most significant byte first. -/
def ofBytes (bytes : List UInt8) : Word :=
  BitVec.ofNat 256 (bigEndian bytes)

/-- A word in hexadecimal behind `0x`, without leading zeros. -/
def text (w : Word) : String :=
  Hex.ofNat w.toNat

end Word

end EvmSafety
