/-
The program buffer.

The buffer holds one program and the largest size it takes.  A program comes in as
hexadecimal text: blanks around it are dropped, then one mark `0x` or `0X` in front, then all
blanks between the digits.  A load either replaces the program or changes nothing.
-/
import EvmSafety.Text.Blank
import EvmSafety.Text.Excerpt
import EvmSafety.Text.Hex

namespace EvmSafety

/-- Why a program is not taken. -/
inductive Unloadable
  /-- The text does not pair up into digits; the text is what was left after cleaning, cut to
  its first forty characters. -/
  | notHex (text : String)
  /-- There is no program. -/
  | empty
  /-- The program is larger than the buffer takes. -/
  | tooLarge (size limit : Nat)
  deriving DecidableEq, Repr

/-- The wording of the refusal. -/
def Unloadable.message : Unloadable → String
  | notHex text => "invalid hex input: " ++ text
  | empty => "empty bytecode"
  | tooLarge size limit => s!"bytecode too large ({size} bytes, max {limit})"

/-- The largest program a deployed contract may have. -/
def defaultLimit : Nat := 24576

/-- A program and the largest size allowed. -/
structure Buffer where
  /-- The program. -/
  bytes : Array UInt8 := #[]
  /-- The largest size allowed. -/
  limit : Nat := defaultLimit
  deriving DecidableEq, Repr

namespace Buffer

/-- Take one mark of hexadecimal text off the front. -/
def stripMark : List Char → List Char
  | '0' :: 'x' :: rest => rest
  | '0' :: 'X' :: rest => rest
  | cs => cs

/-- The characters of a text that are meant as digits. -/
def clean (text : List Char) : List Char :=
  (stripMark (Text.trim text)).filter fun c => !Text.isBlank c

/-- Take a program given as bytes. -/
def take (bytes : Array UInt8) : EStateM Unloadable Buffer Unit := fun buffer =>
  if bytes.size ≤ buffer.limit then .ok () { buffer with bytes }
  else .error (.tooLarge bytes.size buffer.limit) buffer

/-- Take a program given as text. -/
def load (text : String) : EStateM Unloadable Buffer Unit :=
  let digits := clean text.toList
  match Hex.toBytes? digits with
  | some bytes => take bytes
  | none => throw (.notHex (String.ofList (Text.excerpt digits 40)))

end Buffer

end EvmSafety
