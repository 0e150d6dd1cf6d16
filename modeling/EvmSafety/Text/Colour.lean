/-
Colours.

A terminal switches colours on and off by sequences within the text.
-/

namespace EvmSafety

/-- A colour of a terminal. -/
inductive Colour
  | green
  | red
  deriving DecidableEq, Repr

namespace Colour

/-- The sequence that switches the colour on. -/
def code : Colour → String
  | green => "\x1b[92m"
  | red => "\x1b[91m"

/-- The sequence that switches all colours off. -/
def off : String := "\x1b[0m"

/-- Put a text between a sequence and the one that ends it; an empty text stays empty. -/
def wrap (sequence : String) (text : String) : String :=
  if text.isEmpty then text else sequence ++ text ++ off

end Colour

end EvmSafety
