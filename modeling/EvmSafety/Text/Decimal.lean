/-
Decimal text.

Counts, offsets and sizes are written in decimal digits.  Those that come from outside have
to fit in 64 bits.
-/

namespace EvmSafety.Decimal

/-- The number that a run of decimal digits stands for. -/
def value (digits : List Char) : Nat :=
  digits.foldl (fun n c => 10 * n + (c.toNat - 48)) 0

/-- The number of values that a count from outside can have, two to the power of 64. -/
def countLimit : Nat := 18446744073709551616

/-- The count that a text stands for: digits, with a plus sign allowed in front. -/
def toCount? (text : List Char) : Option Nat :=
  let digits :=
    match text with
    | '+' :: rest => rest
    | cs => cs
  if digits.isEmpty ∨ ¬ digits.all Char.isDigit then none
  else if value digits < countLimit then some (value digits)
  else none

end EvmSafety.Decimal
