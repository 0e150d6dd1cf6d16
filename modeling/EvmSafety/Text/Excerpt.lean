/-
Excerpts.

A message quotes a long text by its beginning only, and shows that it does.
-/

namespace EvmSafety.Text

/-- A text itself if it has at most `max` characters; else its first `max`, with the cut
marked. -/
def excerpt (text : List Char) (max : Nat) : List Char :=
  if max < text.length then text.take max ++ ['.', '.', '.'] else text

end EvmSafety.Text
