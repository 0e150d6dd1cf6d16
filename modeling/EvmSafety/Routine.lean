/-
Routines.

A routine is a piece of code with a stack base of its own: the program itself, or a
subroutine, which is known by its entry.  Routines are ordered, the program below all
subroutines and those by their entries, so that they can be the keys of a map.
-/
import Std.Data.TreeMap

namespace EvmSafety

/-- A piece of code with a stack base of its own. -/
inductive Routine
  /-- The code that runs when the program starts. -/
  | main
  /-- The subroutine entered at an offset. -/
  | sub (entry : Nat)
  deriving DecidableEq, Repr, Inhabited

namespace Routine

/-- The place in the order of routines: the program first, then subroutines by entry. -/
def rank : Routine → Nat
  | main => 0
  | sub entry => entry + 1

theorem rank_inj {a b : Routine} : a.rank = b.rank ↔ a = b := by
  cases a <;> cases b <;> simp [rank]

instance : Ord Routine := ⟨fun a b => compare a.rank b.rank⟩

theorem compare_eq (a b : Routine) : compare a b = compare a.rank b.rank := rfl

instance : Std.TransOrd Routine where
  eq_swap := by
    intro a b
    rw [compare_eq, compare_eq]
    exact Std.OrientedCmp.eq_swap
  isLE_trans := by
    intro a b c
    rw [compare_eq, compare_eq, compare_eq]
    exact Std.TransCmp.isLE_trans

instance : Std.LawfulEqOrd Routine where
  compare_self := by
    intro a
    rw [compare_eq]
    exact Std.ReflCmp.compare_self
  eq_of_compare := by
    intro a b h
    rw [compare_eq] at h
    exact rank_inj.1 (Std.LawfulEqCmp.eq_of_compare h)

/-- The name used in logs. -/
def text : Routine → String
  | main => "Main"
  | sub entry => s!"Sub({entry})"

end Routine

end EvmSafety
