/-
Hard forks.

The instruction set of the machine grows by hard forks, and every opcode names the one that
brought it.  Forks are ordered by time; a fork has everything its predecessors have.  The
names are the lower-case, dash-separated ones; reading a name forgives blanks around it,
capital letters and underscores in place of dashes.
-/
import EvmSafety.Text.Blank

namespace EvmSafety

/-- A version of the instruction set, oldest first. -/
inductive Fork
  | frontier
  | homestead
  | tangerineWhistle
  | spuriousDragon
  | byzantium
  | constantinople
  | istanbul
  | berlin
  | london
  | paris
  | shanghai
  | cancun
  | prague
  deriving DecidableEq, Repr, Inhabited

namespace Fork

/-- Every fork, in the order they happened. -/
def all : List Fork :=
  [frontier, homestead, tangerineWhistle, spuriousDragon, byzantium, constantinople, istanbul,
   berlin, london, paris, shanghai, cancun, prague]

/-- The newest fork, the only one with subroutines and relative jumps. -/
def latest : Fork := prague

/-- How many forks came before this one. -/
def rank : Fork → Nat
  | frontier => 0
  | homestead => 1
  | tangerineWhistle => 2
  | spuriousDragon => 3
  | byzantium => 4
  | constantinople => 5
  | istanbul => 6
  | berlin => 7
  | london => 8
  | paris => 9
  | shanghai => 10
  | cancun => 11
  | prague => 12

instance : LE Fork := ⟨fun a b => a.rank ≤ b.rank⟩

instance (a b : Fork) : Decidable (a ≤ b) := inferInstanceAs (Decidable (a.rank ≤ b.rank))

instance : Ord Fork := ⟨fun a b => compare a.rank b.rank⟩

/-- The name a fork is written by. -/
def name : Fork → String
  | frontier => "frontier"
  | homestead => "homestead"
  | tangerineWhistle => "tangerine-whistle"
  | spuriousDragon => "spurious-dragon"
  | byzantium => "byzantium"
  | constantinople => "constantinople"
  | istanbul => "istanbul"
  | berlin => "berlin"
  | london => "london"
  | paris => "paris"
  | shanghai => "shanghai"
  | cancun => "cancun"
  | prague => "prague"

/-- The fork of exactly this name. -/
def ofName? (text : String) : Option Fork :=
  all.find? fun fork => fork.name = text

/-- A text that names no fork. -/
structure Unknown where
  /-- The text as it was given. -/
  text : String
  deriving DecidableEq, Repr

/-- The wording of the refusal. -/
def Unknown.message (refusal : Unknown) : String :=
  "unknown fork '" ++ refusal.text ++ "'"

/-- A fork name in its strict form: trimmed, in small letters, dashes for underscores. -/
def strictName (text : String) : String :=
  String.ofList ((Text.trim text.toList).map fun c => if c = '_' then '-' else c.toLower)

/-- Read a fork name, leniently. -/
def parse (text : String) : Except Unknown Fork :=
  match ofName? (strictName text) with
  | some fork => .ok fork
  | none => .error ⟨text⟩

end Fork

end EvmSafety
