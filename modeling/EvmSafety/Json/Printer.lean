/-
Writing JSON.

A value has two written forms: a compact one without blanks, and a pretty one that gives
every item and every member a line of its own, indented by two places a level.  In both, an
empty list and an empty object stay closed up, and a text is written with as few escapes as
the format allows.
-/
import EvmSafety.Json

namespace EvmSafety.Json

/-- A character inside quotes. -/
def escape (c : Char) : List Char :=
  match c with
  | '"' => ['\\', '"']
  | '\\' => ['\\', '\\']
  | '\n' => ['\\', 'n']
  | '\r' => ['\\', 'r']
  | '\t' => ['\\', 't']
  | '\x08' => ['\\', 'b']
  | '\x0c' => ['\\', 'f']
  | _ =>
    if c.toNat < 0x20 then
      ['\\', 'u', '0', '0', Nat.digitChar (c.toNat / 16), Nat.digitChar (c.toNat % 16)]
    else [c]

/-- A text in quotes. -/
def quoted (text : String) : List Char :=
  '"' :: (text.toList.flatMap escape ++ ['"'])

/-- A whole number. -/
def digits : Int → List Char
  | .ofNat n => Nat.toDigits 10 n
  | .negSucc n => '-' :: Nat.toDigits 10 (n + 1)

/-- A value that has no parts. -/
def scalar : Json → List Char
  | null => ['n', 'u', 'l', 'l']
  | bool true => ['t', 'r', 'u', 'e']
  | bool false => ['f', 'a', 'l', 's', 'e']
  | number n => digits n
  | decimal text => text.toList
  | string text => quoted text
  | array _ | object _ => []

/-- The compact form, as characters. -/
def compactChars : Json → List Char
  | array items =>
    '[' :: ([','].intercalate (items.map fun item => item.compactChars) ++ [']'])
  | object members =>
    '{' :: ([','].intercalate (members.map fun member =>
      quoted member.1 ++ ':' :: member.2.compactChars) ++ ['}'])
  | value => value.scalar
termination_by value => sizeOf value
decreasing_by
  · rename_i h
    have := List.sizeOf_lt_of_mem h
    simp only [array.sizeOf_spec]
    omega
  · rename_i h
    have := List.sizeOf_lt_of_mem h
    obtain ⟨key, value⟩ := member
    simp only [object.sizeOf_spec, Prod.mk.sizeOf_spec] at this ⊢
    omega

/-- The start of a line at an indentation. -/
def newline (indent : Nat) : List Char :=
  '\n' :: List.replicate indent ' '

/-- Entries between two brackets, each on a line of its own. -/
def layout (opening closing : Char) (indent : Nat) : List (List Char) → List Char
  | [] => [opening, closing]
  | entries =>
    opening :: ([','].intercalate (entries.map fun entry => newline (indent + 2) ++ entry)
      ++ newline indent ++ [closing])

/-- The pretty form, as characters, for a value that stands at an indentation. -/
def prettyChars (indent : Nat) : Json → List Char
  | array items =>
    layout '[' ']' indent (items.map fun item => item.prettyChars (indent + 2))
  | object members =>
    layout '{' '}' indent (members.map fun member =>
      quoted member.1 ++ ':' :: ' ' :: member.2.prettyChars (indent + 2))
  | value => value.scalar
termination_by value => sizeOf value
decreasing_by
  · rename_i h
    have := List.sizeOf_lt_of_mem h
    simp only [array.sizeOf_spec]
    omega
  · rename_i h
    have := List.sizeOf_lt_of_mem h
    obtain ⟨key, value⟩ := member
    simp only [object.sizeOf_spec, Prod.mk.sizeOf_spec] at this ⊢
    omega

/-- The compact form. -/
def compact (value : Json) : String :=
  String.ofList value.compactChars

/-- The pretty form. -/
def pretty (value : Json) : String :=
  String.ofList (value.prettyChars 0)

end EvmSafety.Json
