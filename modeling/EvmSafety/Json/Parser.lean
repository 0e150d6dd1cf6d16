/-
Reading JSON.

The reader takes a value from the front of a text and hands back the rest.  It follows the
grammar strictly: no blanks other than the four of the format, no leading zeros, no bare
control characters in texts, and no half of a surrogate pair without the other.  A key given
again in the same object replaces what it named before.

The recursion is bounded by a number that the length of the text pays for: between two
values nested in each other at least one bracket is taken, and between two neighbours a
comma.
-/
import EvmSafety.Json
import EvmSafety.Text.Hex

namespace EvmSafety.Json

/-- The blanks of the format. -/
def isSpace (c : Char) : Bool :=
  c = ' ' || c = '\n' || c = '\r' || c = '\t'

/-- Drop the blanks in front. -/
def skipSpace (cs : List Char) : List Char :=
  cs.dropWhile isSpace

/-! ### Texts -/

/-- The character that a letter behind a backslash stands for. -/
def unescape? : Char → Option Char
  | '"' => some '"'
  | '\\' => some '\\'
  | '/' => some '/'
  | 'b' => some '\x08'
  | 'f' => some '\x0c'
  | 'n' => some '\n'
  | 'r' => some '\r'
  | 't' => some '\t'
  | _ => none

/-- The number that four digits of base sixteen stand for. -/
def unit? (a b c d : Char) : Option Nat :=
  Hex.toNat? [a, b, c, d]

/-- Whether a number is the first half of a surrogate pair. -/
def isHigh (unit : Nat) : Bool :=
  decide (0xD800 ≤ unit ∧ unit < 0xDC00)

/-- Whether a number is the second half of a surrogate pair. -/
def isLow (unit : Nat) : Bool :=
  decide (0xDC00 ≤ unit ∧ unit < 0xE000)

/-- Read a text up to its closing quote, with the characters read so far, the latest first,
and the first half of a surrogate pair if one was just read. -/
def readText (read : List Char) (high : Option Nat) :
    List Char → Option (String × List Char)
  | '\\' :: 'u' :: a :: b :: c :: d :: rest =>
    match unit? a b c d, high with
    | none, _ => none
    | some unit, none =>
      if isHigh unit then readText read (some unit) rest
      else if isLow unit then none
      else readText (Char.ofNat unit :: read) none rest
    | some unit, some first =>
      if isLow unit then
        readText (Char.ofNat (0x10000 + (first - 0xD800) * 0x400 + (unit - 0xDC00)) :: read)
          none rest
      else none
  | '\\' :: letter :: rest =>
    match unescape? letter, high with
    | some c, none => readText (c :: read) none rest
    | _, _ => none
  | c :: rest =>
    match high with
    | some _ => none
    | none =>
      if c = '"' then some (String.ofList read.reverse, rest)
      else if c = '\\' ∨ c.toNat < 0x20 then none
      else readText (c :: read) none rest
  | [] => none

/-! ### Numbers -/

/-- Take the digits in front; there must be one. -/
def readDigits (cs : List Char) : Option (List Char × List Char) :=
  match cs.span Char.isDigit with
  | ([], _) => none
  | (digits, rest) => some (digits, rest)

/-- Take the digits in front of the point: a single zero, or digits that begin otherwise. -/
def readWhole : List Char → Option (List Char × List Char)
  | '0' :: rest => some (['0'], rest)
  | cs => readDigits cs

/-- Take a point with digits behind it, if one comes next. -/
def readFraction : List Char → Option (List Char × List Char)
  | '.' :: rest => (readDigits rest).map fun (digits, rest) => ('.' :: digits, rest)
  | cs => some ([], cs)

/-- Take an exponent, if one comes next. -/
def readExponent (cs : List Char) : Option (List Char × List Char) :=
  match cs with
  | e :: rest =>
    if e = 'e' ∨ e = 'E' then
      match rest with
      | sign :: more =>
        if sign = '+' ∨ sign = '-' then
          (readDigits more).map fun (digits, rest) => (e :: sign :: digits, rest)
        else (readDigits rest).map fun (digits, rest) => (e :: digits, rest)
      | [] => none
    else some ([], cs)
  | [] => some ([], cs)

/-- Read a number without its sign. -/
def readMagnitude (negative : Bool) (cs : List Char) : Option (Json × List Char) := do
  let (whole, rest) ← readWhole cs
  let (fraction, rest) ← readFraction rest
  let (exponent, rest) ← readExponent rest
  let n := Decimal.value whole
  if fraction.isEmpty ∧ exponent.isEmpty ∧ ¬ (negative ∧ n = 0) then
    return (number (if negative then -n else n), rest)
  else
    let sign := if negative then ['-'] else []
    return (decimal (String.ofList (sign ++ whole ++ fraction ++ exponent)), rest)

/-- Read a number. -/
def readNumber : List Char → Option (Json × List Char)
  | '-' :: rest => readMagnitude true rest
  | cs => readMagnitude false cs

/-! ### Values -/

mutual

/-- Read a value. -/
def readValue : Nat → List Char → Option (Json × List Char)
  | 0, _ => none
  | fuel + 1, cs =>
    match skipSpace cs with
    | 'n' :: 'u' :: 'l' :: 'l' :: rest => some (null, rest)
    | 't' :: 'r' :: 'u' :: 'e' :: rest => some (bool true, rest)
    | 'f' :: 'a' :: 'l' :: 's' :: 'e' :: rest => some (bool false, rest)
    | '"' :: rest => (readText [] none rest).map fun (text, rest) => (string text, rest)
    | '[' :: rest =>
      match skipSpace rest with
      | ']' :: rest => some (array [], rest)
      | rest => readItems fuel [] rest
    | '{' :: rest =>
      match skipSpace rest with
      | '}' :: rest => some (object [], rest)
      | rest => readMembers fuel [] rest
    | cs => readNumber cs

/-- Read the items of a list up to its closing bracket, with those read so far, the latest
first. -/
def readItems : Nat → List Json → List Char → Option (Json × List Char)
  | 0, _, _ => none
  | fuel + 1, items, cs =>
    match readValue fuel cs with
    | none => none
    | some (item, rest) =>
      match skipSpace rest with
      | ',' :: rest => readItems fuel (item :: items) rest
      | ']' :: rest => some (array (item :: items).reverse, rest)
      | _ => none

/-- Read the members of an object up to its closing brace, with those read so far, the latest
first. -/
def readMembers : Nat → List (String × Json) → List Char → Option (Json × List Char)
  | 0, _, _ => none
  | fuel + 1, members, cs =>
    match skipSpace cs with
    | '"' :: rest =>
      match readText [] none rest with
      | none => none
      | some (key, rest) =>
        match skipSpace rest with
        | ':' :: rest =>
          match readValue fuel rest with
          | none => none
          | some (value, rest) =>
            let members := (key, value) :: members.filter fun member => member.1 ≠ key
            match skipSpace rest with
            | ',' :: rest => readMembers fuel members rest
            | '}' :: rest => some (object members.reverse, rest)
            | _ => none
        | _ => none
    | _ => none

end

/-- Read a text that holds one value and blanks around it. -/
def parse (text : String) : Option Json :=
  match readValue (2 * text.toList.length + 2) text.toList with
  | some (value, rest) => if (skipSpace rest).isEmpty then some value else none
  | none => none

end EvmSafety.Json
