/-
Reading back the JSON that is written.

Each part of a value is read off the front of a text, and what is behind it is left over.
`Reads` says so of a value and the characters it is written with, whatever is behind them as
long as it cannot belong to a number, and however the recursion is bounded as long as the
bound pays for the characters.  It holds of a list if it holds of its items, and of an object
if it holds of its members and no two of them have the same key.  Blanks in front do not
matter, so that the compact form and the pretty one are two instances of it.
-/
import EvmSafety.Json.Parser
import EvmSafety.Json.Printer
import Mathlib.Data.List.DropRight
import Mathlib.Data.List.Nodup
import Mathlib.Data.List.TakeDrop

namespace EvmSafety

namespace Json

/-! ### Numbers -/

/-- Whether a character can go on with a number. -/
def isNumeric (c : Char) : Bool :=
  c.isDigit || c = '.' || c = 'e' || c = 'E'

/-- A text that does not go on with a number. -/
def Ends (rest : List Char) : Prop :=
  rest.head?.all (fun c => !isNumeric c) = true

theorem ends_nil : Ends [] := rfl

theorem not_isNumeric_of_ends {c : Char} {rest : List Char} (h : Ends (c :: rest)) :
    isNumeric c = false := by
  simpa [Ends] using h

/-- What a reader takes off the front does not depend on the text behind. -/
def Stops {α : Type} (read : List Char → Option (α × List Char)) : Prop :=
  ∀ {cs rest more a}, Ends more → read cs = some (a, rest) →
    read (cs ++ more) = some (a, rest ++ more)

theorem span_isDigit_append {cs more : List Char} (h : Ends more) :
    (cs ++ more).span Char.isDigit
      = ((cs.span Char.isDigit).1, (cs.span Char.isDigit).2 ++ more) := by
  simp only [List.span_eq_takeWhile_dropWhile]
  induction cs with
  | nil =>
    cases more with
    | nil => rfl
    | cons c more =>
      have hc := not_isNumeric_of_ends h
      have hdigit : c.isDigit = false := by
        simp only [isNumeric, Bool.or_eq_false_iff] at hc
        exact hc.1.1.1
      simp [hdigit]
  | cons c cs ih =>
    by_cases hdigit : c.isDigit = true
    · simpa [hdigit] using ih
    · simp [hdigit]

theorem stops_readDigits : Stops readDigits := by
  intro cs rest more digits h hread
  rw [readDigits, span_isDigit_append h]
  rw [readDigits] at hread
  cases hspan : cs.span Char.isDigit with
  | mk taken left =>
    rw [hspan] at hread
    cases taken with
    | nil => cases hread
    | cons c taken =>
      cases hread
      rfl

theorem Stops.map {α β : Type} {read : List Char → Option (α × List Char)} (hstops : Stops read)
    (f : α → β) : Stops fun cs => (read cs).map fun (a, rest) => (f a, rest) := by
  intro cs rest more b h hread
  obtain ⟨⟨a, left⟩, ha, hsome⟩ := Option.map_eq_some_iff.1 hread
  cases hsome
  exact Option.map_eq_some_iff.2 ⟨(a, rest ++ more), hstops h ha, rfl⟩

theorem readWhole_of_ne {c : Char} (h : c ≠ '0') (cs : List Char) :
    readWhole (c :: cs) = readDigits (c :: cs) := by
  unfold readWhole
  split
  · next heq => exact absurd (List.cons.inj heq).1 h
  · rfl

theorem stops_readWhole : Stops readWhole := by
  intro cs rest more digits h hread
  match cs, hread with
  | [], hread => cases hread
  | c :: cs, hread =>
    by_cases hzero : c = '0'
    · subst hzero
      cases hread
      rfl
    · rw [readWhole_of_ne hzero] at hread
      rw [List.cons_append, readWhole_of_ne hzero]
      exact stops_readDigits h hread

theorem readFraction_of_ne {cs : List Char} (h : cs.head? ≠ some '.') :
    readFraction cs = some ([], cs) := by
  unfold readFraction
  split
  · exact absurd rfl h
  · rfl

theorem stops_readFraction : Stops readFraction := by
  intro cs rest more digits h hread
  match cs, hread with
  | [], hread =>
    cases hread
    refine readFraction_of_ne ?_
    intro hpoint
    rw [List.nil_append] at hpoint
    rw [Ends, hpoint] at h
    cases h
  | c :: cs, hread =>
    by_cases hpoint : c = '.'
    · subst hpoint
      exact stops_readDigits.map ('.' :: ·) h hread
    · rw [readFraction_of_ne (by simpa using hpoint)] at hread
      cases hread
      exact readFraction_of_ne (by simpa using hpoint)

theorem readExponent_of_ne {c : Char} (h : ¬ (c = 'e' ∨ c = 'E')) (cs : List Char) :
    readExponent (c :: cs) = some ([], c :: cs) := by
  simp [readExponent, h]

theorem stops_readExponent : Stops readExponent := by
  intro cs rest more digits h hread
  match cs, hread with
  | [], hread =>
    cases hread
    cases more with
    | nil => rfl
    | cons c more =>
      have hc := not_isNumeric_of_ends h
      simp only [isNumeric, Bool.or_eq_false_iff, decide_eq_false_iff_not] at hc
      exact readExponent_of_ne (by simp [hc.1.2, hc.2]) more
  | c :: cs, hread =>
    by_cases hexp : c = 'e' ∨ c = 'E'
    · cases cs with
      | nil => simp [readExponent, hexp] at hread
      | cons sign cs =>
        by_cases hsign : sign = '+' ∨ sign = '-'
        · simp only [readExponent, if_pos hexp, if_pos hsign, List.cons_append] at hread ⊢
          exact stops_readDigits.map (c :: sign :: ·) h hread
        · simp only [readExponent, if_pos hexp, if_neg hsign, List.cons_append] at hread ⊢
          exact stops_readDigits.map (c :: ·) h hread
    · rw [readExponent_of_ne hexp] at hread
      cases hread
      exact readExponent_of_ne hexp _

theorem stops_readMagnitude (negative : Bool) : Stops (readMagnitude negative) := by
  intro cs rest more value h hread
  simp only [readMagnitude, Option.bind_eq_bind, Option.bind_eq_some_iff] at hread
  obtain ⟨⟨whole, left⟩, hwhole, ⟨fraction, left'⟩, hfraction, ⟨exponent, left''⟩, hexponent,
    hvalue⟩ := hread
  simp only [readMagnitude, stops_readWhole h hwhole, stops_readFraction h hfraction,
    stops_readExponent h hexponent, Option.bind_eq_bind, Option.bind_some]
  split at hvalue
  · next hplain =>
    cases hvalue
    rw [if_pos hplain]
    rfl
  · next hplain =>
    cases hvalue
    rw [if_neg hplain]
    rfl

theorem readNumber_of_ne {c : Char} (h : c ≠ '-') (cs : List Char) :
    readNumber (c :: cs) = readMagnitude false (c :: cs) := by
  unfold readNumber
  split
  · next heq => exact absurd (List.cons.inj heq).1 h
  · rfl

theorem stops_readNumber : Stops readNumber := by
  intro cs rest more value h hread
  match cs, hread with
  | [], hread => cases hread
  | c :: cs, hread =>
    by_cases hminus : c = '-'
    · subst hminus
      exact stops_readMagnitude true h hread
    · rw [readNumber_of_ne hminus] at hread
      rw [List.cons_append, readNumber_of_ne hminus]
      exact stops_readMagnitude false h hread

theorem value_toDigits (n : Nat) : Decimal.value (Nat.toDigits 10 n) = n :=
  Nat.ofDigitChars_toDigits (by decide) (by decide)

theorem isDigit_of_mem_toDigits {n : Nat} {c : Char} (h : c ∈ Nat.toDigits 10 n) :
    c.isDigit = true :=
  Nat.isDigit_of_mem_toDigits (by decide) (by decide) h

theorem readDigits_toDigits (n : Nat) :
    readDigits (Nat.toDigits 10 n) = some (Nat.toDigits 10 n, []) := by
  have hspan : (Nat.toDigits 10 n).span Char.isDigit = (Nat.toDigits 10 n, []) := by
    rw [List.span_eq_takeWhile_dropWhile, List.takeWhile_eq_self_iff.2, List.dropWhile_eq_nil_iff.2]
    · intro c hc
      exact isDigit_of_mem_toDigits hc
    · intro c hc
      exact isDigit_of_mem_toDigits hc
  rw [readDigits, hspan]
  cases hdigits : Nat.toDigits 10 n with
  | nil => exact absurd hdigits Nat.toDigits_ne_nil
  | cons c cs => rfl

/-- No number but zero is written with a zero in front. -/
theorem head?_toDigits_ne {n : Nat} (h : 0 < n) : (Nat.toDigits 10 n).head? ≠ some '0' := by
  induction n using Nat.strongRecOn with
  | ind n ih =>
    by_cases hn : n < 10
    · have hall : ∀ d < 10, 0 < d → Nat.digitChar d ≠ '0' := by decide
      rw [Nat.toDigits_of_lt_base hn]
      simpa using hall n hn h
    · rw [Nat.toDigits_of_base_le (by decide) (by omega),
        List.head?_append_of_ne_nil _ Nat.toDigits_ne_nil]
      exact ih (n / 10) (by omega) (by omega)

theorem readWhole_toDigits (n : Nat) :
    readWhole (Nat.toDigits 10 n) = some (Nat.toDigits 10 n, []) := by
  by_cases hn : n = 0
  · subst hn
    rfl
  · have hhead := head?_toDigits_ne (Nat.pos_of_ne_zero hn)
    have hread := readDigits_toDigits n
    cases hdigits : Nat.toDigits 10 n with
    | nil => exact absurd hdigits Nat.toDigits_ne_nil
    | cons c cs =>
      rw [hdigits] at hhead hread
      rw [readWhole_of_ne (by simpa using hhead), hread]

theorem readMagnitude_toDigits {negative : Bool} {n : Nat} (h : negative = true → n ≠ 0) :
    readMagnitude negative (Nat.toDigits 10 n)
      = some (number (if negative then -n else n), []) := by
  have hplain : ¬ (negative ∧ n = 0) := by
    rintro ⟨hnegative, hzero⟩
    exact h hnegative hzero
  simp [readMagnitude, readWhole_toDigits, readFraction, readExponent, value_toDigits, hplain]

theorem readNumber_digits (n : Int) : readNumber (digits n) = some (number n, []) := by
  cases n with
  | ofNat n =>
    have hread := @readMagnitude_toDigits false n (by simp)
    cases hdigits : Nat.toDigits 10 n with
    | nil => exact absurd hdigits Nat.toDigits_ne_nil
    | cons c cs =>
      have hminus : c ≠ '-' := by
        rintro rfl
        have hdigit : '-'.isDigit = true :=
          isDigit_of_mem_toDigits (hdigits ▸ List.mem_cons_self : '-' ∈ Nat.toDigits 10 n)
        cases hdigit
      rw [digits, hdigits, readNumber_of_ne hminus, ← hdigits, hread]
      rfl
  | negSucc n => exact readMagnitude_toDigits (by simp)

/-! ### Texts -/

theorem unit?_of_lt {n : Nat} (h : n < 0x20) :
    unit? '0' '0' (Nat.digitChar (n / 16)) (Nat.digitChar (n % 16)) = some n := by
  have hall : ∀ n < 0x20,
      unit? '0' '0' (Nat.digitChar (n / 16)) (Nat.digitChar (n % 16)) = some n := by decide
  exact hall n h

theorem readText_control {c : Char} (h : c.toNat < 0x20) (read cs : List Char) :
    readText read none ('\\' :: 'u' :: '0' :: '0' :: Nat.digitChar (c.toNat / 16)
      :: Nat.digitChar (c.toNat % 16) :: cs) = readText (c :: read) none cs := by
  have hhigh : isHigh c.toNat = false := decide_eq_false (by omega)
  have hlow : isLow c.toNat = false := decide_eq_false (by omega)
  simp [readText, unit?_of_lt h, hhigh, hlow]

theorem readText_plain {c : Char} (hquote : c ≠ '"') (hslash : c ≠ '\\') (h : ¬ c.toNat < 0x20)
    (read cs : List Char) : readText read none (c :: cs) = readText (c :: read) none cs := by
  rw [readText]
  · simp [hquote, hslash, h]
  · intro _ _ _ _ _ heq
    exact absurd heq hslash
  · intro _ _ heq
    exact absurd heq hslash

/-- An escaped character is read as itself. -/
theorem readText_escape (c : Char) (read cs : List Char) :
    readText read none (escape c ++ cs) = readText (c :: read) none cs := by
  unfold escape
  split
  case h_8 hquote hslash _ _ _ _ _ =>
    by_cases hcontrol : c.toNat < 0x20
    · rw [if_pos hcontrol]
      exact readText_control hcontrol read cs
    · rw [if_neg hcontrol]
      exact readText_plain hquote hslash hcontrol read cs
  all_goals rfl

theorem readText_quoted (text : List Char) (cs : List Char) :
    ∀ read, readText read none (text.flatMap escape ++ '"' :: cs)
      = some (String.ofList (read.reverse ++ text), cs) := by
  induction text with
  | nil =>
    intro read
    simp [readText]
  | cons c text ih =>
    intro read
    rw [List.flatMap_cons, List.append_assoc, readText_escape, ih]
    simp

/-! ### Blanks -/

theorem skipSpace_append {blanks : List Char} (h : blanks.all isSpace = true) (cs : List Char) :
    skipSpace (blanks ++ cs) = skipSpace cs :=
  List.dropWhile_append_of_pos (List.all_eq_true.1 h)

theorem skipSpace_skipSpace (cs : List Char) : skipSpace (skipSpace cs) = skipSpace cs :=
  List.dropWhile_idempotent _ cs

theorem readValue_skipSpace (fuel : Nat) (cs : List Char) :
    readValue fuel (skipSpace cs) = readValue fuel cs := by
  cases fuel with
  | zero => rfl
  | succ fuel => simp only [readValue, skipSpace_skipSpace]

theorem readItems_skipSpace (fuel : Nat) (items : List Json) (cs : List Char) :
    readItems fuel items (skipSpace cs) = readItems fuel items cs := by
  cases fuel with
  | zero => rfl
  | succ fuel => simp only [readItems, readValue_skipSpace]

theorem readMembers_skipSpace (fuel : Nat) (members : List (String × Json)) (cs : List Char) :
    readMembers fuel members (skipSpace cs) = readMembers fuel members cs := by
  cases fuel with
  | zero => rfl
  | succ fuel => simp only [readMembers, skipSpace_skipSpace]

theorem ends_append {blanks rest : List Char} (h : blanks.all isSpace = true) (hrest : Ends rest) :
    Ends (blanks ++ rest) := by
  cases blanks with
  | nil => exact hrest
  | cons c blanks =>
    have hspace : isSpace c = true := by
      rw [List.all_cons, Bool.and_eq_true] at h
      exact h.1
    simp only [isSpace, Bool.or_eq_true, decide_eq_true_eq] at hspace
    rcases hspace with ((rfl | rfl) | rfl) | rfl
    all_goals rfl

/-! ### Values -/

/-- A value is read off the front of a text that begins with these characters. -/
def Reads (value : Json) (cs : List Char) : Prop :=
  ∀ fuel rest, 2 * cs.length + 1 ≤ fuel → Ends rest →
    readValue fuel (cs ++ rest) = some (value, rest)

/-- It is enough to look behind the first step of the reader. -/
theorem reads_of_succ {value : Json} {cs : List Char}
    (h : ∀ fuel rest, 2 * cs.length ≤ fuel → Ends rest →
      readValue (fuel + 1) (cs ++ rest) = some (value, rest)) : Reads value cs := by
  intro fuel rest hfuel hends
  cases fuel with
  | zero => exact absurd hfuel (Nat.not_succ_le_zero _)
  | succ fuel => exact h fuel rest (Nat.le_of_succ_le_succ hfuel) hends

theorem parse_of_reads {value : Json} {cs : List Char} (h : Reads value cs) :
    parse (String.ofList cs) = some value := by
  have hread := h (2 * cs.length + 2) [] (by omega) ends_nil
  rw [List.append_nil] at hread
  rw [parse, String.toList_ofList, hread]
  rfl

theorem Reads.blanks {value : Json} {blanks cs : List Char} (h : Reads value cs)
    (hblank : blanks.all isSpace = true) : Reads value (blanks ++ cs) := by
  intro fuel rest hfuel hends
  rw [List.length_append] at hfuel
  rw [List.append_assoc, ← readValue_skipSpace, skipSpace_append hblank, readValue_skipSpace]
  exact h fuel rest (by omega) hends

theorem reads_null : Reads null ['n', 'u', 'l', 'l'] :=
  reads_of_succ fun _ _ _ _ => rfl

theorem reads_bool (b : Bool) : Reads (bool b) (bool b).scalar := by
  cases b with
  | true => exact reads_of_succ fun _ _ _ _ => rfl
  | false => exact reads_of_succ fun _ _ _ _ => rfl

theorem reads_string (text : String) : Reads (string text) (quoted text) := by
  refine reads_of_succ ?_
  intro fuel rest _ _
  have htext := readText_quoted text.toList rest []
  rw [List.reverse_nil, List.nil_append, String.ofList_toList] at htext
  have hcs : quoted text ++ rest = '"' :: (text.toList.flatMap escape ++ '"' :: rest) := by
    simp [quoted]
  have hskip : skipSpace ('"' :: (text.toList.flatMap escape ++ '"' :: rest))
      = '"' :: (text.toList.flatMap escape ++ '"' :: rest) := rfl
  simp only [hcs, readValue, hskip, htext, Option.map_some]

/-- A number begins with its sign or with a digit. -/
theorem head_of_readNumber {c : Char} {cs : List Char} {read : Json × List Char}
    (h : readNumber (c :: cs) = some read) : c = '-' ∨ c.isDigit = true := by
  by_cases hminus : c = '-'
  · exact .inl hminus
  · right
    rw [readNumber_of_ne hminus] at h
    simp only [readMagnitude, Option.bind_eq_bind, Option.bind_eq_some_iff] at h
    obtain ⟨whole, hwhole, -⟩ := h
    by_cases hzero : c = '0'
    · subst hzero
      rfl
    · rw [readWhole_of_ne hzero, readDigits, List.span_eq_takeWhile_dropWhile] at hwhole
      by_contra hdigit
      simp [hdigit] at hwhole

theorem reads_of_readNumber {value : Json} {cs : List Char}
    (h : readNumber cs = some (value, [])) : Reads value cs := by
  refine reads_of_succ ?_
  intro fuel rest _ hends
  have hread := stops_readNumber hends h
  rw [List.nil_append] at hread
  cases cs with
  | nil => cases h
  | cons c cs =>
    have hhead := head_of_readNumber h
    have hne {d : Char} (hd : d ≠ '-') (hdigit : d.isDigit = false) : c ≠ d := by
      rintro rfl
      rcases hhead with hminus | htrue
      · exact hd hminus
      · rw [hdigit] at htrue
        cases htrue
    have hspace : isSpace c = false := by
      simp [isSpace, hne]
    have hskip : skipSpace (c :: (cs ++ rest)) = c :: (cs ++ rest) := by
      simp [skipSpace, hspace]
    rw [List.cons_append] at hread ⊢
    rw [readValue, hskip]
    split
    case h_7 => exact hread
    all_goals
      next heq =>
        injection heq with heq
        exact absurd heq (hne (by decide) (by decide))

/-! ### Lists -/

theorem readItems_closing (fuel : Nat) (items : List Json) (cs : List Char) :
    readItems fuel items (']' :: cs) = none := by
  cases fuel with
  | zero => rfl
  | succ fuel =>
    cases fuel with
    | zero => rfl
    | succ fuel => rfl

/-- A list that has items is read item by item. -/
theorem readValue_items {fuel : Nat} {cs : List Char} {read : Json × List Char}
    (h : readItems fuel [] cs = some read) : readValue (fuel + 1) ('[' :: cs) = some read := by
  rw [← readItems_skipSpace] at h
  have hskip : skipSpace ('[' :: cs) = '[' :: cs := rfl
  simp only [readValue, hskip]
  split
  · next heq =>
    rw [heq, readItems_closing] at h
    cases h
  · exact h

theorem intercalate_map_cons {α : Type} (text : α → List Char) (first second : α)
    (rest : List α) : [','].intercalate ((first :: second :: rest).map text)
      = text first ++ ',' :: [','].intercalate ((second :: rest).map text) := by
  simp [List.intercalate_cons_cons]

/-- Items between commas are read one after another: the comma behind an item pays for the step
to the next one. -/
theorem readItems_intercalate {text : Json → List Char} {closing : List Char}
    (hclosing : closing.all isSpace = true) (rest : List Char) :
    ∀ {items : List Json}, items ≠ [] → (∀ item ∈ items, Reads item (text item)) →
      ∀ {fuel read}, 2 * ([','].intercalate (items.map text)).length + 2 ≤ fuel →
        readItems fuel read ([','].intercalate (items.map text) ++ (closing ++ ']' :: rest))
          = some (array (read.reverse ++ items), rest) := by
  intro items
  induction items with
  | nil => intro hne; exact absurd rfl hne
  | cons item items ih =>
    intro _ h fuel read hfuel
    obtain ⟨fuel, rfl⟩ := Nat.exists_eq_add_one.2 (Nat.lt_of_lt_of_le (Nat.succ_pos _) hfuel)
    have hitem := h item List.mem_cons_self
    cases items with
    | nil =>
      have hjoin : [','].intercalate ([item].map text) = text item := by simp
      rw [hjoin] at hfuel ⊢
      have hread := hitem fuel (closing ++ ']' :: rest) (by omega) (ends_append hclosing rfl)
      have hskip : skipSpace (closing ++ ']' :: rest) = ']' :: rest :=
        (skipSpace_append hclosing _).trans rfl
      simp [readItems, hread, hskip]
    | cons next items =>
      rw [intercalate_map_cons, List.length_append, List.length_cons] at hfuel
      rw [intercalate_map_cons, List.append_assoc, List.cons_append]
      have hread := hitem fuel (',' :: ([','].intercalate ((next :: items).map text)
        ++ (closing ++ ']' :: rest))) (by omega) rfl
      have hrest := @ih (by simp) (fun other hother => h other (List.mem_cons_of_mem _ hother))
        fuel (item :: read) (by omega)
      rw [readItems, hread]
      exact hrest.trans (by simp)

theorem reads_items {items : List Json} {text : Json → List Char} {closing : List Char}
    (hne : items ≠ []) (h : ∀ item ∈ items, Reads item (text item))
    (hclosing : closing.all isSpace = true) :
    Reads (array items) ('[' :: ([','].intercalate (items.map text) ++ (closing ++ [']']))) := by
  refine reads_of_succ ?_
  intro fuel rest hfuel _
  rw [List.length_cons, List.length_append, List.length_append, List.length_singleton] at hfuel
  have hread := @readItems_intercalate text closing hclosing rest items hne h fuel [] (by omega)
  have hcs : '[' :: ([','].intercalate (items.map text) ++ (closing ++ [']'])) ++ rest
      = '[' :: ([','].intercalate (items.map text) ++ (closing ++ ']' :: rest)) := by
    simp
  rw [hcs]
  exact readValue_items hread

/-! ### Objects -/

/-- A member is written with its key in quotes, a colon and its value, behind blanks. -/
def ReadsMember (member : String × Json) (cs : List Char) : Prop :=
  ∃ blanks text, blanks.all isSpace = true ∧ cs = blanks ++ (quoted member.1 ++ ':' :: text) ∧
    Reads member.2 text

/-- A member is read off the front if its key is a new one, and then the next one or the end of
the object. -/
theorem readMembers_of_readsMember {member : String × Json} {cs : List Char}
    (h : ReadsMember member cs) {fuel : Nat} {read : List (String × Json)} {rest : List Char}
    (hfuel : 2 * cs.length + 2 ≤ fuel + 1) (hnew : ∀ other ∈ read, other.1 ≠ member.1)
    (hends : Ends rest) (left : List Char) :
    (skipSpace rest = ',' :: left →
      readMembers (fuel + 1) read (cs ++ rest) = readMembers fuel (member :: read) left) ∧
    (skipSpace rest = '}' :: left →
      readMembers (fuel + 1) read (cs ++ rest)
        = some (object (member :: read).reverse, left)) := by
  obtain ⟨blanks, text, hblanks, rfl, hread⟩ := h
  obtain ⟨key, value⟩ := member
  have hvalue := hread fuel rest (by simp at hfuel; omega) hends
  have htext := readText_quoted key.toList (':' :: (text ++ rest)) []
  rw [List.reverse_nil, List.nil_append, String.ofList_toList] at htext
  have hcs : blanks ++ (quoted key ++ ':' :: text) ++ rest
      = blanks ++ '"' :: (key.toList.flatMap escape ++ '"' :: (':' :: (text ++ rest))) := by
    simp [quoted]
  have hskip : skipSpace (blanks ++ '"' :: (key.toList.flatMap escape ++ '"' ::
        (':' :: (text ++ rest))))
      = '"' :: (key.toList.flatMap escape ++ '"' :: (':' :: (text ++ rest))) :=
    (skipSpace_append hblanks _).trans rfl
  have hcolon : skipSpace (':' :: (text ++ rest)) = ':' :: (text ++ rest) := rfl
  have hfilter : (read.filter fun other => other.1 ≠ key) = read := by
    refine List.filter_eq_self.2 ?_
    intro other hother
    exact decide_eq_true (hnew other hother)
  rw [hcs, readMembers, hskip]
  refine ⟨?_, ?_⟩
  · intro hleft
    simp only [htext, hcolon, hvalue, hfilter, hleft]
  · intro hleft
    simp only [htext, hcolon, hvalue, hfilter, hleft]

theorem readMembers_closing (fuel : Nat) (members : List (String × Json)) (cs : List Char) :
    readMembers fuel members ('}' :: cs) = none := by
  cases fuel with
  | zero => rfl
  | succ fuel => rfl

/-- An object that has members is read member by member. -/
theorem readValue_members {fuel : Nat} {cs : List Char} {read : Json × List Char}
    (h : readMembers fuel [] cs = some read) : readValue (fuel + 1) ('{' :: cs) = some read := by
  rw [← readMembers_skipSpace] at h
  have hskip : skipSpace ('{' :: cs) = '{' :: cs := rfl
  simp only [readValue, hskip]
  split
  · next heq =>
    rw [heq, readMembers_closing] at h
    cases h
  · exact h

/-- Members between commas are read one after another, and none replaces another one if no key
is given twice. -/
theorem readMembers_intercalate {text : String × Json → List Char} {closing : List Char}
    (hclosing : closing.all isSpace = true) (rest : List Char) :
    ∀ {members : List (String × Json)}, members ≠ [] →
      (∀ member ∈ members, ReadsMember member (text member)) →
      ∀ {fuel read}, 2 * ([','].intercalate (members.map text)).length + 2 ≤ fuel →
        ((read.reverse ++ members).map (·.1)).Nodup →
        readMembers fuel read ([','].intercalate (members.map text) ++ (closing ++ '}' :: rest))
          = some (object (read.reverse ++ members), rest) := by
  intro members
  induction members with
  | nil => intro hne; exact absurd rfl hne
  | cons member members ih =>
    intro _ h fuel read hfuel hkeys
    obtain ⟨fuel, rfl⟩ := Nat.exists_eq_add_one.2 (Nat.lt_of_lt_of_le (Nat.succ_pos _) hfuel)
    have hmember : ReadsMember member (text member) := h member List.mem_cons_self
    have hnew : ∀ other ∈ read, other.1 ≠ member.1 := by
      intro other hother heq
      rw [List.map_append, List.nodup_append] at hkeys
      exact hkeys.2.2 _ (List.mem_map_of_mem (List.mem_reverse.2 hother)) _ (by simp) heq
    cases members with
    | nil =>
      have hjoin : [','].intercalate ([member].map text) = text member := by simp
      rw [hjoin] at hfuel ⊢
      have hskip : skipSpace (closing ++ '}' :: rest) = '}' :: rest :=
        (skipSpace_append hclosing _).trans rfl
      have hends : Ends (closing ++ '}' :: rest) := ends_append hclosing rfl
      rw [(readMembers_of_readsMember hmember hfuel hnew hends rest).2 hskip]
      simp
    | cons next members =>
      rw [intercalate_map_cons, List.length_append, List.length_cons] at hfuel
      rw [intercalate_map_cons, List.append_assoc, List.cons_append]
      have hrest := @ih (by simp) (fun other hother => h other (List.mem_cons_of_mem _ hother))
        fuel (member :: read) (by omega) (by simpa using hkeys)
      have hends : Ends (',' :: ([','].intercalate ((next :: members).map text)
          ++ (closing ++ '}' :: rest))) := rfl
      rw [(readMembers_of_readsMember hmember (by omega) hnew hends _).1 rfl]
      exact hrest.trans (by simp)

theorem reads_members {members : List (String × Json)} {text : String × Json → List Char}
    {closing : List Char} (hne : members ≠ [])
    (h : ∀ member ∈ members, ReadsMember member (text member))
    (hkeys : (members.map (·.1)).Nodup) (hclosing : closing.all isSpace = true) :
    Reads (object members)
      ('{' :: ([','].intercalate (members.map text) ++ (closing ++ ['}']))) := by
  refine reads_of_succ ?_
  intro fuel rest hfuel _
  rw [List.length_cons, List.length_append, List.length_append, List.length_singleton] at hfuel
  have hread := @readMembers_intercalate text closing hclosing rest members hne h fuel []
    (by omega) hkeys
  have hcs : '{' :: ([','].intercalate (members.map text) ++ (closing ++ ['}'])) ++ rest
      = '{' :: ([','].intercalate (members.map text) ++ (closing ++ '}' :: rest)) := by
    simp
  rw [hcs]
  exact readValue_members hread

/-! ### Written forms -/

/-- A value that can be read back: its numbers are spelled as numbers, and no two members of
an object have the same key. -/
inductive Readable : Json → Prop
  | null : Readable null
  | bool (b : Bool) : Readable (bool b)
  | number (n : Int) : Readable (number n)
  | decimal {text : String} (h : readNumber text.toList = some (decimal text, [])) :
    Readable (decimal text)
  | string (text : String) : Readable (string text)
  | array {items : List Json} (h : ∀ item ∈ items, Readable item) : Readable (array items)
  | object {members : List (String × Json)} (hkeys : (members.map (·.1)).Nodup)
    (h : ∀ member ∈ members, Readable member.2) : Readable (object members)

theorem reads_empty_array : Reads (array []) ['[', ']'] :=
  reads_of_succ fun _ _ _ _ => rfl

theorem reads_empty_object : Reads (object []) ['{', '}'] :=
  reads_of_succ fun _ _ _ _ => rfl

theorem reads_compactChars {value : Json} (h : value.Readable) :
    Reads value value.compactChars := by
  induction h with
  | null => rw [compactChars.eq_def]; exact reads_null
  | bool b => rw [compactChars.eq_def]; exact reads_bool b
  | number n => rw [compactChars.eq_def]; exact reads_of_readNumber (readNumber_digits n)
  | decimal h => rw [compactChars.eq_def]; exact reads_of_readNumber h
  | string text => rw [compactChars.eq_def]; exact reads_string text
  | @array items _ ih =>
    rw [compactChars]
    by_cases hne : items = []
    · subst hne
      exact reads_empty_array
    · exact @reads_items items compactChars [] hne ih rfl
  | @object members hkeys _ ih =>
    rw [compactChars]
    by_cases hne : members = []
    · subst hne
      exact reads_empty_object
    · refine @reads_members members _ [] hne ?_ hkeys rfl
      intro member hmember
      exact ⟨[], _, rfl, rfl, ih member hmember⟩

theorem all_isSpace_newline (indent : Nat) : (newline indent).all isSpace = true := by
  simp [newline, isSpace]

theorem layout_of_ne {entries : List (List Char)} (h : entries ≠ []) (opening closing : Char)
    (indent : Nat) : layout opening closing indent entries
      = opening :: ([','].intercalate (entries.map fun entry => newline (indent + 2) ++ entry)
        ++ (newline indent ++ [closing])) := by
  cases entries with
  | nil => exact absurd rfl h
  | cons entry entries => simp [layout]

theorem reads_prettyChars {value : Json} (h : value.Readable) :
    ∀ indent, Reads value (value.prettyChars indent) := by
  induction h with
  | null => intro indent; rw [prettyChars.eq_def]; exact reads_null
  | bool b => intro indent; rw [prettyChars.eq_def]; exact reads_bool b
  | number n =>
    intro indent
    rw [prettyChars.eq_def]
    exact reads_of_readNumber (readNumber_digits n)
  | decimal h => intro indent; rw [prettyChars.eq_def]; exact reads_of_readNumber h
  | string text => intro indent; rw [prettyChars.eq_def]; exact reads_string text
  | @array items _ ih =>
    intro indent
    rw [prettyChars]
    by_cases hne : items = []
    · subst hne
      exact reads_empty_array
    · rw [layout_of_ne (by simpa using hne), List.map_map]
      refine reads_items hne ?_ (all_isSpace_newline indent)
      intro item hitem
      exact (ih item hitem (indent + 2)).blanks (all_isSpace_newline (indent + 2))
  | @object members hkeys _ ih =>
    intro indent
    rw [prettyChars]
    by_cases hne : members = []
    · subst hne
      exact reads_empty_object
    · rw [layout_of_ne (by simpa using hne), List.map_map]
      refine reads_members hne ?_ hkeys (all_isSpace_newline indent)
      intro member hmember
      refine ⟨newline (indent + 2), ' ' :: member.2.prettyChars (indent + 2),
        all_isSpace_newline _, rfl, ?_⟩
      exact @Reads.blanks _ [' '] _ (ih member hmember (indent + 2)) rfl

/-- **What is written compactly is read back.** -/
theorem parse_compact {value : Json} (h : value.Readable) : parse value.compact = some value :=
  parse_of_reads (reads_compactChars h)

/-- **What is written over several lines is read back.** -/
theorem parse_pretty {value : Json} (h : value.Readable) : parse value.pretty = some value :=
  parse_of_reads (reads_prettyChars h 0)

end Json

end EvmSafety
