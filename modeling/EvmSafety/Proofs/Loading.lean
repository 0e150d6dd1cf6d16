/-
What a text writes.

A program comes in as text.  `Writes` says which bytes a text stands for without saying how it
is read: blanks in front, at most one mark, and then two digits for each byte, of either case,
with blanks anywhere.  Cleaning and reading a text find exactly these bytes, so what a load
does is settled by them: they are taken if they fit, and a text that writes none is refused.

Cleaning works from both ends and only then looks for the mark, which is why the two do not
agree by definition: a mark behind the first digit, or one split by a blank, is no mark, and
then its letter is no digit either.
-/
import EvmSafety.Buffer
import Mathlib.Data.List.DropRight

namespace EvmSafety

/-! ### Digits -/

namespace Hex

/-- The character is the digit of a value below sixteen, of either case. -/
def IsDigit (c : Char) (n : Nat) : Prop :=
  n < 16 ∧ (c = Nat.digitChar n ∨ c = (Nat.digitChar n).toUpper)

instance (c : Char) (n : Nat) : Decidable (IsDigit c n) :=
  inferInstanceAs (Decidable (_ ∧ _))

/-- The digits spell the bytes: two for each, the high half first. -/
inductive Spells : List Char → List UInt8 → Prop
  | nil : Spells [] []
  | cons {high low : Char} {h l : Nat} {digits : List Char} {bytes : List UInt8} :
      IsDigit high h → IsDigit low l → Spells digits bytes →
      Spells (high :: low :: digits) (UInt8.ofNat (16 * h + l) :: bytes)

theorem value?_of_isDigit {c : Char} {n : Nat} (h : IsDigit c n) : value? c = some n := by
  have hall : ∀ n < 16, value? (Nat.digitChar n) = some n
      ∧ value? (Nat.digitChar n).toUpper = some n := by decide
  obtain ⟨hn, rfl | rfl⟩ := h
  · exact (hall n hn).1
  · exact (hall n hn).2

theorem isDigit_of_value? {c : Char} {n : Nat} (h : value? c = some n) : IsDigit c n := by
  have hall : ∀ k < 103, ∀ n ∈ value? (Char.ofNat k), IsDigit (Char.ofNat k) n := by decide
  -- The last digit is `f`, so a character that has a value is one of the first 103.
  have hk : c.toNat < 103 := by
    by_contra hge
    have hgt : 'f' < c := by
      show 102 < c.toNat
      omega
    have hf : ¬ c ≤ 'f' := Char.not_le.mpr hgt
    have h9 : ¬ c ≤ '9' := fun hle => hf (Char.le_trans hle (by decide))
    have hF : ¬ c ≤ 'F' := fun hle => hf (Char.le_trans hle (by decide))
    simp [value?, hf, h9, hF] at h
  have hc := hall c.toNat hk n
  rw [Char.ofNat_toNat] at hc
  exact hc h

theorem readPairs_of_spells {digits : List Char} {bytes : List UInt8}
    (h : Spells digits bytes) (read : Array UInt8) :
    readPairs read digits = some (read ++ bytes.toArray) := by
  induction h generalizing read with
  | nil => simp [readPairs]
  | cons hhigh hlow _ ih =>
    simp only [readPairs, value?_of_isDigit hhigh, value?_of_isDigit hlow, ih]
    simp

theorem spells_of_readPairs {read bytes : Array UInt8} {digits : List Char}
    (h : readPairs read digits = some bytes) :
    ∃ more, Spells digits more ∧ bytes = read ++ more.toArray := by
  induction read, digits using readPairs.induct with
  | case1 read =>
    simp only [readPairs, Option.some.injEq] at h
    exact ⟨[], .nil, by simp [h]⟩
  | case2 => simp [readPairs] at h
  | case3 read high low rest n m hlow hhigh ih =>
    simp only [readPairs, hhigh, hlow] at h
    obtain ⟨more, hmore, rfl⟩ := ih h
    exact ⟨_ :: more, .cons (isDigit_of_value? hhigh) (isDigit_of_value? hlow) hmore, by simp⟩
  | case4 => simp [readPairs] at h

/-- Reading digits finds the bytes that they spell, and fails on any other text. -/
theorem toBytes?_eq_some_iff {digits : List Char} {bytes : Array UInt8} :
    toBytes? digits = some bytes ↔ Spells digits bytes.toList := by
  constructor
  · intro h
    obtain ⟨more, hmore, rfl⟩ := spells_of_readPairs h
    simpa using hmore
  · intro h
    simpa [toBytes?] using readPairs_of_spells h #[]

/-- Two digits for the halves of a byte spell the byte. -/
theorem Spells.cons_byte {high low : Char} {byte : UInt8} {digits : List Char}
    {bytes : List UInt8} (hhigh : IsDigit high (byte.toNat / 16))
    (hlow : IsDigit low (byte.toNat % 16)) (hrest : Spells digits bytes) :
    Spells (high :: low :: digits) (byte :: bytes) := by
  have hbyte : UInt8.ofNat (16 * (byte.toNat / 16) + byte.toNat % 16) = byte := by
    rw [Nat.div_add_mod, UInt8.ofNat_toNat]
  have hspells := Spells.cons hhigh hlow hrest
  rwa [hbyte] at hspells

theorem high_lt (byte : UInt8) : byte.toNat / 16 < 16 :=
  Nat.div_lt_of_lt_mul byte.toNat_lt

theorem low_lt (byte : UInt8) : byte.toNat % 16 < 16 :=
  Nat.mod_lt _ (by decide)

/-- What is written for bytes spells them. -/
theorem spells_ofBytes (bytes : List UInt8) : Spells (ofBytes bytes) bytes := by
  induction bytes with
  | nil => exact .nil
  | cons byte rest ih =>
    exact .cons_byte ⟨high_lt byte, .inl rfl⟩ ⟨low_lt byte, .inl rfl⟩ ih

theorem toBytes?_ofBytes (bytes : List UInt8) : toBytes? (ofBytes bytes) = some bytes.toArray :=
  toBytes?_eq_some_iff.2 (spells_ofBytes bytes)

end Hex

/-! ### Trimming -/

namespace Text

theorem trim_eq (cs : List Char) : trim cs = (cs.dropWhile isBlank).rdropWhile isBlank :=
  rfl

theorem rdropWhile_cons {p : Char → Bool} {c : Char} (hc : p c = false) (cs : List Char) :
    (c :: cs).rdropWhile p = c :: cs.rdropWhile p := by
  simp only [List.rdropWhile, List.reverse_cons, List.dropWhile_append]
  by_cases h : (cs.reverse.dropWhile p).isEmpty
  · have hnil : cs.reverse.dropWhile p = [] := List.isEmpty_iff.mp h
    simp [hnil, hc]
  · simp [h]

/-- In front of a character that is not blank there is nothing to drop. -/
theorem trim_cons {c : Char} (hc : isBlank c = false) (cs : List Char) :
    trim (c :: cs) = c :: cs.rdropWhile isBlank := by
  rw [trim_eq, List.dropWhile_cons_of_neg (by simp [hc]), rdropWhile_cons hc]

theorem trim_append {lead : List Char} (h : ∀ c ∈ lead, isBlank c) (cs : List Char) :
    trim (lead ++ cs) = trim cs := by
  rw [trim_eq, trim_eq, List.dropWhile_append_of_pos h]

/-- Trimming drops blanks at the two ends and nothing else. -/
theorem exists_trim (cs : List Char) :
    ∃ lead trail, cs = lead ++ trim cs ++ trail ∧ (∀ c ∈ lead, isBlank c)
      ∧ ∀ c ∈ trail, isBlank c := by
  refine ⟨cs.takeWhile isBlank, (cs.dropWhile isBlank).rtakeWhile isBlank, ?_,
    fun c hc => List.mem_takeWhile_imp hc, fun c hc => List.mem_rtakeWhile_imp hc⟩
  rw [trim_eq, List.append_assoc, List.rdropWhile_append_rtakeWhile,
    List.takeWhile_append_dropWhile]

@[simp]
theorem trim_trim (cs : List Char) : trim (trim cs) = trim cs := by
  rw [trim_eq cs]
  cases h : cs.dropWhile isBlank with
  | nil => rfl
  | cons c rest =>
    have hc : isBlank c = false := by
      have := List.head_dropWhile_not isBlank (l := cs) (by simp [h])
      simpa [h] using this
    rw [rdropWhile_cons hc, trim_cons hc, List.rdropWhile_idempotent]

end Text

/-! ### What a text writes -/

namespace Buffer

/-- The characters other than blanks. -/
def solid (cs : List Char) : List Char :=
  cs.filter fun c => !Text.isBlank c

/-- The marks that may stand in front of the digits; there may be none. -/
def marks : List (List Char) :=
  [[], ['0', 'x'], ['0', 'X']]

/-- The text writes the bytes: blanks, a mark or none, and the digits of the bytes with blanks
anywhere among and behind them. -/
def Writes (text : List Char) (bytes : List UInt8) : Prop :=
  ∃ lead mark body, text = lead ++ mark ++ body ∧ (∀ c ∈ lead, Text.isBlank c)
    ∧ mark ∈ marks ∧ Hex.Spells (solid body) bytes

theorem solid_append (cs ds : List Char) : solid (cs ++ ds) = solid cs ++ solid ds :=
  List.filter_append ..

theorem solid_of_blank {cs : List Char} (h : ∀ c ∈ cs, Text.isBlank c) : solid cs = [] := by
  simpa [solid] using h

theorem solid_trim (cs : List Char) : solid (Text.trim cs) = solid cs := by
  obtain ⟨lead, trail, heq, hlead, htrail⟩ := Text.exists_trim cs
  have h := congrArg solid heq
  rw [solid_append, solid_append, solid_of_blank hlead, solid_of_blank htrail] at h
  simpa using h.symm

theorem solid_rdropWhile (cs : List Char) : solid (cs.rdropWhile Text.isBlank) = solid cs := by
  have h := congrArg solid (List.rdropWhile_append_rtakeWhile (p := Text.isBlank) (l := cs))
  rw [solid_append, solid_of_blank fun c hc => List.mem_rtakeWhile_imp hc] at h
  simpa using h

theorem exists_mark (cs : List Char) : ∃ mark ∈ marks, cs = mark ++ stripMark cs := by
  unfold stripMark
  split
  · exact ⟨['0', 'x'], by simp [marks], rfl⟩
  · exact ⟨['0', 'X'], by simp [marks], rfl⟩
  · exact ⟨[], by simp [marks], rfl⟩

/-- The letter of a mark is no digit, so what is all digits bears no mark. -/
theorem stripMark_of_spells {cs : List Char} {bytes : List UInt8}
    (h : Hex.Spells (solid cs) bytes) : stripMark cs = cs := by
  have hx : ∀ n < 16, ¬ Hex.IsDigit 'x' n := by decide
  have hX : ∀ n < 16, ¬ Hex.IsDigit 'X' n := by decide
  unfold stripMark
  split
  · cases h with
    | cons _ hlow _ => exact absurd hlow (hx _ hlow.1)
  · cases h with
    | cons _ hlow _ => exact absurd hlow (hX _ hlow.1)
  · rfl

theorem writes_of_spells_clean {text : List Char} {bytes : List UInt8}
    (h : Hex.Spells (clean text) bytes) : Writes text bytes := by
  obtain ⟨lead, trail, heq, hlead, htrail⟩ := Text.exists_trim text
  obtain ⟨mark, hmark, hstrip⟩ := exists_mark (Text.trim text)
  refine ⟨lead, mark, stripMark (Text.trim text) ++ trail, ?_, hlead, hmark, ?_⟩
  · rw [hstrip] at heq
    simpa using heq
  · rw [solid_append, solid_of_blank htrail, List.append_nil]
    exact h

theorem spells_clean_of_writes {text : List Char} {bytes : List UInt8}
    (h : Writes text bytes) : Hex.Spells (clean text) bytes := by
  obtain ⟨lead, mark, body, rfl, hlead, hmark, hbody⟩ := h
  show Hex.Spells (solid (stripMark (Text.trim (lead ++ mark ++ body)))) bytes
  rw [List.append_assoc, Text.trim_append hlead]
  -- Behind a mark the body is trimmed at its end only.
  have hmarked : ∀ x, Text.isBlank x = false → (∀ cs, stripMark ('0' :: x :: cs) = cs) →
      Hex.Spells (solid (stripMark (Text.trim ('0' :: x :: body)))) bytes := by
    intro x hx hstrip
    rw [Text.trim_cons (by decide), Text.rdropWhile_cons hx, hstrip, solid_rdropWhile]
    exact hbody
  simp only [marks, List.mem_cons, List.not_mem_nil, or_false] at hmark
  obtain rfl | rfl | rfl := hmark
  · have htrim : Hex.Spells (solid (Text.trim body)) bytes := by rwa [solid_trim]
    rw [List.nil_append, stripMark_of_spells htrim]
    exact htrim
  · exact hmarked 'x' (by decide) fun _ => rfl
  · exact hmarked 'X' (by decide) fun _ => rfl

/-- Cleaning a text and reading its digits finds the bytes that it writes. -/
theorem toBytes?_clean_eq_some_iff {text : List Char} {bytes : Array UInt8} :
    Hex.toBytes? (clean text) = some bytes ↔ Writes text bytes.toList :=
  Hex.toBytes?_eq_some_iff.trans ⟨writes_of_spells_clean, spells_clean_of_writes⟩

/-- A text writes one run of bytes at most. -/
theorem Writes.unique {text : List Char} {bytes bytes' : Array UInt8}
    (h : Writes text bytes.toList) (h' : Writes text bytes'.toList) : bytes = bytes' := by
  rw [← toBytes?_clean_eq_some_iff] at h h'
  exact Option.some.inj (h.symm.trans h')

/-- Trimming a text first makes no difference. -/
theorem clean_trim (text : List Char) : clean (Text.trim text) = clean text := by
  rw [clean, clean, Text.trim_trim]

example : Writes " 0x60 0\t1".toList [0x60, 0x01] :=
  ⟨[' '], ['0', 'x'], "60 0\t1".toList, rfl, List.forall_mem_singleton.mpr (by decide),
    by simp [marks],
    .cons (h := 6) (l := 0) (by decide) (by decide)
      (.cons (h := 0) (l := 1) (by decide) (by decide) .nil)⟩

/-! ### Loading -/

theorem load_of_writes {text : String} {bytes : Array UInt8} (buffer : Buffer)
    (h : Writes text.toList bytes.toList) : load text buffer = take bytes buffer := by
  simp only [load, toBytes?_clean_eq_some_iff.mpr h]

theorem load_of_not_writes {text : String} (buffer : Buffer)
    (h : ∀ bytes : Array UInt8, ¬ Writes text.toList bytes.toList) :
    load text buffer
      = .error (.notHex (String.ofList (Text.excerpt (clean text.toList) 40))) buffer := by
  have hnone : Hex.toBytes? (clean text.toList) = none := by
    rw [Option.eq_none_iff_forall_ne_some]
    intro bytes hbytes
    exact h bytes (toBytes?_clean_eq_some_iff.mp hbytes)
  simp only [load, hnone]
  rfl

theorem load_trimmed (text : String) : load (Text.trimmed text) = load text := by
  simp only [load, Text.trimmed, String.toList_ofList, clean_trim]

end Buffer

end EvmSafety
