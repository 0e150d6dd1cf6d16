/-
One program or the next.

A load replaces the program or changes nothing, and what the text writes settles which.  The
ends of a load are listed once, as a family: the program is taken, it is too large, or the
text writes none.  All that a load promises is read off from the three.

Over many loads the buffer therefore holds one program as a whole at any time: that of the last
load that found one which fits, or the one it began with.  Digits may be of either case, so
what a load takes in is also told by what is written for the bytes: the text without its blanks
is that, once its letters are small.
-/
import EvmSafety.Proofs.Loading

namespace EvmSafety

/-! ### Either case -/

namespace Hex

theorem isDigit_of_toLower {c : Char} {n : Nat} (hn : n < 16)
    (h : c.toLower = Nat.digitChar n) : IsDigit c n := by
  have hall : ∀ k < 128, ∀ n < 16, (Char.ofNat k).toLower = Nat.digitChar n →
      IsDigit (Char.ofNat k) n := by decide +kernel
  by_cases hk : c.toNat < 128
  · have hc := hall c.toNat hk n hn
    rw [Char.ofNat_toNat] at hc
    exact hc h
  · -- Only the capitals `A` to `Z` are changed, so this character is the digit itself.
    have hnot : ¬ c ≤ 'Z' := fun hle => hk (by
      have : c.toNat ≤ 90 := hle
      omega)
    have hsame : c.toLower = c := by
      unfold Char.toLower
      rw [dif_neg fun hcap => hnot hcap.2]
    exact ⟨hn, .inl (hsame.symm.trans h)⟩

theorem toLower_of_isDigit {c : Char} {n : Nat} (h : IsDigit c n) :
    c.toLower = Nat.digitChar n := by
  have hall : ∀ n < 16, (Nat.digitChar n).toLower = Nat.digitChar n
      ∧ (Nat.digitChar n).toUpper.toLower = Nat.digitChar n := by decide
  obtain ⟨hn, rfl | rfl⟩ := h
  · exact (hall n hn).1
  · exact (hall n hn).2

theorem ofBytes_cons (byte : UInt8) (bytes : List UInt8) :
    ofBytes (byte :: bytes)
      = Nat.digitChar (byte.toNat / 16) :: Nat.digitChar (byte.toNat % 16) :: ofBytes bytes :=
  rfl

/-- A text spells bytes when, with its letters small, it is what is written for them. -/
theorem spells_iff {digits : List Char} {bytes : List UInt8} :
    Spells digits bytes ↔ digits.map Char.toLower = ofBytes bytes := by
  constructor
  · intro h
    induction h with
    | nil => rfl
    | @cons high low h l digits bytes hhigh hlow _ ih =>
      have hh := hhigh.1
      have hl := hlow.1
      have hdiv : (UInt8.ofNat (16 * h + l)).toNat / 16 = h := by
        rw [UInt8.toNat_ofNat']
        omega
      have hmod : (UInt8.ofNat (16 * h + l)).toNat % 16 = l := by
        rw [UInt8.toNat_ofNat']
        omega
      rw [ofBytes_cons, hdiv, hmod, List.map_cons, List.map_cons, toLower_of_isDigit hhigh,
        toLower_of_isDigit hlow, ih]
  · intro h
    induction bytes generalizing digits with
    | nil =>
      rw [List.map_eq_nil_iff.mp h]
      exact .nil
    | cons byte rest ih =>
      obtain ⟨high, digits, rfl, hhigh, h⟩ := List.map_eq_cons_iff.mp h
      obtain ⟨low, digits, rfl, hlow, h⟩ := List.map_eq_cons_iff.mp h
      exact .cons_byte (isDigit_of_toLower (high_lt byte) hhigh)
        (isDigit_of_toLower (low_lt byte) hlow) (ih h)

end Hex

namespace Buffer

/-! ### The ends of a load -/

/-- Trimmed, a text that writes bytes is a mark or none and then the digits of the bytes, with
blanks anywhere. -/
theorem writes_iff_trim {text : List Char} {bytes : List UInt8} :
    Writes text bytes ↔
      ∃ mark ∈ marks, ∃ body, Text.trim text = mark ++ body ∧ Hex.Spells (solid body) bytes := by
  constructor
  · intro h
    obtain ⟨mark, hmark, hstrip⟩ := exists_mark (Text.trim text)
    exact ⟨mark, hmark, _, hstrip, spells_clean_of_writes h⟩
  · rintro ⟨mark, hmark, body, htrim, hbody⟩
    obtain ⟨lead, trail, heq, hlead, htrail⟩ := Text.exists_trim text
    refine ⟨lead, mark, body ++ trail, ?_, hlead, hmark, ?_⟩
    · rw [heq, htrim]
      simp
    · rw [solid_append, solid_of_blank htrail, List.append_nil]
      exact hbody

/-- How the load of a text can end. -/
inductive Loaded (text : String) (buffer : Buffer) :
    EStateM.Result Unloadable Buffer Unit → Prop
  /-- The text writes a program that fits, and the buffer holds it. -/
  | taken (bytes : Array UInt8) :
      Writes text.toList bytes.toList → bytes.size ≤ buffer.limit →
      Loaded text buffer (.ok () { buffer with bytes })
  /-- It writes a program that does not fit. -/
  | tooLarge (bytes : Array UInt8) :
      Writes text.toList bytes.toList → buffer.limit < bytes.size →
      Loaded text buffer (.error (.tooLarge bytes.size buffer.limit) buffer)
  /-- It writes no program, and what it was cleaned to is quoted. -/
  | notHex (quoted : String) :
      (∀ bytes : Array UInt8, ¬ Writes text.toList bytes.toList) →
      quoted = String.ofList (Text.excerpt (clean text.toList) 40) →
      Loaded text buffer (.error (.notHex quoted) buffer)

theorem take_of_le {bytes : Array UInt8} {buffer : Buffer} (h : bytes.size ≤ buffer.limit) :
    take bytes buffer = .ok () { buffer with bytes } := by
  rw [take, if_pos h]

theorem take_of_lt {bytes : Array UInt8} {buffer : Buffer} (h : buffer.limit < bytes.size) :
    take bytes buffer = .error (.tooLarge bytes.size buffer.limit) buffer := by
  rw [take, if_neg (Nat.not_le.mpr h)]

theorem loaded (text : String) (buffer : Buffer) : Loaded text buffer (load text buffer) := by
  by_cases h : ∃ bytes : Array UInt8, Writes text.toList bytes.toList
  · obtain ⟨bytes, hwrites⟩ := h
    rw [load_of_writes buffer hwrites]
    rcases Nat.lt_or_ge buffer.limit bytes.size with hlarge | hfits
    · rw [take_of_lt hlarge]
      exact .tooLarge bytes hwrites hlarge
    · rw [take_of_le hfits]
      exact .taken bytes hwrites hfits
  · have hno : ∀ bytes : Array UInt8, ¬ Writes text.toList bytes.toList :=
      fun bytes hwrites => h ⟨bytes, hwrites⟩
    rw [load_of_not_writes buffer hno]
    exact .notHex _ hno rfl

theorem load_eq_ok_iff {text : String} {buffer after : Buffer} :
    load text buffer = .ok () after ↔
      ∃ bytes : Array UInt8, Writes text.toList bytes.toList ∧ bytes.size ≤ buffer.limit
        ∧ after = { buffer with bytes } := by
  constructor
  · intro h
    have hloaded := loaded text buffer
    rw [h] at hloaded
    cases hloaded with
    | taken bytes hwrites hfits => exact ⟨bytes, hwrites, hfits, rfl⟩
  · rintro ⟨bytes, hwrites, hfits, rfl⟩
    rw [load_of_writes buffer hwrites, take_of_le hfits]

theorem load_eq_tooLarge_iff {text : String} {buffer after : Buffer} {size limit : Nat} :
    load text buffer = .error (.tooLarge size limit) after ↔
      (∃ bytes : Array UInt8, Writes text.toList bytes.toList ∧ buffer.limit < bytes.size
        ∧ size = bytes.size) ∧ limit = buffer.limit ∧ after = buffer := by
  constructor
  · intro h
    have hloaded := loaded text buffer
    rw [h] at hloaded
    cases hloaded with
    | tooLarge bytes hwrites hlarge => exact ⟨⟨bytes, hwrites, hlarge, rfl⟩, rfl, rfl⟩
  · rintro ⟨⟨bytes, hwrites, hlarge, rfl⟩, rfl, rfl⟩
    rw [load_of_writes after hwrites, take_of_lt hlarge]

theorem load_eq_notHex_iff {text quoted : String} {buffer after : Buffer} :
    load text buffer = .error (.notHex quoted) after ↔
      (∀ bytes : Array UInt8, ¬ Writes text.toList bytes.toList)
        ∧ quoted = String.ofList (Text.excerpt (clean text.toList) 40) ∧ after = buffer := by
  constructor
  · intro h
    have hloaded := loaded text buffer
    rw [h] at hloaded
    cases hloaded with
    | notHex _ hno hquoted => exact ⟨hno, hquoted, rfl⟩
  · rintro ⟨hno, rfl, rfl⟩
    exact load_of_not_writes after hno

/-- A text that writes nothing at all writes the empty program, which is loaded as such. -/
theorem load_ne_empty (text : String) (buffer after : Buffer) :
    load text buffer ≠ .error .empty after := by
  intro h
  have hloaded := loaded text buffer
  rw [h] at hloaded
  cases hloaded

/-! ### Many loads -/

/-- What a buffer is asked to take: a text, or the bytes themselves. -/
inductive Offer
  | written (text : String)
  | raw (bytes : Array UInt8)

/-- Take what is offered. -/
def accept : Offer → EStateM Unloadable Buffer Unit
  | .written text => load text
  | .raw bytes => take bytes

/-- The offer is of a program within the limit. -/
def Offer.Fits (limit : Nat) (bytes : Array UInt8) : Offer → Prop
  | .written text => Writes text.toList bytes.toList ∧ bytes.size ≤ limit
  | .raw offered => bytes = offered ∧ bytes.size ≤ limit

/-- The buffer as it is afterwards, whether it took the program or not. -/
def left : EStateM.Result Unloadable Buffer Unit → Buffer
  | .ok _ after => after
  | .error _ after => after

/-- The buffer after offers made one after the other, whatever became of each. -/
def afterAll : List Offer → Buffer → Buffer
  | [], buffer => buffer
  | offer :: later, buffer => afterAll later (left (accept offer buffer))

/-- What is held after offers: the last program that fits, or, when none does, what was held
before. -/
inductive Holds (limit : Nat) (held : Array UInt8) (offers : List Offer) :
    Array UInt8 → Prop
  | last {earlier later : List Offer} {offer : Offer} {bytes : Array UInt8} :
      offers = earlier ++ offer :: later → offer.Fits limit bytes →
      (∀ other ∈ later, ∀ bytes, ¬ other.Fits limit bytes) → Holds limit held offers bytes
  | none : (∀ offer ∈ offers, ∀ bytes, ¬ offer.Fits limit bytes) → Holds limit held offers held

/-- An offer that fits is taken, and any other leaves the buffer alone. -/
theorem accept_cases (offer : Offer) (buffer : Buffer) :
    (∃ bytes, offer.Fits buffer.limit bytes ∧ accept offer buffer = .ok () { buffer with bytes })
      ∨ (∀ bytes, ¬ offer.Fits buffer.limit bytes)
        ∧ ∃ why, accept offer buffer = .error why buffer := by
  cases offer with
  | written text =>
    have hloaded := loaded text buffer
    simp only [accept]
    generalize load text buffer = result at hloaded ⊢
    cases hloaded with
    | taken bytes hwrites hfits => exact .inl ⟨bytes, ⟨hwrites, hfits⟩, rfl⟩
    | tooLarge bytes hwrites hlarge =>
      refine .inr ⟨fun bytes' hfits => ?_, _, rfl⟩
      rw [hwrites.unique hfits.1] at hlarge
      exact Nat.not_le.mpr hlarge hfits.2
    | notHex _ hno _ => exact .inr ⟨fun bytes hfits => hno bytes hfits.1, _, rfl⟩
  | raw bytes =>
    rcases Nat.lt_or_ge buffer.limit bytes.size with hlarge | hfits
    · refine .inr ⟨?_, _, take_of_lt hlarge⟩
      rintro _ ⟨rfl, hfits⟩
      exact Nat.not_le.mpr hlarge hfits
    · exact .inl ⟨bytes, ⟨rfl, hfits⟩, take_of_le hfits⟩

theorem eq_of_accept_eq_error {offer : Offer} {buffer after : Buffer} {why : Unloadable}
    (h : accept offer buffer = .error why after) : after = buffer := by
  obtain ⟨bytes, -, hok⟩ | ⟨-, why', herror⟩ := accept_cases offer buffer
  · rw [hok] at h
    cases h
  · rw [herror] at h
    cases h
    rfl

section Holds

variable {limit : Nat} {held bytes bytes' : Array UInt8} {offer : Offer} {later : List Offer}

theorem Holds.cons_of_fits (hfits : offer.Fits limit bytes)
    (h : Holds limit bytes later bytes') : Holds limit held (offer :: later) bytes' := by
  cases h with
  | last heq hlast hlater =>
    rw [heq]
    exact .last (List.cons_append ..).symm hlast hlater
  | none hlater => exact .last (List.nil_append _).symm hfits hlater

theorem Holds.cons_of_not_fits (hno : ∀ bytes, ¬ offer.Fits limit bytes)
    (h : Holds limit held later bytes') : Holds limit held (offer :: later) bytes' := by
  cases h with
  | last heq hlast hlater =>
    rw [heq]
    exact .last (List.cons_append ..).symm hlast hlater
  | none hlater => exact .none (List.forall_mem_cons.mpr ⟨hno, hlater⟩)

end Holds

/-- The step carried over the offers: the limit stays, and what is held is the last program
that fits. -/
theorem afterAll_holds (offers : List Offer) (buffer : Buffer) :
    (afterAll offers buffer).limit = buffer.limit
      ∧ Holds buffer.limit buffer.bytes offers (afterAll offers buffer).bytes := by
  induction offers generalizing buffer with
  | nil => exact ⟨rfl, .none (by simp)⟩
  | cons offer later ih =>
    rw [afterAll]
    obtain ⟨bytes, hfits, hok⟩ | ⟨hno, why, herror⟩ := accept_cases offer buffer
    · rw [hok]
      obtain ⟨hlimit, hholds⟩ := ih { buffer with bytes }
      exact ⟨hlimit, hholds.cons_of_fits hfits⟩
    · rw [herror]
      obtain ⟨hlimit, hholds⟩ := ih buffer
      exact ⟨hlimit, hholds.cons_of_not_fits hno⟩

/-! ### What a load promises -/

/-- A load takes exactly what a text writes, and takes it as a whole or not at all. -/
structure LoadsExactly (buffer : Buffer) : Prop where
  /-- Trimmed, a text that writes bytes is a mark or none and then their digits, with blanks
  anywhere. -/
  grammar : ∀ (text : List Char) (bytes : List UInt8),
    Writes text bytes ↔
      ∃ mark ∈ marks, ∃ body, Text.trim text = mark ++ body ∧ Hex.Spells (solid body) bytes
  /-- A load succeeds when the text writes a program that fits, and then that is what the
  buffer holds. -/
  taken : ∀ (text : String) (after : Buffer),
    load text buffer = .ok () after ↔
      ∃ bytes : Array UInt8, Writes text.toList bytes.toList ∧ bytes.size ≤ buffer.limit
        ∧ after = { buffer with bytes }
  /-- It is refused for its size when nothing but the size is amiss. -/
  tooLarge : ∀ (text : String) (size limit : Nat) (after : Buffer),
    load text buffer = .error (.tooLarge size limit) after ↔
      (∃ bytes : Array UInt8, Writes text.toList bytes.toList ∧ buffer.limit < bytes.size
        ∧ size = bytes.size) ∧ limit = buffer.limit ∧ after = buffer
  /-- It is refused as a text when it writes no program, and quoted as it was cleaned. -/
  notHex : ∀ (text quoted : String) (after : Buffer),
    load text buffer = .error (.notHex quoted) after ↔
      (∀ bytes : Array UInt8, ¬ Writes text.toList bytes.toList)
        ∧ quoted = String.ofList (Text.excerpt (clean text.toList) 40) ∧ after = buffer
  /-- There is no third reason. -/
  notEmpty : ∀ (text : String) (after : Buffer), load text buffer ≠ .error .empty after
  /-- What is written for bytes that fit gives them back, in either case, marked or not, with
  blanks anywhere. -/
  encoded : ∀ (lead mark body : List Char) (bytes : Array UInt8),
    (∀ c ∈ lead, Text.isBlank c) → mark ∈ marks →
    (solid body).map Char.toLower = Hex.ofBytes bytes.toList → bytes.size ≤ buffer.limit →
    load (String.ofList (lead ++ mark ++ body)) buffer = .ok () { buffer with bytes }
  /-- What fails leaves the buffer as it was. -/
  atomic : ∀ (offer : Offer) (why : Unloadable) (after : Buffer),
    accept offer buffer = .error why after → after = buffer
  /-- Over any offers the limit stays and the last program that fits is held. -/
  kept : ∀ offers : List Offer, (afterAll offers buffer).limit = buffer.limit
    ∧ Holds buffer.limit buffer.bytes offers (afterAll offers buffer).bytes

theorem loadsExactly (buffer : Buffer) : buffer.LoadsExactly where
  grammar _ _ := writes_iff_trim
  taken _ _ := load_eq_ok_iff
  tooLarge _ _ _ _ := load_eq_tooLarge_iff
  notHex _ _ _ := load_eq_notHex_iff
  notEmpty text after := load_ne_empty text buffer after
  encoded lead mark body bytes hlead hmark hbody hfits := by
    have hwrites : Writes (lead ++ mark ++ body) bytes.toList :=
      ⟨lead, mark, body, rfl, hlead, hmark, Hex.spells_iff.mpr hbody⟩
    rw [load_of_writes buffer (by simpa using hwrites), take_of_le hfits]
  atomic _ _ _ := eq_of_accept_eq_error
  kept offers := afterAll_holds offers buffer

-- A mark that a blank splits is no mark, and of two marks the second is none.
example : load "0 x60" {} = .error (.notHex "0x60") {}
    ∧ load " 0x0x60" {} = .error (.notHex "0x60") {} := by
  constructor <;> rfl

end Buffer

end EvmSafety
