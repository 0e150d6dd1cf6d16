/-
What a jump is told.

A destination starts as bytes of the code and ends as an offset.  On the way it is a number of
up to 32 bytes, a word of 256 bits and an offset, or a signed number of 16 bits that is added
to an offset.  At none of these changes may it lose a bit: else a word far beyond the code
would name a place inside it.

The analysis looks an offset up by the whole word and adds in unbounded integers, so it has
nothing to lose there.  A host that keeps offsets in 64 bits has to cut the word down and to add
with overflow.  `takeNarrow` and `relativeNarrow` do it in the way such a host does, and come to
the same result for every code whose offsets fit in 64 bits.
-/
import EvmSafety.Proofs.Destinations
import EvmSafety.Proofs.Effect
import Mathlib.Data.List.Basic
import Mathlib.Data.List.Induction
import Mathlib.Data.Nat.Digits.Defs
import Mathlib.Data.Nat.Size

namespace EvmSafety

/-! ### Bytes and words -/

namespace Word

/-- The number that bytes stand for in base 256, the most significant first. -/
def number (bytes : List UInt8) : Nat :=
  Nat.ofDigits 256 (bytes.reverse.map UInt8.toNat)

theorem number_lt (bytes : List UInt8) : number bytes < 256 ^ bytes.length := by
  have hdigits : ∀ d ∈ bytes.reverse.map UInt8.toNat, d < 256 := by
    intro d hd
    obtain ⟨byte, -, rfl⟩ := List.mem_map.1 hd
    exact byte.toNat_lt
  have hlt := Nat.ofDigits_lt_base_pow_length (by decide) hdigits
  rwa [List.length_map, List.length_reverse] at hlt

theorem bigEndian_eq_number (bytes : List UInt8) : bigEndian bytes = number bytes := by
  induction bytes using List.reverseRecOn with
  | nil => rfl
  | append_singleton front last ih =>
    rw [bigEndian] at ih ⊢
    rw [List.foldl_append, ih, number, number, List.reverse_append]
    simp [Nat.ofDigits_cons, Nat.add_comm]

/-- **Up to 32 bytes make a word without loss.** -/
theorem toNat_ofBytes {bytes : List UInt8} (h : bytes.length ≤ 32) :
    (ofBytes bytes).toNat = number bytes := by
  have hlt : number bytes < 2 ^ 256 := by
    calc number bytes < 256 ^ bytes.length := number_lt bytes
      _ ≤ 256 ^ 32 := Nat.pow_le_pow_right (by decide) h
      _ = 2 ^ 256 := by decide
  rw [ofBytes, bigEndian_eq_number, BitVec.toNat_ofNat, Nat.mod_eq_of_lt hlt]

end Word

/-! ### The data of pushes and relative jumps -/

namespace Opcode

theorem eq_pushOf_of_mem_table :
    ∀ op ∈ table, op.move = .push → op = pushOf op.width ∧ op.width ≤ 32 := by
  decide +kernel

theorem width_eq_two_of_mem_table :
    ∀ op ∈ table, op.move = .rjump ∨ op.move = .rjumpi → op.width = 2 := by
  decide +kernel

end Opcode

namespace Code

variable {code : Code}

theorem length_immediate {offset : Nat} {ins : Instruction} (h : code.decode offset = .ok ins) :
    ins.immediate.length = ins.opcode.width := by
  obtain ⟨-, hoffset, hle, hdata, -⟩ := decode_eq_ok_iff.1 h
  have hsize : code.size = code.bytes.size := rfl
  rw [hdata, Array.length_toList, Array.size_extract]
  unfold Instruction.next at hle ⊢
  omega

end Code

/-! ### Looking up a word -/

namespace Stack

variable {code : Code}

/-- A known word above the base is popped, and looked up as a whole. -/
theorem takeDestination_cons {word : Word} {rest : List Slot} {base : Nat}
    (h : base ≤ rest.length) :
    takeDestination code ⟨.constant word :: rest, base⟩
      = if code.isDest word.toNat then .ok word.toNat ⟨rest, base⟩
        else .error (.invalidDestination word) ⟨rest, base⟩ := by
  have hrest : on (own ⟨rest, base⟩) (below ⟨rest, base⟩) = ⟨rest, base⟩ := on_own_below h
  have hcons : (⟨.constant word :: rest, base⟩ : Stack)
      = on (.constant word :: own ⟨rest, base⟩) (below ⟨rest, base⟩) :=
    congrArg (fun s => (⟨.constant word :: s.slots, s.base⟩ : Stack)) hrest.symm
  rw [hcons, takeDestination_on_constant, hrest]

/-- **A destination is taken if it is the whole word, and a jump may land there.** -/
theorem takeDestination_cons_eq_ok_iff {word : Word} {rest : List Slot} {base dest : Nat}
    {s : Stack} (h : base ≤ rest.length) :
    takeDestination code ⟨.constant word :: rest, base⟩ = .ok dest s ↔
      (word.toNat = dest ∧ code.isDest dest = true) ∧ s = ⟨rest, base⟩ := by
  rw [takeDestination_cons h]
  constructor
  · intro htake
    split at htake
    · next hdest =>
      cases htake
      exact ⟨⟨rfl, hdest⟩, rfl⟩
    · cases htake
  · rintro ⟨⟨rfl, hdest⟩, rfl⟩
    rw [if_pos hdest]

/-- Any other known word is refused as it is. -/
theorem takeDestination_cons_eq_error_iff {word : Word} {rest : List Slot} {base : Nat}
    {fault : StackFault} {s : Stack} (h : base ≤ rest.length) :
    takeDestination code ⟨.constant word :: rest, base⟩ = .error fault s ↔
      (∀ dest, ¬ (word.toNat = dest ∧ code.isDest dest = true)) ∧
        fault = .invalidDestination word ∧ s = ⟨rest, base⟩ := by
  rw [takeDestination_cons h]
  constructor
  · intro htake
    split at htake
    · cases htake
    · next hnot =>
      cases htake
      refine ⟨?_, rfl, rfl⟩
      rintro dest ⟨rfl, hdest⟩
      exact hnot hdest
  · rintro ⟨hnot, rfl, rfl⟩
    rw [if_neg fun hdest => hnot _ ⟨rfl, hdest⟩]

end Stack

/-! ### Adding a distance -/

namespace Instruction

/-- The two bytes of a distance, as a number of 16 bits. -/
def distance (high low : UInt8) : BitVec 16 :=
  high.toBitVec ++ low.toBitVec

theorem toNat_distance (high low : UInt8) :
    (distance high low).toNat = 256 * high.toNat + low.toNat := by
  have hlow : low.toBitVec.toNat < 2 ^ 8 := low.toBitVec.isLt
  rw [distance, BitVec.toNat_append, ← Nat.shiftLeft_add_eq_or_of_lt hlow, Nat.shiftLeft_eq,
    Nat.mul_comm]
  rfl

/-- Two bytes are read as the signed number of 16 bits that they are. -/
theorem signed16_eq_toInt (high low : UInt8) : signed16 high low = (distance high low).toInt := by
  have hsum : ((distance high low).toNat : Int) = 256 * high.toNat + low.toNat := by
    rw [toNat_distance]
    omega
  have hint := BitVec.toInt_eq_toNat_bmod (distance high low)
  rw [hsum] at hint
  exact hint.symm

/-- The place a relative jump names: its distance from the following instruction, in unbounded
integers, where a jump may land. -/
def Names (code : Code) (ins : Instruction) (high low : UInt8) (dest : Nat) : Prop :=
  (dest : Int) = ins.next + (distance high low).toInt ∧ code.isDest dest = true

variable {code : Code} {ins : Instruction} {high low : UInt8}

theorem relativeTarget_eq_some_iff (h : ins.immediate = [high, low]) {target : Nat} :
    ins.relativeTarget = some target ↔ (target : Int) = ins.next + (distance high low).toInt := by
  -- How two bytes are read does not matter here, and the kernel would count through it.
  obtain ⟨signed, hsigned⟩ : ∃ signed, signed = signed16 := ⟨_, rfl⟩
  rw [← signed16_eq_toInt]
  unfold relativeTarget
  rw [← hsigned, h]
  dsimp only
  generalize (ins.next : Int) + signed high low = sum
  cases sum with
  | ofNat n =>
    rw [Option.some.injEq]
    exact ⟨fun h => congrArg Int.ofNat h.symm, fun h => (Int.ofNat.inj h).symm⟩
  | negSucc n =>
    constructor
    · intro h
      cases h
    · intro h
      cases h

theorem relativeLanding_eq_some_iff (h : ins.immediate = [high, low]) {dest : Nat} :
    ins.relativeLanding code = some dest ↔ Names code ins high low dest := by
  rw [relativeLanding, Option.filter_eq_some_iff, relativeTarget_eq_some_iff h, Names]

/-- **A relative jump goes where its distance leads in unbounded integers.** -/
theorem goRelative_eq_ok_iff (h : ins.immediate = [high, low]) {flow : Nat → Flow} {st st' : State}
    {flow' : Flow} :
    goRelative code ins flow st = .ok flow' st' ↔
      ∃ dest, Names code ins high low dest ∧ flow' = flow dest ∧ st' = st := by
  constructor
  · intro hgo
    obtain ⟨dest, htarget, hdest, hflow, hst⟩ := goRelative_eq_ok hgo
    exact ⟨dest, ⟨(relativeTarget_eq_some_iff h).1 htarget, hdest⟩, hflow, hst⟩
  · rintro ⟨dest, hnames, rfl, rfl⟩
    rw [goRelative, (relativeLanding_eq_some_iff h).2 hnames]
    rfl

theorem goRelative_eq_error_iff (h : ins.immediate = [high, low]) {flow : Nat → Flow}
    {st st' : State} {kind : Violation.Kind} :
    goRelative code ins flow st = .error kind st' ↔
      (∀ dest, ¬ Names code ins high low dest) ∧ kind = .invalidDestination ∧ st' = st := by
  have hnone : ins.relativeLanding code = none ↔ ∀ dest, ¬ Names code ins high low dest := by
    rw [Option.eq_none_iff_forall_ne_some]
    exact forall_congr' fun dest => not_congr (relativeLanding_eq_some_iff h)
  rw [← hnone, goRelative]
  cases ins.relativeLanding code with
  | none =>
    constructor
    · intro hgo
      cases hgo
      exact ⟨rfl, rfl, rfl⟩
    · rintro ⟨-, rfl, rfl⟩
      rfl
  | some dest =>
    constructor
    · intro hgo
      cases hgo
    · rintro ⟨hnone, -, -⟩
      cases hnone

end Instruction

/-! ### Offsets of 64 bits -/

namespace Word

/-- How many bits it takes to write a word. -/
def bits (word : Word) : Nat :=
  Nat.size word.toNat

/-- The low 64 bits of a word. -/
def low (word : Word) : BitVec 64 :=
  word.setWidth 64

theorem toNat_low {word : Word} (h : word.bits ≤ 64) : word.low.toNat = word.toNat := by
  rw [low, BitVec.toNat_setWidth, Nat.mod_eq_of_lt (Nat.size_le.1 h)]

/-- Of a longer word the low bits alone could name a place inside the code. -/
example : (2 ^ 64 + 5 : Word).low = 5 ∧ (2 ^ 64 + 5 : Word).bits = 65 := by
  decide +kernel

theorem le_toNat_of_lt_bits {word : Word} (h : 64 < word.bits) : 2 ^ 64 ≤ word.toNat :=
  Nat.lt_size.1 h

end Word

/-- Take a destination where offsets have 64 bits: a longer word is refused, and of any other the
low bits are looked up. -/
def Stack.takeNarrow (code : Code) : StackOp Nat := do
  match ← pop with
  | .unknown => throw .dynamicJump
  | .constant word =>
    if 64 < word.bits then throw (.invalidDestination word)
    else if code.isDest word.low.toNat then return word.low.toNat
    else throw (.invalidDestination word)

/-- **Cutting a word down to 64 bits loses nothing** if the offsets of the code fit in them. -/
theorem Stack.takeNarrow_eq {code : Code} (hsize : code.size ≤ 2 ^ 64) :
    takeNarrow code = takeDestination code := by
  unfold takeNarrow takeDestination
  refine bind_congr fun slot => ?_
  cases slot with
  | unknown => rfl
  | constant word =>
    dsimp only
    by_cases hlong : 64 < word.bits
    · have hout : code.isDest word.toNat = false :=
        Code.isDest_eq_false_of_size_le (Nat.le_trans hsize (Word.le_toNat_of_lt_bits hlong))
      rw [if_pos hlong, hout]
      rfl
    · rw [if_neg hlong, Word.toNat_low (Nat.le_of_not_lt hlong)]

/-- A signed distance added to an offset, both of 64 bits; none if the sum wraps around. -/
def addSigned? (offset distance : BitVec 64) : Option (BitVec 64) :=
  if BitVec.uaddOverflow offset distance ^^ distance.msb then none else some (offset + distance)

/-- Adding where offsets have 64 bits finds the sum in unbounded integers, or that it is no such
offset. -/
theorem addSigned?_eq_some_iff {offset distance sum : BitVec 64} :
    addSigned? offset distance = some sum ↔
      (sum.toNat : Int) = offset.toNat + distance.toInt := by
  have hsum := sum.isLt
  have hadd := BitVec.toNat_add offset distance
  have hsame : some (offset + distance) = some sum ↔ (offset + distance).toNat = sum.toNat := by
    rw [Option.some.injEq, BitVec.toNat_inj]
  rw [addSigned?, BitVec.toInt_eq_msb_cond, BitVec.msb_eq_decide, BitVec.uaddOverflow]
  -- The sum of the bits is right if it wraps around exactly for a negative distance.
  by_cases hnegative : 2 ^ (64 - 1) ≤ distance.toNat
  · by_cases hwraps : offset.toNat + distance.toNat ≥ 2 ^ 64
    · simp only [hnegative, hwraps, decide_true, Bool.xor_self, Bool.false_eq_true, if_false,
        if_true, hsame]
      omega
    · simp only [hnegative, hwraps, decide_true, decide_false, Bool.false_xor, if_true,
        reduceCtorEq, false_iff]
      omega
  · by_cases hwraps : offset.toNat + distance.toNat ≥ 2 ^ 64
    · simp only [hnegative, hwraps, decide_true, decide_false, Bool.xor_false,
        Bool.false_eq_true, if_false, if_true, reduceCtorEq, false_iff]
      omega
    · simp only [hnegative, hwraps, decide_false, Bool.xor_self, Bool.false_eq_true, if_false,
        hsame]
      omega

namespace Instruction

/-- The place a relative jump goes to where offsets have 64 bits. -/
def relativeNarrow (code : Code) (ins : Instruction) (high low : UInt8) : Option Nat :=
  ((addSigned? (BitVec.ofNat 64 ins.next) ((distance high low).signExtend 64)).map
    BitVec.toNat).filter code.isDest

/-- **Adding in 64 bits loses nothing** if the offsets of the code fit in them. -/
theorem relativeNarrow_eq_some_iff {code : Code} {ins : Instruction} {high low : UInt8}
    {dest : Nat} (hnext : ins.next < 2 ^ 64) (hsize : code.size ≤ 2 ^ 64) :
    relativeNarrow code ins high low = some dest ↔ Names code ins high low dest := by
  have hoffset : (BitVec.ofNat 64 ins.next).toNat = ins.next := by
    rw [BitVec.toNat_ofNat, Nat.mod_eq_of_lt hnext]
  have hdistance : ((distance high low).signExtend 64).toInt = (distance high low).toInt :=
    BitVec.toInt_signExtend_of_le (by decide)
  rw [relativeNarrow, Option.filter_eq_some_iff, Option.map_eq_some_iff, Names]
  constructor
  · rintro ⟨⟨sum, hsum, rfl⟩, hdest⟩
    rw [addSigned?_eq_some_iff, hoffset, hdistance] at hsum
    exact ⟨hsum, hdest⟩
  · rintro ⟨hsum, hdest⟩
    have hlt : dest < 2 ^ 64 :=
      Nat.lt_of_lt_of_le (Code.lt_size_of_isStart (Code.isStart_of_isDest hdest)) hsize
    have hvalue : (BitVec.ofNat 64 dest).toNat = dest := by
      rw [BitVec.toNat_ofNat, Nat.mod_eq_of_lt hlt]
    refine ⟨⟨BitVec.ofNat 64 dest, ?_, hvalue⟩, hdest⟩
    rw [addSigned?_eq_some_iff, hvalue, hoffset, hdistance, hsum]

end Instruction

/-! ### The operands of a code -/

namespace Code

/-- What a push pushes, what a destination is taken for and where a relative jump leads, all in
unbounded integers. -/
structure KeepsOperands (code : Code) : Prop where
  /-- A push has up to 32 bytes of data, and pushes the number that they stand for. -/
  pushes : ∀ offset ins, code.decode offset = .ok ins → ins.opcode.move = .push →
    ∃ n ≤ 32, ins.opcode = .pushOf n ∧ ins.immediate.length = n ∧
      ins.immediate = (code.bytes.extract (offset + 1) (offset + 1 + n)).toList ∧
      ins.literal.toNat = Word.number ins.immediate ∧
      ∀ st : State, st.stack.size < stackCapacity → ins.execute code st
        = .ok .advance ⟨⟨.constant ins.literal :: st.stack.slots, st.stack.base⟩, st.frames⟩
  /-- A known word above the base is taken for the offset that is equal to it, if a jump may
  land there. -/
  takes : ∀ word rest base dest s, base ≤ rest.length →
    (Stack.takeDestination code ⟨.constant word :: rest, base⟩ = .ok dest s ↔
      (word.toNat = dest ∧ code.isDest dest = true) ∧ s = ⟨rest, base⟩)
  /-- Every other one is refused as it is. -/
  refuses : ∀ word rest base fault s, base ≤ rest.length →
    (Stack.takeDestination code ⟨.constant word :: rest, base⟩ = .error fault s ↔
      (∀ dest, ¬ (word.toNat = dest ∧ code.isDest dest = true)) ∧
        fault = .invalidDestination word ∧ s = ⟨rest, base⟩)
  /-- It is the same to look up the low 64 bits of a word that is no longer. -/
  takesNarrow : code.size < 2 ^ 64 → Stack.takeNarrow code = Stack.takeDestination code
  /-- A relative jump goes to the offset that is its next one and its distance together, if a
  jump may land there; else it is refused; and it is the same to add in 64 bits. -/
  goes : ∀ offset ins, code.decode offset = .ok ins →
    ins.opcode.move = .rjump ∨ ins.opcode.move = .rjumpi →
    ∃ high low, (code.bytes.extract (offset + 1) (offset + 3)).toList = [high, low] ∧
      (∀ flow flow' st st', ins.goRelative code flow st = .ok flow' st' ↔
        ∃ dest, ins.Names code high low dest ∧ flow' = flow dest ∧ st' = st) ∧
      (∀ flow kind st st', ins.goRelative code flow st = .error kind st' ↔
        (∀ dest, ¬ ins.Names code high low dest) ∧ kind = .invalidDestination ∧ st' = st) ∧
      (code.size < 2 ^ 64 → ∀ dest, ins.relativeNarrow code high low = some dest ↔
        ins.Names code high low dest)

variable {code : Code} {offset : Nat} {ins : Instruction}

theorem execute_push (hmove : ins.opcode.move = .push) {st : State}
    (hroom : st.stack.size < stackCapacity) :
    ins.execute code st
      = .ok .advance ⟨⟨.constant ins.literal :: st.stack.slots, st.stack.base⟩, st.frames⟩ := by
  have hpush : Instruction.onStack (Stack.push (.constant ins.literal)) st
      = .ok () ⟨⟨.constant ins.literal :: st.stack.slots, st.stack.base⟩, st.frames⟩ := by
    simp only [Instruction.onStack, Instruction.attempt, State.onStack, Stack.push, if_pos hroom]
  rw [Instruction.execute, hmove]
  dsimp only
  rw [bind_apply, hpush]
  rfl

/-- What a push pushes. -/
theorem pushes_of_decode (hdecode : code.decode offset = .ok ins)
    (hmove : ins.opcode.move = .push) :
    ∃ n ≤ 32, ins.opcode = .pushOf n ∧ ins.immediate.length = n ∧
      ins.immediate = (code.bytes.extract (offset + 1) (offset + 1 + n)).toList ∧
      ins.literal.toNat = Word.number ins.immediate := by
  obtain ⟨hop, hwidth⟩ := Opcode.eq_pushOf_of_mem_table _ (mem_table_of_decode hdecode) hmove
  obtain ⟨-, hoffset, -, hdata, -⟩ := decode_eq_ok_iff.1 hdecode
  have hlength := length_immediate hdecode
  rw [Instruction.next, hoffset] at hdata
  exact ⟨_, hwidth, hop, hlength, hdata, Word.toNat_ofBytes (hlength ▸ hwidth)⟩

/-- A relative jump has two bytes of data. -/
theorem two_of_decode (hdecode : code.decode offset = .ok ins)
    (hmove : ins.opcode.move = .rjump ∨ ins.opcode.move = .rjumpi) :
    ∃ high low, ins.immediate = [high, low] ∧
      ins.immediate = (code.bytes.extract (offset + 1) (offset + 3)).toList := by
  have hwidth := Opcode.width_eq_two_of_mem_table _ (mem_table_of_decode hdecode) hmove
  obtain ⟨-, hoffset, -, hdata, -⟩ := decode_eq_ok_iff.1 hdecode
  have hlength := length_immediate hdecode
  rw [Instruction.next, hoffset, hwidth] at hdata
  rw [hwidth] at hlength
  obtain ⟨high, low, htwo⟩ := List.length_eq_two.1 hlength
  exact ⟨high, low, htwo, hdata⟩

/-- **No operand of a jump is cut or taken for another,** in any code. -/
theorem keepsOperands (code : Code) : code.KeepsOperands where
  pushes := by
    intro offset ins hdecode hmove
    obtain ⟨n, hn, hop, hlength, hdata, hvalue⟩ := pushes_of_decode hdecode hmove
    exact ⟨n, hn, hop, hlength, hdata, hvalue, fun _ => execute_push hmove⟩
  takes := fun _ _ _ _ _ => Stack.takeDestination_cons_eq_ok_iff
  refuses := fun _ _ _ _ _ => Stack.takeDestination_cons_eq_error_iff
  takesNarrow := fun hsize => Stack.takeNarrow_eq (Nat.le_of_lt hsize)
  goes := by
    intro offset ins hdecode hmove
    obtain ⟨high, low, htwo, hdata⟩ := two_of_decode hdecode hmove
    refine ⟨high, low, hdata ▸ htwo, fun _ _ _ _ => Instruction.goRelative_eq_ok_iff htwo,
      fun _ _ _ _ => Instruction.goRelative_eq_error_iff htwo, ?_⟩
    intro hsize dest
    obtain ⟨-, -, -, -, hle⟩ := decode_eq_ok hdecode
    exact Instruction.relativeNarrow_eq_some_iff (Nat.lt_of_le_of_lt hle hsize)
      (Nat.le_of_lt hsize)

end Code

end EvmSafety
