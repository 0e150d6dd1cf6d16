/-
Where a jump may land.

A jump may land on an offset if the byte there is `5b` and is not data.  The sweep settles both
in one pass, by an instruction set that depends on the fork.  The same places can be found
without an instruction set: `scanFrom` walks over the code and skips what the bytes `60` to
`7f` push.

That the two agree up to Cancun rests on one fact of the table: until then nothing but a push
has data, and the pushes that have some are as old as the first fork.  A byte without a meaning
is skipped alone by both.  The relative jumps of Prague have data too, so from there on the
walk has to know the fork.
-/
import EvmSafety.Proofs.Decoding
import Mathlib.Data.List.Basic

namespace EvmSafety

/-! ### What the table says of single bytes -/

namespace Opcode

variable {byte : UInt8} {fork : Fork} {op : Opcode}

/-- What the first fork had exists at every fork. -/
theorem ofByteAt?_of_frontier (h : table.find? (fun op => op.byte == byte) = some op)
    (hsince : op.since = .frontier) (fork : Fork) : ofByteAt? byte fork = some op := by
  have hle : op.since ≤ fork := by
    rw [hsince]
    exact Nat.zero_le _
  rw [← ofByte?_eq_find?] at h
  exact Option.filter_eq_some_iff.2 ⟨h, decide_eq_true hle⟩

theorem move_eq_jumpdest_iff_of_mem_table :
    ∀ op ∈ table, op.move = .jumpdest ↔ op.byte = 0x5B := by
  decide +kernel

/-- The byte `5b` marks a place to land on at every fork, and no other byte does. -/
theorem encodes_jumpdest_iff (byte : UInt8) (fork : Fork) :
    (∃ op, ofByteAt? byte fork = some op ∧ op.move = .jumpdest) ↔ byte = 0x5B := by
  constructor
  · rintro ⟨op, hop, hmove⟩
    rw [← byte_of_ofByteAt? hop]
    exact (move_eq_jumpdest_iff_of_mem_table op (mem_table_of_ofByteAt? hop)).1 hmove
  · rintro rfl
    have hfound : table.find? (fun op => op.byte == 0x5B)
        = some { byte := 0x5B, name := "jumpdest", pops := 0, pushes := 0, move := .jumpdest } := by
      decide +kernel
    exact ⟨_, ofByteAt?_of_frontier hfound rfl fork, rfl⟩

theorem width_of_jumpdest : ∀ op ∈ table, op.move = .jumpdest → op.width = 0 := by
  decide +kernel

/-- How many bytes of data a byte has if only the pushes `60` to `7f` have any. -/
def pushData (byte : UInt8) : Nat :=
  if 0x60 ≤ byte ∧ byte ≤ 0x7F then byte.toNat - 0x5F else 0

theorem width_eq_pushData_of_mem_table :
    ∀ op ∈ table, op.since ≤ .cancun → op.width = pushData op.byte := by
  decide +kernel

theorem find?_push : ∀ n < 32,
    table.find? (fun op => op.byte == UInt8.ofNat (0x60 + n)) = some (pushOf (n + 1)) := by
  decide +kernel

/-- A push that has data exists at every fork. -/
theorem ofByteAt?_ne_none_of_pushData (h : pushData byte ≠ 0) (fork : Fork) :
    ofByteAt? byte fork ≠ none := by
  unfold pushData at h
  split at h
  · next hrange =>
    have hlow : 0x60 ≤ byte.toNat := hrange.1
    have hhigh : byte.toNat ≤ 0x7F := hrange.2
    have hplace : 0x60 + (byte.toNat - 0x60) = byte.toNat := by omega
    have hfound := find?_push (byte.toNat - 0x60) (by omega)
    rw [hplace, UInt8.ofNat_toNat] at hfound
    rw [ofByteAt?_of_frontier hfound rfl fork]
    exact Option.some_ne_none _
  · exact absurd rfl h

end Opcode

/-- **Up to Cancun only pushes have data.** -/
theorem Sweep.width_eq_pushData {fork : Fork} (h : fork ≤ .cancun) (byte : UInt8) :
    width fork byte = Opcode.pushData byte := by
  unfold width
  cases hop : Opcode.ofByteAt? byte fork with
  | some op =>
    have hsince : op.since ≤ .cancun := Nat.le_trans (Opcode.since_le_of_ofByteAt? hop) h
    dsimp only
    rw [Opcode.width_eq_pushData_of_mem_table op (Opcode.mem_table_of_ofByteAt? hop) hsince,
      Opcode.byte_of_ofByteAt? hop]
  | none =>
    by_cases hnone : Opcode.pushData byte = 0
    · exact hnone.symm
    · exact absurd hop (Opcode.ofByteAt?_ne_none_of_pushData hnone fork)

/-! ### Destinations by their byte -/

namespace Sweep

/-- Where nothing is left to skip, the mark says whether a jump may land. -/
theorem getElem?_marks_eq_dest_iff {fork : Fork} {bytes : Array UInt8} {offset : Nat}
    (h : offset < bytes.size) (hskip : (before fork bytes offset).skip = 0) :
    (ofBytes fork bytes).marks[offset]? = some .dest ↔ bytes[offset] = 0x5B := by
  have hsize : (before fork bytes offset).marks.size = offset := size_before (Nat.le_of_lt h)
  rw [getElem?_marks_ofBytes h, before_succ h, ← Opcode.encodes_jumpdest_iff _ fork]
  generalize before fork bytes offset = sweep at hskip hsize ⊢
  obtain ⟨skip, marks⟩ := sweep
  dsimp only at hskip hsize
  rw [hskip, next]
  cases Opcode.ofByteAt? bytes[offset] fork with
  | none => simp [← hsize]
  | some op => by_cases hmove : op.move = .jumpdest <;> simp [hmove, ← hsize]

end Sweep

namespace Code

variable {code : Code}

/-- **A jump may land where an instruction starts with the byte `5b`,** and nowhere else. -/
theorem isDest_iff {offset : Nat} :
    code.isDest offset = true ↔ code.isStart offset = true ∧ code.bytes[offset]? = some 0x5B := by
  constructor
  · intro hdest
    have hstart := isStart_of_isDest hdest
    have hlt : offset < code.bytes.size := lt_size_of_isStart hstart
    rw [isDest, beq_iff_eq, code.marks_eq,
      Sweep.getElem?_marks_eq_dest_iff hlt (skip_eq_zero_of_isStart hstart)] at hdest
    exact ⟨hstart, by rw [Array.getElem?_eq_getElem hlt, hdest]⟩
  · rintro ⟨hstart, hbyte⟩
    obtain ⟨hlt, hvalue⟩ := Array.getElem?_eq_some_iff.1 hbyte
    rw [isDest, beq_iff_eq, code.marks_eq,
      Sweep.getElem?_marks_eq_dest_iff hlt (skip_eq_zero_of_isStart hstart)]
    exact hvalue

/-- What the sweep marks is what the decoder reads. -/
theorem isDest_iff_decode {offset : Nat} :
    code.isDest offset = true ↔
      ∃ ins, code.decode offset = .ok ins ∧ ins.opcode.move = .jumpdest := by
  rw [isDest_iff]
  constructor
  · rintro ⟨hstart, hbyte⟩
    obtain ⟨op, hop, hmove⟩ := (Opcode.encodes_jumpdest_iff 0x5B code.fork).2 rfl
    have hwidth := Opcode.width_of_jumpdest op (Opcode.mem_table_of_ofByteAt? hop) hmove
    have hlt : offset < code.size := lt_size_of_isStart hstart
    have hnext : offset + 1 + op.width ≤ code.size := by
      rw [hwidth]
      exact hlt
    refine ⟨⟨offset, op, (code.bytes.extract (offset + 1) (offset + 1 + op.width)).toList⟩, ?_,
      hmove⟩
    exact decode_eq_ok_iff.2 ⟨mem_starts.2 hstart, rfl, hnext, rfl, _, hbyte, hop⟩
  · rintro ⟨ins, hdecode, hmove⟩
    obtain ⟨hstart, -, -, -, byte, hbyte, hop⟩ := decode_eq_ok_iff.1 hdecode
    rw [(Opcode.encodes_jumpdest_iff byte code.fork).1 ⟨_, hop, hmove⟩] at hbyte
    exact ⟨mem_starts.1 hstart, hbyte⟩

theorem isDest_eq_false_of_size_le {offset : Nat} (h : code.size ≤ offset) :
    code.isDest offset = false := by
  refine eq_false_of_ne_true fun hdest => ?_
  exact absurd (lt_size_of_isStart (isStart_of_isDest hdest)) (Nat.not_lt.2 h)

/-! ### The list of destinations -/

theorem mem_destinations {offset : Nat} :
    offset ∈ code.destinations ↔ code.isDest offset = true := by
  rw [destinations, List.mem_filter, List.mem_range]
  constructor
  · intro h
    exact h.2
  · intro h
    exact ⟨lt_size_of_isStart (isStart_of_isDest h), h⟩

theorem destinations_ascending (code : Code) : code.destinations.Pairwise (· < ·) :=
  List.pairwise_lt_range.filter _

/-- Where a jump may land on an instruction that was read, or on none. -/
def landing : Except Unreadable Instruction → Option Nat
  | .ok ins => if ins.opcode.move = .jumpdest then some ins.offset else none
  | .error _ => none

theorem landing_decode (offset : Nat) :
    landing (code.decode offset) = if code.isDest offset then some offset else none := by
  cases hdecode : code.decode offset with
  | error cause =>
    have hdest : ¬ code.isDest offset = true := by
      rw [isDest_iff_decode, hdecode]
      simp
    rw [landing, if_neg hdest]
  | ok ins =>
    have hdest : code.isDest offset = true ↔ ins.opcode.move = .jumpdest := by
      rw [isDest_iff_decode, hdecode]
      simp
    rw [landing, (offset_lt_of_decode hdecode).1]
    by_cases hmove : ins.opcode.move = .jumpdest
    · rw [if_pos hmove, if_pos (hdest.2 hmove)]
    · rw [if_neg hmove, if_neg (mt hdest.1 hmove)]

/-- **One pass over what the decoder reads finds the destinations too,** in order. -/
theorem destinations_eq_filterMap (code : Code) :
    code.destinations = code.instructions.filterMap landing := by
  rw [instructions, List.filterMap_map, starts, List.filterMap_filter, destinations,
    ← List.filterMap_eq_filter]
  refine List.filterMap_congr fun offset _ => ?_
  rw [Function.comp_apply, landing_decode]
  by_cases hdest : code.isDest offset = true
  · simp [hdest, isStart_of_isDest hdest]
  · simp [hdest]

theorem size_marks (code : Code) : code.marks.size = code.size := by
  rw [code.marks_eq, Sweep.size_ofBytes]
  rfl

theorem destinationCount_eq (code : Code) : code.destinationCount = code.destinations.length := by
  have hmarks : code.marks.toList.map some = (List.range code.size).map (code.marks[·]?) := by
    refine List.ext_getElem (by simp [size_marks]) ?_
    intro i hi _
    simp only [List.length_map, Array.length_toList] at hi
    simp [hi]
  calc code.destinationCount
      = (code.marks.toList.map some).countP (· == some .dest) := by
        rw [destinationCount, ← Array.count_toList, List.countP_map]
        rfl
    _ = (List.range code.size).countP code.isDest := by
        rw [hmarks, List.countP_map]
        rfl
    _ = code.destinations.length := by
        rw [destinations, List.countP_eq_length_filter]

/-! ### The scan -/

/-- The places found on a walk from an offset that skips so many bytes of data behind a byte. -/
def scanFrom (data : UInt8 → Nat) (bytes : Array UInt8) (offset : Nat) : List Nat :=
  if h : offset < bytes.size then
    (if bytes[offset] = 0x5B then [offset] else [])
      ++ scanFrom data bytes (offset + 1 + data bytes[offset])
  else []
termination_by bytes.size - offset

/-- In the data of an instruction there is no place to land on. -/
theorem filter_isDest_data {start k : Nat} (hstart : code.isStart start = true)
    (hk : k ≤ code.widthAt start) : (List.range' (start + 1) k).filter code.isDest = [] := by
  rw [List.filter_eq_nil_iff]
  intro offset hmem hdest
  obtain ⟨hlow, hhigh⟩ := List.mem_range'_1.1 hmem
  have hnot : code.isStart offset = false :=
    isStart_eq_false_of_data hstart (by omega) (by omega)
  rw [isStart_of_isDest hdest] at hnot
  cases hnot

/-- Behind the opcode of an instruction the next destination is behind its data. -/
theorem filter_isDest_behind {start : Nat} (hstart : code.isStart start = true) :
    (List.range' (start + 1) (code.size - (start + 1))).filter code.isDest
      = (List.range' (start + 1 + code.widthAt start)
          (code.size - (start + 1 + code.widthAt start))).filter code.isDest := by
  by_cases hfits : start + 1 + code.widthAt start ≤ code.size
  · have hsplit : code.size - (start + 1)
        = code.widthAt start + (code.size - (start + 1 + code.widthAt start)) := by
      omega
    rw [hsplit, ← List.range'_append_1, List.filter_append,
      filter_isDest_data hstart (Nat.le_refl _), List.nil_append]
  · rw [filter_isDest_data hstart (by omega), Nat.sub_eq_zero_of_le (by omega)]
    rfl

/-- Where an instruction starts, the destinations from there on are its own offset, if it is
one, and those behind its data. -/
theorem filter_isDest_start {start : Nat} (hstart : code.isStart start = true) :
    (List.range' start (code.size - start)).filter code.isDest
      = (if code.isDest start then [start] else [])
        ++ (List.range' (start + 1 + code.widthAt start)
          (code.size - (start + 1 + code.widthAt start))).filter code.isDest := by
  have hlt := lt_size_of_isStart hstart
  have hrest : code.size - start = code.size - (start + 1) + 1 := by omega
  rw [hrest, List.range'_succ, List.filter_cons, filter_isDest_behind hstart]
  split <;> rfl

/-- **A scan that skips what the fork says finds the destinations,** from wherever an
instruction starts. -/
theorem scanFrom_width {offset : Nat} (h : code.isStart offset = true ∨ code.size ≤ offset) :
    scanFrom (Sweep.width code.fork) code.bytes offset
      = (List.range' offset (code.size - offset)).filter code.isDest := by
  fun_induction scanFrom (Sweep.width code.fork) code.bytes offset with
  | case1 offset hlt ih =>
    have hstart : code.isStart offset = true := by
      rcases h with hstart | hend
      · exact hstart
      · exact absurd hlt (Nat.not_lt.2 hend)
    have hwidth : Sweep.width code.fork code.bytes[offset] = code.widthAt offset := by
      rw [widthAt, Array.getElem?_eq_getElem hlt]
    have hnext : code.isStart (offset + 1 + code.widthAt offset) = true
        ∨ code.size ≤ offset + 1 + code.widthAt offset := by
      rcases Nat.lt_or_ge (offset + 1 + code.widthAt offset) code.size with hinside | hout
      · exact .inl (isStart_behind_data hstart hinside)
      · exact .inr hout
    have hdest : code.isDest offset = true ↔ code.bytes[offset] = 0x5B := by
      rw [isDest_iff, Array.getElem?_eq_getElem hlt, Option.some.injEq]
      exact ⟨fun h => h.2, fun h => ⟨hstart, h⟩⟩
    rw [hwidth] at ih ⊢
    rw [filter_isDest_start hstart, ih hnext]
    simp only [hdest]
  | case2 offset hout =>
    have hend : code.size - offset = 0 := Nat.sub_eq_zero_of_le (Nat.le_of_not_lt hout)
    rw [hend]
    rfl

theorem destinations_eq_scanFrom (code : Code) :
    code.destinations = scanFrom (Sweep.width code.fork) code.bytes 0 := by
  have hzero : code.isStart 0 = true ∨ code.size ≤ 0 := by
    rcases code.onBoundary_zero with hstart | hend
    · exact .inl hstart
    · exact .inr (Nat.le_of_eq hend.symm)
  rw [scanFrom_width hzero, destinations, List.range_eq_range', Nat.sub_zero]

/-! ### The destinations of a code -/

/-- The places where a jump may land, as offsets, as a list, and as a scan finds them. -/
structure MarksDestinations (code : Code) : Prop where
  /-- They are the instructions with the byte `5b`. -/
  isDest : ∀ offset, code.isDest offset = true ↔
    code.isStart offset = true ∧ code.bytes[offset]? = some 0x5B
  /-- None is past the end. -/
  inside : ∀ offset, code.size ≤ offset → code.isDest offset = false
  /-- The list has all of them and nothing else. -/
  listed : ∀ offset, offset ∈ code.destinations ↔ code.isDest offset = true
  /-- It ascends. -/
  ascending : code.destinations.Pairwise (· < ·)
  /-- Their number is its length. -/
  counted : code.destinationCount = code.destinations.length
  /-- Up to Cancun the fork has no say: they are what a scan finds that skips the data of the
  pushes `60` to `7f` and knows no other byte. -/
  scanned : code.fork ≤ .cancun → code.destinations = scanFrom Opcode.pushData code.bytes 0

/-- **The places to land on are those of the machine,** for every code and fork. -/
theorem marksDestinations (bytes : Array UInt8) (fork : Fork) :
    (ofBytes bytes fork).MarksDestinations where
  isDest := fun _ => isDest_iff
  inside := fun _ => isDest_eq_false_of_size_le
  listed := fun _ => mem_destinations
  ascending := destinations_ascending _
  counted := destinationCount_eq _
  scanned := by
    intro hcancun
    have hwidth : Sweep.width (ofBytes bytes fork).fork = Opcode.pushData := by
      funext byte
      exact Sweep.width_eq_pushData hcancun byte
    rw [destinations_eq_scanFrom, hwidth]

/-- From Prague on the byte `e0` has data. -/
example : (ofBytes #[0xE0, 0x5B, 0x00] .cancun).destinations = [1] ∧
    (ofBytes #[0xE0, 0x5B, 0x00] .prague).destinations = [] := by
  decide +kernel

end Code

end EvmSafety
