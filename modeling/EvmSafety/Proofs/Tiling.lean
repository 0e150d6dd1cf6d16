/-
Instructions tile the code.

The sweep skips an immediate before it starts the next instruction, so no instruction starts
inside another one.  Two consequences are used throughout: an instruction is determined by
the offset behind it, and a place where a path can only arrive by a jump, behind a
conditional jump or behind a call is never reached by simply going on.

The argument follows the sweep byte by byte.  `before` is its state in front of an offset;
an offset is a start exactly if nothing is left to skip there, and behind an instruction the
number of bytes to skip counts down from the width of its immediate.
-/
import EvmSafety.Code

namespace EvmSafety

namespace Sweep

/-- The sweep in front of an offset. -/
def before (fork : Fork) (bytes : Array UInt8) (offset : Nat) : Sweep :=
  (bytes.toList.take offset).foldl (next fork) {}

theorem before_succ {fork : Fork} {bytes : Array UInt8} {offset : Nat}
    (h : offset < bytes.size) :
    before fork bytes (offset + 1) = (before fork bytes offset).next fork bytes[offset] := by
  have hlen : offset < bytes.toList.length := by simpa using h
  rw [before, List.take_succ_eq_append_getElem hlen, List.foldl_append]
  simp [before]

theorem size_before {fork : Fork} {bytes : Array UInt8} :
    ∀ {offset : Nat}, offset ≤ bytes.size → (before fork bytes offset).marks.size = offset := by
  intro offset
  induction offset with
  | zero => intro _; rfl
  | succ offset ih =>
    intro h
    rw [before_succ h, size_next, ih (Nat.le_of_lt h)]

/-- One step only adds a mark. -/
theorem getElem?_marks_next {fork : Fork} {sweep : Sweep} {byte : UInt8} {i : Nat}
    (h : i < sweep.marks.size) : (sweep.next fork byte).marks[i]? = sweep.marks[i]? := by
  obtain ⟨skip | skip, marks⟩ := sweep
  · rw [next]
    split <;> simp [Array.getElem?_push, Nat.ne_of_lt h]
  · simp [next, Array.getElem?_push, Nat.ne_of_lt h]

theorem getElem?_marks_foldl_next {fork : Fork} {bytes : List UInt8} :
    ∀ {sweep : Sweep} {i : Nat}, i < sweep.marks.size →
      (bytes.foldl (next fork) sweep).marks[i]? = sweep.marks[i]? := by
  induction bytes with
  | nil => intro sweep i _; rfl
  | cons byte rest ih =>
    intro sweep i h
    rw [List.foldl_cons, ih (by rw [size_next]; omega), getElem?_marks_next h]

/-- What the whole sweep finds at an offset is settled once it is past it. -/
theorem getElem?_marks_ofBytes {fork : Fork} {bytes : Array UInt8} {offset : Nat}
    (h : offset < bytes.size) :
    (ofBytes fork bytes).marks[offset]? = (before fork bytes (offset + 1)).marks[offset]? := by
  have hsplit : (ofBytes fork bytes)
      = (bytes.toList.drop (offset + 1)).foldl (next fork) (before fork bytes (offset + 1)) := by
    rw [before, ← List.foldl_append, List.take_append_drop, ofBytes, Array.foldl_toList]
  rw [hsplit, getElem?_marks_foldl_next]
  rw [size_before h]
  omega

/-- Where something is left to skip, a step goes past data. -/
theorem next_of_skip {fork : Fork} {sweep : Sweep} {byte : UInt8} {skip : Nat}
    (h : sweep.skip = skip + 1) : sweep.next fork byte = ⟨skip, sweep.marks.push .inside⟩ := by
  obtain ⟨skip', marks⟩ := sweep
  dsimp only at h
  rw [h, next]

/-- How many bytes of data follow a byte that starts an instruction. -/
def width (fork : Fork) (byte : UInt8) : Nat :=
  match Opcode.ofByteAt? byte fork with
  | none => 0
  | some op => op.width

/-- Where nothing is left to skip, a step finds an instruction, and its data is to be skipped. -/
theorem skip_next {fork : Fork} {sweep : Sweep} {byte : UInt8} (h : sweep.skip = 0) :
    (sweep.next fork byte).skip = width fork byte := by
  obtain ⟨skip', marks⟩ := sweep
  dsimp only at h
  rw [h, next, width]
  cases Opcode.ofByteAt? byte fork <;> rfl

/-- Where something is left to skip, the sweep finds data. -/
theorem getElem?_marks_of_skip {fork : Fork} {bytes : Array UInt8} {offset skip : Nat}
    (h : offset < bytes.size) (hskip : (before fork bytes offset).skip = skip + 1) :
    (ofBytes fork bytes).marks[offset]? = some .inside := by
  have hsize : (before fork bytes offset).marks.size = offset := size_before (Nat.le_of_lt h)
  rw [getElem?_marks_ofBytes h, before_succ h, next_of_skip hskip, Array.getElem?_push,
    if_pos hsize.symm]

/-- Where nothing is left to skip, the sweep finds an instruction. -/
theorem getElem?_marks_of_skip_eq_zero {fork : Fork} {bytes : Array UInt8} {offset : Nat}
    (h : offset < bytes.size) (hskip : (before fork bytes offset).skip = 0) :
    (ofBytes fork bytes).marks[offset]? = some .start ∨
      (ofBytes fork bytes).marks[offset]? = some .dest := by
  have hsize : (before fork bytes offset).marks.size = offset := size_before (Nat.le_of_lt h)
  rw [getElem?_marks_ofBytes h, before_succ h]
  generalize before fork bytes offset = sweep at hskip hsize ⊢
  obtain ⟨skip, marks⟩ := sweep
  dsimp only at hskip hsize
  rw [hskip, next]
  cases Opcode.ofByteAt? bytes[offset] fork with
  | none => exact .inl (by simp [← hsize])
  | some op =>
    by_cases hmove : op.move = .jumpdest
    · exact .inr (by simp [hmove, ← hsize])
    · exact .inl (by simp [hmove, ← hsize])

/-- The number of bytes to skip counts down. -/
theorem skip_before_succ {fork : Fork} {bytes : Array UInt8} {offset skip : Nat}
    (h : offset < bytes.size) (hskip : (before fork bytes offset).skip = skip + 1) :
    (before fork bytes (offset + 1)).skip = skip := by
  rw [before_succ h, next_of_skip hskip]

/-- Inside an instruction as many bytes are left to skip as its immediate still has. -/
theorem skip_before_immediate {fork : Fork} {bytes : Array UInt8} {offset : Nat}
    (h : offset < bytes.size) (hskip : (before fork bytes offset).skip = 0) :
    ∀ {i : Nat}, i ≤ width fork bytes[offset] → offset + 1 + i ≤ bytes.size →
      (before fork bytes (offset + 1 + i)).skip = width fork bytes[offset] - i := by
  intro i
  induction i with
  | zero =>
    intro _ _
    rw [Nat.add_zero, before_succ h, skip_next hskip, Nat.sub_zero]
  | succ i ih =>
    intro hi hle
    have hrest : width fork bytes[offset] - i = width fork bytes[offset] - (i + 1) + 1 := by
      omega
    have hlt : offset + 1 + i < bytes.size := by omega
    exact skip_before_succ hlt ((ih (by omega) (by omega)).trans hrest)

end Sweep

namespace Code

variable {code : Code}

theorem lt_size_of_isStart {offset : Nat} (h : code.isStart offset = true) :
    offset < code.size := by
  rw [isStart, code.marks_eq] at h
  by_cases hlt : offset < code.size
  · exact hlt
  · have hpast : (Sweep.ofBytes code.fork code.bytes).marks.size ≤ offset := by
      rw [Sweep.size_ofBytes]
      exact Nat.le_of_not_lt hlt
    rw [Array.getElem?_eq_none hpast] at h
    simp at h

/-- Where an instruction starts nothing is left to skip. -/
theorem skip_eq_zero_of_isStart {offset : Nat} (hstart : code.isStart offset = true) :
    (Sweep.before code.fork code.bytes offset).skip = 0 := by
  cases hskip : (Sweep.before code.fork code.bytes offset).skip with
  | zero => rfl
  | succ skip =>
    have hmark := Sweep.getElem?_marks_of_skip (lt_size_of_isStart hstart) hskip
    rw [isStart, code.marks_eq, hmark] at hstart
    simp at hstart

theorem isStart_of_skip_eq_zero {offset : Nat} (h : offset < code.size)
    (hskip : (Sweep.before code.fork code.bytes offset).skip = 0) :
    code.isStart offset = true := by
  rw [isStart, code.marks_eq]
  rcases Sweep.getElem?_marks_of_skip_eq_zero h hskip with hmark | hmark
  · rw [hmark]
  · rw [hmark]

/-- How many bytes of data follow the byte at an offset if an instruction starts there. -/
def widthAt (code : Code) (offset : Nat) : Nat :=
  match code.bytes[offset]? with
  | none => 0
  | some byte => Sweep.width code.fork byte

theorem widthAt_of_opcode {offset : Nat} {byte : UInt8} {op : Opcode}
    (hbyte : code.bytes[offset]? = some byte)
    (hop : Opcode.ofByteAt? byte code.fork = some op) : code.widthAt offset = op.width := by
  rw [widthAt, hbyte]
  dsimp only
  rw [Sweep.width, hop]

/-- Behind the start of an instruction as many bytes are left to skip as are left of its data. -/
theorem skip_behind_start {start i : Nat} (hstart : code.isStart start = true)
    (hi : i ≤ code.widthAt start) (hle : start + 1 + i ≤ code.size) :
    (Sweep.before code.fork code.bytes (start + 1 + i)).skip = code.widthAt start - i := by
  have hlt : start < code.bytes.size := lt_size_of_isStart hstart
  have hwidth : code.widthAt start = Sweep.width code.fork code.bytes[start] := by
    rw [widthAt, Array.getElem?_eq_getElem hlt]
  rw [hwidth] at hi ⊢
  exact Sweep.skip_before_immediate hlt (skip_eq_zero_of_isStart hstart) hi hle

/-- **No instruction starts in the data of another one.** -/
theorem isStart_eq_false_of_data {start offset : Nat} (hstart : code.isStart start = true)
    (hlow : start < offset) (hhigh : offset ≤ start + code.widthAt start) :
    code.isStart offset = false := by
  cases hother : code.isStart offset with
  | false => rfl
  | true =>
    have hlt := lt_size_of_isStart hother
    obtain ⟨i, rfl⟩ : ∃ i, offset = start + 1 + i := ⟨offset - (start + 1), by omega⟩
    have hleft := @skip_behind_start code start i hstart (by omega) (by omega)
    rw [skip_eq_zero_of_isStart hother] at hleft
    omega

/-- **Behind the data of an instruction the next one starts,** if the code goes on. -/
theorem isStart_behind_data {start : Nat} (hstart : code.isStart start = true)
    (hlt : start + 1 + code.widthAt start < code.size) :
    code.isStart (start + 1 + code.widthAt start) = true := by
  have hdone := skip_behind_start hstart (Nat.le_refl _) (Nat.le_of_lt hlt)
  rw [Nat.sub_self] at hdone
  exact isStart_of_skip_eq_zero hlt hdone

/-- Where a jump may land an instruction starts. -/
theorem isStart_of_isDest {offset : Nat} (h : code.isDest offset = true) :
    code.isStart offset = true := by
  rw [isDest, beq_iff_eq] at h
  rw [isStart, h]

/-- What decoding an offset takes. -/
theorem decode_eq_ok {offset : Nat} {ins : Instruction} (h : code.decode offset = .ok ins) :
    ∃ hlt : offset < code.bytes.size,
      code.isStart offset = true ∧
      Opcode.ofByteAt? code.bytes[offset] code.fork = some ins.opcode ∧
      ins.offset = offset ∧ ins.next ≤ code.size := by
  unfold decode at h
  split at h
  · simp at h
  · next byte hbyte =>
    obtain ⟨hlt, hbyte⟩ := Array.getElem?_eq_some_iff.1 hbyte
    split at h
    · next hstart =>
      split at h
      · simp at h
      · next op hop =>
        dsimp only at h
        split at h
        · next hwidth =>
          injection h with h
          subst h
          refine ⟨hlt, hstart, by rw [hbyte]; exact hop, rfl, ?_⟩
          unfold size at hwidth ⊢
          simp only [Instruction.next]
          omega
        · simp at h
    · simp at h

theorem mem_table_of_decode {offset : Nat} {ins : Instruction}
    (h : code.decode offset = .ok ins) : ins.opcode ∈ Opcode.table := by
  obtain ⟨_, -, hop, -⟩ := decode_eq_ok h
  exact Opcode.mem_table_of_ofByteAt? hop

/-- The instruction that is decoded starts where it was asked for. -/
theorem offset_of_decode {offset : Nat} {ins : Instruction} (h : code.decode offset = .ok ins) :
    ins.offset = offset :=
  (offset_lt_of_decode h).1

theorem lt_next_of_decode {offset : Nat} {ins : Instruction}
    (h : code.decode offset = .ok ins) : offset < ins.next := by
  have hoffset := offset_of_decode h
  unfold Instruction.next
  omega

theorem next_eq_of_decode {offset : Nat} {ins : Instruction} (h : code.decode offset = .ok ins) :
    ins.next = offset + 1 + code.widthAt offset := by
  obtain ⟨hlt, -, hop, hoffset, -⟩ := decode_eq_ok h
  rw [Instruction.next, hoffset, widthAt_of_opcode (Array.getElem?_eq_getElem hlt) hop]

/-- No instruction starts inside another one. -/
theorem isStart_eq_false_of_inside {offset inner : Nat} {ins : Instruction}
    (h : code.decode offset = .ok ins) (hlow : offset < inner) (hhigh : inner < ins.next) :
    code.isStart inner = false := by
  obtain ⟨-, hstart, -⟩ := decode_eq_ok h
  have hnext := next_eq_of_decode h
  exact isStart_eq_false_of_data hstart hlow (by omega)

/-- An instruction starts at the offset, or the code ends there. -/
def OnBoundary (code : Code) (offset : Nat) : Prop :=
  code.isStart offset = true ∨ offset = code.size

theorem onBoundary_zero (code : Code) : code.OnBoundary 0 := by
  by_cases hsize : 0 < code.bytes.size
  · exact .inl (isStart_of_skip_eq_zero hsize rfl)
  · exact .inr (Nat.eq_zero_of_not_pos hsize).symm

theorem onBoundary_of_decode {offset : Nat} {ins : Instruction}
    (h : code.decode offset = .ok ins) : code.OnBoundary offset := by
  obtain ⟨-, hstart, -⟩ := decode_eq_ok h
  exact .inl hstart

/-- Behind an instruction the next one starts, or the code ends. -/
theorem onBoundary_next {offset : Nat} {ins : Instruction} (h : code.decode offset = .ok ins) :
    code.OnBoundary ins.next := by
  obtain ⟨-, hstart, -, -, hle⟩ := decode_eq_ok h
  have hnext := next_eq_of_decode h
  rcases Nat.lt_or_eq_of_le hle with hinside | hend
  · rw [hnext] at hinside ⊢
    exact .inl (isStart_behind_data hstart hinside)
  · exact .inr hend

/-- **An instruction is determined by the offset behind it.** -/
theorem decode_next_inj {offset offset' : Nat} {ins ins' : Instruction}
    (h : code.decode offset = .ok ins) (h' : code.decode offset' = .ok ins')
    (hnext : ins.next = ins'.next) : offset = offset' := by
  obtain ⟨-, hstart, -⟩ := decode_eq_ok h
  obtain ⟨-, hstart', -⟩ := decode_eq_ok h'
  rcases Nat.lt_trichotomy offset offset' with hlt | heq | hlt
  · have hin := isStart_eq_false_of_inside h hlt (hnext ▸ lt_next_of_decode h')
    rw [hin] at hstart'
    exact absurd hstart' (by simp)
  · exact heq
  · have hin := isStart_eq_false_of_inside h' hlt (hnext ▸ lt_next_of_decode h)
    rw [hin] at hstart
    exact absurd hstart (by simp)

/-! ### Where blocks begin -/

/-- A place that paths come to otherwise than by going on from the instruction before it. -/
def BeginsBlock (code : Code) (offset : Nat) : Prop :=
  offset = 0 ∨ code.isDest offset = true ∨
    ∃ site ins, code.decode site = .ok ins ∧ ins.next = offset ∧
      (ins.opcode.move = .jumpi ∨ ins.opcode.move = .rjumpi ∨ ins.opcode.move = .jumpsub)

theorem beginsBlock_of_isDest {offset : Nat} (h : code.isDest offset = true) :
    code.BeginsBlock offset :=
  .inr (.inl h)

/-- Behind a conditional jump and behind a call a block begins. -/
theorem beginsBlock_next {offset : Nat} {ins : Instruction}
    (hdecode : code.decode offset = .ok ins)
    (hmove : ins.opcode.move = .jumpi ∨ ins.opcode.move = .rjumpi ∨ ins.opcode.move = .jumpsub) :
    code.BeginsBlock ins.next :=
  .inr (.inr ⟨offset, ins, hdecode, rfl, hmove⟩)

theorem BeginsBlock.onBoundary {offset : Nat} (h : code.BeginsBlock offset) :
    code.OnBoundary offset := by
  rcases h with rfl | hdest | ⟨site, ins, hdecode, rfl, -⟩
  · exact code.onBoundary_zero
  · exact .inl (isStart_of_isDest hdest)
  · exact onBoundary_next hdecode

/-- Going on from another instruction leads to the beginning of a block only if a jump may
land there. -/
theorem isDest_of_beginsBlock {site : Nat} {ins : Instruction}
    (hdecode : code.decode site = .ok ins) (hbegins : code.BeginsBlock ins.next)
    (hother : ¬ (ins.opcode.move = .jumpi ∨ ins.opcode.move = .rjumpi ∨
      ins.opcode.move = .jumpsub)) : code.isDest ins.next = true := by
  rcases hbegins with hzero | hdest | ⟨site', ins', hdecode', hnext, hmove⟩
  · have hlt := lt_next_of_decode hdecode
    omega
  · exact hdest
  · obtain rfl := decode_next_inj hdecode hdecode' hnext.symm
    rw [hdecode] at hdecode'
    injection hdecode' with hdecode'
    subst hdecode'
    exact absurd hmove hother

end Code

end EvmSafety
