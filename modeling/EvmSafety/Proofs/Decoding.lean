/-
What stands at an offset.

The sweep settles once where instructions start, and every offset is read on its own later.
The two have to agree for whatever bytes there are: opcodes swallowed as data, bytes that
encode nothing at the fork, an immediate that the end of the code cuts off.

That they do has two halves.  The starts follow each other at the distance that the opcodes
ask for, so an offset is a start or lies in the data of the one instruction around it.  And
what is read at an offset is settled by whether it is a start, by the byte there, and by how
many bytes are left behind it; no other fact of the sweep comes in.
-/
import EvmSafety.Proofs.Tiling
import Mathlib.Logic.ExistsUnique

namespace EvmSafety

namespace Code

variable {code : Code}

/-! ### The starts -/

theorem mem_starts {offset : Nat} : offset ∈ code.starts ↔ code.isStart offset = true := by
  rw [starts, List.mem_filter, List.mem_range]
  constructor
  · intro h
    exact h.2
  · intro h
    exact ⟨lt_size_of_isStart h, h⟩

theorem lt_size_of_mem_starts {offset : Nat} (h : offset ∈ code.starts) : offset < code.size :=
  lt_size_of_isStart (mem_starts.1 h)

theorem starts_ascending (code : Code) : code.starts.Pairwise (· < ·) :=
  List.pairwise_lt_range.filter _

theorem getElem_starts_lt {i j : Nat} (hj : j < code.starts.length) (hlt : i < j) :
    code.starts[i] < code.starts[j] :=
  List.pairwise_iff_getElem.1 code.starts_ascending i j (Nat.lt_trans hlt hj) hj hlt

/-- A start behind the one at a place is at a later place. -/
theorem lt_of_getElem_starts_lt {i j : Nat} (hi : i < code.starts.length)
    (hj : j < code.starts.length) (hlt : code.starts[i] < code.starts[j]) : i < j := by
  rcases Nat.lt_trichotomy i j with h | rfl | h
  · exact h
  · exact absurd hlt (Nat.lt_irrefl _)
  · exact absurd (getElem_starts_lt hi h) (Nat.lt_asymm hlt)

/-- The first byte starts an instruction. -/
theorem getElem?_starts_zero (h : 0 < code.size) : code.starts[0]? = some 0 := by
  have hzero : 0 ∈ code.starts := mem_starts.2 (isStart_of_skip_eq_zero h rfl)
  obtain ⟨i, hi, hvalue⟩ := List.getElem_of_mem hzero
  match i with
  | 0 => rw [List.getElem?_eq_getElem hi, hvalue]
  | i + 1 =>
    have hlt := getElem_starts_lt hi (Nat.succ_pos i)
    omega

/-- **The next start is right behind the data of an instruction,** and there is none if the
code does not go on there. -/
theorem getElem?_starts_succ {i start : Nat} (h : code.starts[i]? = some start) :
    code.starts[i + 1]? =
      if start + 1 + code.widthAt start < code.size then some (start + 1 + code.widthAt start)
      else none := by
  obtain ⟨hi, hvalue⟩ := List.getElem?_eq_some_iff.1 h
  have hstart : code.isStart start = true := mem_starts.1 (hvalue ▸ List.getElem_mem hi)
  -- Whatever comes next in the list is behind the data.
  have hbehind {j : Nat} (hj : j < code.starts.length) (hlt : i < j) :
      start + code.widthAt start < code.starts[j] := by
    have hother : code.isStart code.starts[j] = true := mem_starts.1 (List.getElem_mem hj)
    have hafter := getElem_starts_lt hj hlt
    rw [hvalue] at hafter
    by_cases hdata : code.starts[j] ≤ start + code.widthAt start
    · rw [isStart_eq_false_of_data hstart hafter hdata] at hother
      simp at hother
    · exact Nat.lt_of_not_le hdata
  by_cases hlt : start + 1 + code.widthAt start < code.size
  · rw [if_pos hlt]
    have hnext := mem_starts.2 (isStart_behind_data hstart hlt)
    obtain ⟨j, hj, hplace⟩ := List.getElem_of_mem hnext
    have hij : i < j := by
      refine lt_of_getElem_starts_lt hi hj ?_
      rw [hvalue, hplace]
      omega
    rcases Nat.lt_or_eq_of_le (Nat.succ_le_of_lt hij) with hgap | rfl
    · -- There is no room for another start between the two.
      have hbetween := getElem_starts_lt hj hgap
      have hlow := hbehind (Nat.lt_trans hgap hj) (Nat.lt_succ_self i)
      rw [hplace] at hbetween
      omega
    · rw [List.getElem?_eq_getElem hj, hplace]
  · rw [if_neg hlt]
    refine List.getElem?_eq_none (Nat.le_of_not_lt fun hj => ?_)
    have hlow := hbehind hj (Nat.lt_succ_self i)
    have hsize := lt_size_of_mem_starts (List.getElem_mem hj)
    omega

/-! ### Starts and data -/

/-- The offset lies in the data of the instruction that starts at the other one. -/
def InData (code : Code) (start offset : Nat) : Prop :=
  start < offset ∧ offset ≤ start + code.widthAt start

/-- Where something is left to skip, an instruction before has its data. -/
theorem exists_inData :
    ∀ {offset : Nat}, offset < code.size → code.isStart offset = false →
      ∃ start, code.isStart start = true ∧ code.InData start offset := by
  intro offset
  induction offset with
  | zero =>
    intro hlt hnot
    rw [isStart_of_skip_eq_zero hlt rfl] at hnot
    simp at hnot
  | succ offset ih =>
    intro hlt hnot
    have hbefore : offset < code.size := Nat.lt_of_succ_lt hlt
    -- The byte before is the opcode, or lies in the data itself.
    obtain ⟨start, hstart, hlow, hhigh⟩ : ∃ start, code.isStart start = true ∧
        start ≤ offset ∧ offset ≤ start + code.widthAt start := by
      cases hprev : code.isStart offset with
      | true => exact ⟨offset, hprev, Nat.le_refl _, Nat.le_add_right _ _⟩
      | false =>
        obtain ⟨start, hstart, hlow, hhigh⟩ := ih hbefore hprev
        exact ⟨start, hstart, Nat.le_of_lt hlow, hhigh⟩
    refine ⟨start, hstart, Nat.lt_succ_of_le hlow, ?_⟩
    by_cases hend : offset = start + code.widthAt start
    · have hnext : start + 1 + code.widthAt start = offset + 1 := by omega
      have hagain := isStart_behind_data hstart (hnext ▸ hlt)
      rw [hnext, hnot] at hagain
      simp at hagain
    · omega

theorem InData.not_isStart {start offset : Nat} (hstart : code.isStart start = true)
    (h : code.InData start offset) : code.isStart offset = false :=
  isStart_eq_false_of_data hstart h.1 h.2

/-- The data of two instructions does not overlap. -/
theorem InData.unique {start start' offset : Nat} (hstart : code.isStart start = true)
    (hstart' : code.isStart start' = true) (h : code.InData start offset)
    (h' : code.InData start' offset) : start = start' := by
  obtain ⟨hlow, hhigh⟩ := h
  obtain ⟨hlow', hhigh'⟩ := h'
  rcases Nat.lt_trichotomy start start' with hlt | heq | hlt
  · rw [isStart_eq_false_of_data hstart hlt (by omega)] at hstart'
    simp at hstart'
  · exact heq
  · rw [isStart_eq_false_of_data hstart' hlt (by omega)] at hstart
    simp at hstart

/-! ### Reading an offset -/

/-- What is read at an offset, by whether it is a start, the byte there and the bytes left. -/
inductive Reading (code : Code) (offset : Nat) : Except Unreadable Instruction → Prop
  /-- The code has ended. -/
  | pastEnd (hend : code.size ≤ offset) : Reading code offset (.error (.pastEnd offset))
  /-- No instruction starts here. -/
  | insideData (hlt : offset < code.size) (hstart : code.isStart offset = false) :
      Reading code offset (.error (.insideData offset))
  /-- The byte encodes no opcode. -/
  | undefined {byte : UInt8} (hstart : code.isStart offset = true)
      (hbyte : code.bytes[offset]? = some byte)
      (hop : Opcode.ofByteAt? byte code.fork = none) :
      Reading code offset (.error (.undefined offset byte))
  /-- The code ends before the immediate does. -/
  | cutOff {byte : UInt8} {op : Opcode} {available : Nat} (hstart : code.isStart offset = true)
      (hbyte : code.bytes[offset]? = some byte)
      (hop : Opcode.ofByteAt? byte code.fork = some op)
      (havailable : offset + 1 + available = code.size) (hshort : available < op.width) :
      Reading code offset (.error (.cutOff offset op.width available))
  /-- An instruction stands here. -/
  | read {byte : UInt8} {op : Opcode} (hstart : code.isStart offset = true)
      (hbyte : code.bytes[offset]? = some byte)
      (hop : Opcode.ofByteAt? byte code.fork = some op)
      (hle : offset + 1 + op.width ≤ code.size) :
      Reading code offset
        (.ok ⟨offset, op, (code.bytes.extract (offset + 1) (offset + 1 + op.width)).toList⟩)

theorem reading_decode (code : Code) (offset : Nat) :
    code.Reading offset (code.decode offset) := by
  unfold decode
  cases hbyte : code.bytes[offset]? with
  | none => exact .pastEnd (Array.getElem?_eq_none_iff.1 hbyte)
  | some byte =>
    obtain ⟨hlt, -⟩ := Array.getElem?_eq_some_iff.1 hbyte
    have hsize : offset < code.size := hlt
    dsimp only
    by_cases hstart : code.isStart offset = true
    · rw [if_pos hstart]
      cases hop : Opcode.ofByteAt? byte code.fork with
      | none => exact .undefined hstart hbyte hop
      | some op =>
        dsimp only
        by_cases hle : op.width ≤ code.size - offset - 1
        · rw [if_pos hle]
          exact .read hstart hbyte hop (by omega)
        · rw [if_neg hle]
          exact .cutOff hstart hbyte hop (by omega) (by omega)
    · rw [if_neg hstart]
      exact .insideData hsize (eq_false_of_ne_true hstart)

/-- **Reading an offset finds what stands there,** and the five cases exclude each other. -/
theorem decode_eq_iff_reading {offset : Nat} {answer : Except Unreadable Instruction} :
    code.decode offset = answer ↔ code.Reading offset answer := by
  constructor
  · intro h
    rw [← h]
    exact code.reading_decode offset
  · intro h
    unfold decode
    cases h with
    | pastEnd hend =>
      have hnone : code.bytes[offset]? = none := Array.getElem?_eq_none hend
      rw [hnone]
    | insideData hlt hstart =>
      have hsome : code.bytes[offset]? = some code.bytes[offset] := Array.getElem?_eq_getElem hlt
      rw [hsome]
      simp [hstart]
    | undefined hstart hbyte hop => simp [hstart, hbyte, hop]
    | @cutOff _ op available hstart hbyte hop havailable hshort =>
      have hleft : code.size - offset - 1 = available := by omega
      simp [hstart, hbyte, hop, hleft, Nat.not_le_of_lt hshort]
    | @read _ op hstart hbyte hop hle =>
      have hfits : op.width ≤ code.size - offset - 1 := by omega
      simp [hstart, hbyte, hop, hfits]

/-- Only an opcode has data behind it. -/
theorem opcode_of_widthAt {offset : Nat} (h : 0 < code.widthAt offset) :
    ∃ byte op, code.bytes[offset]? = some byte ∧ Opcode.ofByteAt? byte code.fork = some op ∧
      code.widthAt offset = op.width := by
  unfold widthAt Sweep.width at h ⊢
  cases hbyte : code.bytes[offset]? with
  | none => simp [hbyte] at h
  | some byte =>
    cases hop : Opcode.ofByteAt? byte code.fork with
    | none => simp [hbyte, hop] at h
    | some op => exact ⟨byte, op, rfl, hop, by simp [hop]⟩

/-- The offset an answer is about. -/
def offsetOf : Except Unreadable Instruction → Nat
  | .ok ins => ins.offset
  | .error cause => cause.offset

theorem Reading.offsetOf_eq {offset : Nat} {answer : Except Unreadable Instruction}
    (h : code.Reading offset answer) : offsetOf answer = offset := by
  cases h <;> rfl

/-! ### Each reading by its place -/

theorem decode_eq_pastEnd_iff {offset : Nat} :
    code.decode offset = .error (.pastEnd offset) ↔ code.size ≤ offset := by
  rw [decode_eq_iff_reading]
  constructor
  · intro h
    cases h with
    | pastEnd hend => exact hend
  · exact .pastEnd

theorem decode_eq_insideData_iff {offset : Nat} :
    code.decode offset = .error (.insideData offset) ↔
      offset < code.size ∧ offset ∉ code.starts := by
  rw [decode_eq_iff_reading, mem_starts, Bool.not_eq_true]
  constructor
  · intro h
    cases h with
    | insideData hlt hstart => exact ⟨hlt, hstart⟩
  · intro h
    exact .insideData h.1 h.2

theorem decode_eq_undefined_iff {offset : Nat} {byte : UInt8} :
    code.decode offset = .error (.undefined offset byte) ↔
      offset ∈ code.starts ∧ code.bytes[offset]? = some byte ∧
        Opcode.ofByteAt? byte code.fork = none := by
  rw [decode_eq_iff_reading, mem_starts]
  constructor
  · intro h
    cases h with
    | undefined hstart hbyte hop => exact ⟨hstart, hbyte, hop⟩
  · intro h
    exact .undefined h.1 h.2.1 h.2.2

theorem decode_eq_cutOff_iff {offset needed available : Nat} :
    code.decode offset = .error (.cutOff offset needed available) ↔
      offset ∈ code.starts ∧ needed = code.widthAt offset ∧
        offset + 1 + available = code.size ∧ available < needed := by
  rw [decode_eq_iff_reading, mem_starts]
  constructor
  · intro h
    cases h with
    | cutOff hstart hbyte hop havailable hshort =>
      exact ⟨hstart, (widthAt_of_opcode hbyte hop).symm, havailable, hshort⟩
  · intro h
    obtain ⟨hstart, rfl, havailable, hshort⟩ := h
    obtain ⟨byte, op, hbyte, hop, hwidth⟩ := opcode_of_widthAt (Nat.zero_lt_of_lt hshort)
    rw [hwidth] at hshort ⊢
    exact .cutOff hstart hbyte hop havailable hshort

theorem decode_eq_ok_iff {offset : Nat} {ins : Instruction} :
    code.decode offset = .ok ins ↔
      offset ∈ code.starts ∧ ins.offset = offset ∧ ins.next ≤ code.size ∧
        ins.immediate = (code.bytes.extract (offset + 1) ins.next).toList ∧
        ∃ byte, code.bytes[offset]? = some byte ∧
          Opcode.ofByteAt? byte code.fork = some ins.opcode := by
  rw [decode_eq_iff_reading, mem_starts]
  constructor
  · intro h
    cases h with
    | read hstart hbyte hop hle => exact ⟨hstart, rfl, hle, rfl, _, hbyte, hop⟩
  · intro h
    obtain ⟨hstart, hoffset, hle, hdata, byte, hbyte, hop⟩ := h
    obtain ⟨place, op, data⟩ := ins
    dsimp only [Instruction.next] at hoffset hle hdata hop
    subst hoffset hdata
    exact .read hstart hbyte hop hle

/-! ### Tiling -/

/-- An offset of the code is a start, or lies in the data of exactly one instruction. -/
theorem start_or_data {offset : Nat} (hlt : offset < code.size) :
    (offset ∈ code.starts ∧ ∀ start ∈ code.starts, ¬ code.InData start offset) ∨
    (offset ∉ code.starts ∧ ∃! start, start ∈ code.starts ∧ code.InData start offset) := by
  by_cases hstart : code.isStart offset = true
  · refine .inl ⟨mem_starts.2 hstart, ?_⟩
    intro start hmem hdata
    rw [hdata.not_isStart (mem_starts.1 hmem)] at hstart
    simp at hstart
  · obtain ⟨start, hbegins, hdata⟩ := exists_inData hlt (eq_false_of_ne_true hstart)
    refine .inr ⟨fun hmem => hstart (mem_starts.1 hmem), start,
      ⟨mem_starts.2 hbegins, hdata⟩, ?_⟩
    intro other hother
    exact hother.2.unique (mem_starts.1 hother.1) hbegins hdata

/-- An instruction that the end cuts off is the last one. -/
theorem getLast?_starts_of_cutOff {offset needed available : Nat}
    (h : code.decode offset = .error (.cutOff offset needed available)) :
    code.starts.getLast? = some offset := by
  cases decode_eq_iff_reading.1 h with
  | @cutOff byte op _ hstart hbyte hop havailable hshort =>
    obtain ⟨i, hi, hplace⟩ := List.getElem_of_mem (mem_starts.2 hstart)
    have hnext := getElem?_starts_succ (List.getElem?_eq_some_iff.2 ⟨hi, hplace⟩)
    rw [widthAt_of_opcode hbyte hop, if_neg (by omega)] at hnext
    have hlast : code.starts.length - 1 = i := by
      have hlength := List.getElem?_eq_none_iff.1 hnext
      omega
    rw [List.getLast?_eq_getElem?, hlast, List.getElem?_eq_getElem hi, hplace]

/-- Behind an instruction stands the next start, or the code ends. -/
theorem getElem?_starts_of_decode {i start : Nat} {ins : Instruction}
    (h : code.starts[i]? = some start) (hdecode : code.decode start = .ok ins) :
    (code.starts[i + 1]?).getD code.size = ins.next := by
  obtain ⟨-, -, -, -, hle⟩ := decode_eq_ok hdecode
  rw [getElem?_starts_succ h, ← next_eq_of_decode hdecode]
  by_cases hlt : ins.next < code.size
  · rw [if_pos hlt, Option.getD_some]
  · rw [if_neg hlt, Option.getD_none]
    omega

/-- The instructions tile the code, and every offset is read by its place among them. -/
structure Tiles (code : Code) : Prop where
  /-- What is listed is about the starts, in their order. -/
  listed : code.instructions.map offsetOf = code.starts
  /-- The starts ascend. -/
  ascending : code.starts.Pairwise (· < ·)
  /-- The first byte starts an instruction. -/
  first : 0 < code.size → code.starts[0]? = some 0
  /-- The next start is behind the opcode and its data, unless the code ends before. -/
  following : ∀ i start, code.starts[i]? = some start → code.starts[i + 1]? =
    if start + 1 + code.widthAt start < code.size then some (start + 1 + code.widthAt start)
    else none
  /-- Every offset is a start or lies in the data of exactly one instruction. -/
  covered : ∀ offset, offset < code.size →
    (offset ∈ code.starts ∧ ∀ start ∈ code.starts, ¬ code.InData start offset) ∨
    (offset ∉ code.starts ∧ ∃! start, start ∈ code.starts ∧ code.InData start offset)
  /-- Every answer is about the offset that was asked for. -/
  answered : ∀ offset, offsetOf (code.decode offset) = offset
  /-- Exactly the offsets behind the code are past the end. -/
  pastEnd : ∀ offset, code.decode offset = .error (.pastEnd offset) ↔ code.size ≤ offset
  /-- Exactly the offsets in the code that are no starts are inside data. -/
  insideData : ∀ offset, code.decode offset = .error (.insideData offset) ↔
    offset < code.size ∧ offset ∉ code.starts
  /-- Exactly the starts whose byte encodes nothing at the fork are undefined. -/
  undefined : ∀ offset byte, code.decode offset = .error (.undefined offset byte) ↔
    offset ∈ code.starts ∧ code.bytes[offset]? = some byte ∧
      Opcode.ofByteAt? byte code.fork = none
  /-- Exactly the starts with fewer bytes behind them than their data has are cut off. -/
  cutOff : ∀ offset needed available,
    code.decode offset = .error (.cutOff offset needed available) ↔
      offset ∈ code.starts ∧ needed = code.widthAt offset ∧
        offset + 1 + available = code.size ∧ available < needed
  /-- Only the last instruction is. -/
  last : ∀ offset needed available,
    code.decode offset = .error (.cutOff offset needed available) →
      code.starts.getLast? = some offset
  /-- Exactly at the other starts an instruction is read, with the data behind its opcode. -/
  read : ∀ offset ins, code.decode offset = .ok ins ↔
    offset ∈ code.starts ∧ ins.offset = offset ∧ ins.next ≤ code.size ∧
      ins.immediate = (code.bytes.extract (offset + 1) ins.next).toList ∧
      ∃ byte, code.bytes[offset]? = some byte ∧
        Opcode.ofByteAt? byte code.fork = some ins.opcode
  /-- Behind it the next one starts, or the code ends. -/
  next : ∀ i start ins, code.starts[i]? = some start → code.decode start = .ok ins →
    (code.starts[i + 1]?).getD code.size = ins.next

/-- **Every code is tiled by its instructions,** whatever its bytes are and at every fork. -/
theorem tiles (code : Code) : code.Tiles where
  listed := by
    rw [instructions, List.map_map]
    refine (List.map_congr_left fun offset _ => ?_).trans (List.map_id _)
    exact (code.reading_decode offset).offsetOf_eq
  ascending := code.starts_ascending
  first := getElem?_starts_zero
  following := fun _ _ => getElem?_starts_succ
  covered := fun _ => start_or_data
  answered := fun offset => (code.reading_decode offset).offsetOf_eq
  pastEnd := fun _ => decode_eq_pastEnd_iff
  insideData := fun _ => decode_eq_insideData_iff
  undefined := fun _ _ => decode_eq_undefined_iff
  cutOff := fun _ _ _ => decode_eq_cutOff_iff
  last := fun _ _ _ => getLast?_starts_of_cutOff
  read := fun _ _ => decode_eq_ok_iff
  next := fun _ _ _ => getElem?_starts_of_decode

end Code

end EvmSafety
