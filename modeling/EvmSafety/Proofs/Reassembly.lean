/-
Reading a listing back.

A listing is made for people, and yet nothing is lost in it: the bytes of the code are all
there, each once and in order.  `Line.read?` finds them without the code and without its fork.
It takes the words of a line, the first of which is the offset, and knows the opcode of a
mnemonic and how bytes are spelled.

The proof has two halves that meet at the piece of code a line is about.  The first concerns
the text: the three shapes of a line cannot be mistaken for each other, because mnemonics are
words of their own, no two of them the same and none of them `unknown`.  The second concerns
the code: the line at a start is about the opcode there and its data, and such pieces, one
behind the other, make up the code.
-/
import EvmSafety.Listing
import EvmSafety.Proofs.Decoding
import EvmSafety.Proofs.Loading
import Mathlib.Data.List.Nodup

namespace EvmSafety

/-! ### Numbers -/

namespace Hex

/-- One more digit behind a number. -/
theorem toNat?_append_digit {digits : List Char} {n d : Nat} (h : toNat? digits = some n)
    (hd : d < 16) : toNat? (digits ++ [Nat.digitChar d]) = some (16 * n + d) := by
  have hvalue : value? (Nat.digitChar d) = some d := value?_of_isDigit ⟨hd, .inl rfl⟩
  unfold toNat? at h ⊢
  split at h
  · cases h
  · rw [List.foldl_append, h]
    simp [hvalue]

/-- Zeros in front of a number do not count. -/
theorem toNat?_replicate_append {digits : List Char} (h : digits ≠ []) (k : Nat) :
    toNat? (List.replicate k '0' ++ digits) = toNat? digits := by
  induction k with
  | zero => rfl
  | succ k ih =>
    rw [← ih, List.replicate_succ, List.cons_append]
    have hzero : value? '0' = some 0 := rfl
    simp [toNat?, h, hzero]

theorem toNat?_toDigits (n : Nat) : toNat? (Nat.toDigits 16 n) = some n := by
  induction n using Nat.strongRecOn with
  | ind n ih =>
    by_cases hn : n < 16
    · have hvalue : value? (Nat.digitChar n) = some n := value?_of_isDigit ⟨hn, .inl rfl⟩
      rw [Nat.toDigits_of_lt_base hn]
      simp [toNat?, hvalue]
    · have hfront : toNat? (Nat.toDigits 16 (n / 16)) = some (n / 16) := ih _ (by omega)
      rw [Nat.toDigits_of_base_le (by decide) (by omega),
        toNat?_append_digit hfront (Nat.mod_lt _ (by decide)), Nat.div_add_mod]

/-- A number is written in digits only. -/
theorem exists_digit_of_mem_toDigits {n : Nat} {c : Char} (h : c ∈ Nat.toDigits 16 n) :
    ∃ d < 16, c = Nat.digitChar d := by
  induction n using Nat.strongRecOn with
  | ind n ih =>
    by_cases hn : n < 16
    · rw [Nat.toDigits_of_lt_base hn, List.mem_singleton] at h
      exact ⟨n, hn, h⟩
    · rw [Nat.toDigits_of_base_le (by decide) (by omega), List.mem_append,
        List.mem_singleton] at h
      rcases h with hfront | hlast
      · exact ih _ (by omega) hfront
      · exact ⟨n % 16, Nat.mod_lt _ (by decide), hlast⟩

/-- Bytes are written in digits only. -/
theorem exists_digit_of_mem_ofBytes {bytes : List UInt8} {c : Char} (h : c ∈ ofBytes bytes) :
    ∃ d < 16, c = Nat.digitChar d := by
  obtain ⟨byte, -, hbyte⟩ := List.mem_flatMap.1 h
  simp only [ofByte, List.mem_cons, List.not_mem_nil, or_false] at hbyte
  rcases hbyte with hhigh | hlow
  · exact ⟨_, high_lt byte, hhigh⟩
  · exact ⟨_, low_lt byte, hlow⟩

theorem digitChar_ne_blank {d : Nat} (h : d < 16) : ' ' ≠ Nat.digitChar d := by
  have hall : ∀ d < 16, ' ' ≠ Nat.digitChar d := by decide
  exact hall d h

theorem toList_ofOffset (offset : Nat) :
    (ofOffset offset).toList
      = '0' :: 'x' :: (List.replicate (4 - (Nat.toDigits 16 offset).length) '0'
          ++ Nat.toDigits 16 offset) := by
  simp [ofOffset, List.leftpad]

theorem toList_ofBytesMarked (bytes : List UInt8) :
    (ofBytesMarked bytes).toList = '0' :: 'x' :: ofBytes bytes := by
  simp [ofBytesMarked]

theorem blank_not_mem_ofOffset (offset : Nat) : ' ' ∉ (ofOffset offset).toList := by
  rw [toList_ofOffset]
  simp only [List.mem_cons, List.mem_append, List.mem_replicate, not_or]
  refine ⟨by decide, by decide, by simp, ?_⟩
  intro h
  obtain ⟨d, hd, hblank⟩ := exists_digit_of_mem_toDigits h
  exact digitChar_ne_blank hd hblank

theorem blank_not_mem_ofBytesMarked (bytes : List UInt8) :
    ' ' ∉ (ofBytesMarked bytes).toList := by
  rw [toList_ofBytesMarked]
  simp only [List.mem_cons, not_or]
  refine ⟨by decide, by decide, ?_⟩
  intro h
  obtain ⟨d, hd, hblank⟩ := exists_digit_of_mem_ofBytes h
  exact digitChar_ne_blank hd hblank

end Hex

/-! ### Mnemonics -/

namespace Opcode

/-- The byte that a mnemonic stands for, whatever the fork. -/
def byteOfName? (name : String) : Option UInt8 :=
  (table.find? fun op => op.name = name).map Opcode.byte

/-- No two opcodes have the same mnemonic. -/
theorem nodup_names : (table.map Opcode.name).Nodup := by
  decide +kernel

/-- A mnemonic is one word, and not the one for a byte without a meaning. -/
theorem isWord_name_of_mem_table :
    ∀ op ∈ table, ' ' ∉ op.name.toList ∧ op.name ≠ "unknown" := by
  decide +kernel

theorem byteOfName?_of_mem_table {op : Opcode} (h : op ∈ table) :
    byteOfName? op.name = some op.byte := by
  have hfound : (table.find? fun other => other.name = op.name).isSome := by
    rw [List.find?_isSome]
    exact ⟨op, h, decide_eq_true rfl⟩
  obtain ⟨other, hother⟩ := Option.isSome_iff_exists.1 hfound
  have hname : other.name = op.name := by simpa using List.find?_some hother
  obtain rfl := List.inj_on_of_nodup_map nodup_names (List.mem_of_find?_eq_some hother) h hname
  rw [byteOfName?, hother, Option.map_some]

end Opcode

/-! ### Reading a line -/

/-- What a line tells: an offset, and bytes of the code. -/
structure Piece where
  /-- Where the line says it is. -/
  offset : Nat
  /-- The bytes it stands for. -/
  bytes : List UInt8
  deriving DecidableEq, Repr

namespace Line

/-- The offset that a word is. -/
def readOffset? : List Char → Option Nat
  | '0' :: 'x' :: digits => Hex.toNat? digits
  | _ => none

/-- The bytes that a word spells. -/
def readBytes? : List Char → Option (List UInt8)
  | '0' :: 'x' :: digits => (Hex.toBytes? digits).map Array.toList
  | _ => none

/-- The bytes that the words behind the offset stand for: a mnemonic alone or with its data, a
byte without a meaning, or a mnemonic with all bytes that were left. -/
def readContent? : List (List Char) → Option (List UInt8)
  | [name] => do
    let byte ← Opcode.byteOfName? (String.ofList name)
    return [byte]
  | [name, data] =>
    if String.ofList name = "unknown" then readBytes? data
    else do
      let byte ← Opcode.byteOfName? (String.ofList name)
      let immediate ← readBytes? data
      return byte :: immediate
  | [_, mark, rest] =>
    if String.ofList mark = "(truncated" ∧ rest.getLast? = some ')' then readBytes? rest.dropLast
    else none
  | _ => none

/-- Read a line by its words. -/
def read? (text : String) : Option Piece :=
  match text.toList.splitOn ' ' with
  | [] => none
  | offset :: words => do
    let offset ← readOffset? offset
    let bytes ← readContent? words
    return ⟨offset, bytes⟩

/-! ### The shapes of a line -/

/-- The piece of code that a line is about. -/
def piece : Line → Piece
  | instruction ins => ⟨ins.offset, ins.opcode.byte :: ins.immediate⟩
  | truncated offset _ bytes => ⟨offset, bytes⟩
  | unknown offset byte => ⟨offset, [byte]⟩

/-- What the line calls an opcode is in the table. -/
def Named : Line → Prop
  | instruction ins => ins.opcode ∈ Opcode.table
  | truncated _ name _ => ∃ op ∈ Opcode.table, op.name = name
  | unknown _ _ => True

/-- The words of a line. -/
def words : Line → List (List Char)
  | instruction ins =>
    (Hex.ofOffset ins.offset).toList :: ins.opcode.name.toList ::
      if ins.immediate.isEmpty then [] else [(Hex.ofBytesMarked ins.immediate).toList]
  | truncated offset name bytes =>
    [(Hex.ofOffset offset).toList, name.toList, "(truncated".toList,
      (Hex.ofBytesMarked bytes).toList ++ [')']]
  | unknown offset byte =>
    [(Hex.ofOffset offset).toList, "unknown".toList, (Hex.ofBytesMarked [byte]).toList]

theorem toList_text (line : Line) : line.text.toList = [' '].intercalate line.words := by
  cases line with
  | instruction ins =>
    by_cases hnone : ins.immediate.isEmpty <;> simp [text, words, hnone, List.intercalate]
  | truncated offset name bytes => simp [text, words, List.intercalate]
  | unknown offset byte => simp [text, words, List.intercalate]

/-- No word of a line has a blank in it. -/
theorem blank_not_mem_words {line : Line} (h : line.Named) :
    ∀ word ∈ line.words, ' ' ∉ word := by
  intro word hword
  cases line with
  | instruction ins =>
    simp only [words, List.mem_cons] at hword
    rcases hword with rfl | rfl | hdata
    · exact Hex.blank_not_mem_ofOffset _
    · exact (Opcode.isWord_name_of_mem_table _ h).1
    · split at hdata
      · cases hdata
      · obtain rfl := List.mem_singleton.1 hdata
        exact Hex.blank_not_mem_ofBytesMarked _
  | truncated offset name bytes =>
    obtain ⟨op, hop, rfl⟩ := h
    simp only [words, List.mem_cons, List.not_mem_nil, or_false] at hword
    rcases hword with rfl | rfl | rfl | rfl
    · exact Hex.blank_not_mem_ofOffset _
    · exact (Opcode.isWord_name_of_mem_table _ hop).1
    · decide
    · rw [List.mem_append, not_or]
      exact ⟨Hex.blank_not_mem_ofBytesMarked _, by decide⟩
  | unknown offset byte =>
    simp only [words, List.mem_cons, List.not_mem_nil, or_false] at hword
    rcases hword with rfl | rfl | rfl
    · exact Hex.blank_not_mem_ofOffset _
    · decide
    · exact Hex.blank_not_mem_ofBytesMarked _

theorem splitOn_text {line : Line} (h : line.Named) :
    line.text.toList.splitOn ' ' = line.words := by
  have hne : line.words ≠ [] := by
    cases line <;> simp [words]
  rw [toList_text, List.splitOn_intercalate ' ' (blank_not_mem_words h) hne]

theorem readOffset?_ofOffset (offset : Nat) :
    readOffset? (Hex.ofOffset offset).toList = some offset := by
  have hne : Nat.toDigits 16 offset ≠ [] := by
    intro hnil
    have hread := Hex.toNat?_toDigits offset
    rw [hnil] at hread
    cases hread
  rw [Hex.toList_ofOffset, readOffset?, Hex.toNat?_replicate_append hne, Hex.toNat?_toDigits]

theorem readBytes?_ofBytesMarked (bytes : List UInt8) :
    readBytes? (Hex.ofBytesMarked bytes).toList = some bytes := by
  rw [Hex.toList_ofBytesMarked, readBytes?, Hex.toBytes?_ofBytes, Option.map_some]

/-- **Reading the text of a line finds the piece of code it is about.** -/
theorem read?_text {line : Line} (h : line.Named) : read? line.text = some line.piece := by
  rw [read?, splitOn_text h]
  cases line with
  | instruction ins =>
    have hname := Opcode.byteOfName?_of_mem_table h
    have hword := (Opcode.isWord_name_of_mem_table _ h).2
    by_cases hnone : ins.immediate = []
    · simp [words, hnone, readOffset?_ofOffset, readContent?, hname, piece]
    · simp [words, hnone, readOffset?_ofOffset, readContent?, hword, hname,
        readBytes?_ofBytesMarked, piece]
  | truncated offset name bytes =>
    simp [words, readOffset?_ofOffset, readContent?, readBytes?_ofBytesMarked, piece]
  | unknown offset byte =>
    simp [words, readOffset?_ofOffset, readContent?, readBytes?_ofBytesMarked, piece]

end Line

namespace Code

variable {code : Code}

/-! ### The lines of a code -/

/-- The bytes from a start up to the next one. -/
def pieceAt (code : Code) (start : Nat) : Piece :=
  ⟨start, (code.bytes.toList.drop start).take (1 + code.widthAt start)⟩

/-- The bytes at a start are the byte there and the data behind it. -/
theorem bytes_pieceAt {start : Nat} {byte : UInt8} (hbyte : code.bytes[start]? = some byte) :
    (code.pieceAt start).bytes
      = byte :: (code.bytes.toList.drop (start + 1)).take (code.widthAt start) := by
  obtain ⟨hlt, rfl⟩ := Array.getElem?_eq_some_iff.1 hbyte
  have hlength : start < code.bytes.toList.length := hlt
  rw [pieceAt, List.drop_eq_getElem_cons hlength, Nat.add_comm 1, List.take_succ_cons,
    Array.getElem_toList]

/-- The line at a start names its opcode by the table, and is about the bytes there. -/
theorem lineAt_of_isStart {start : Nat} (hstart : code.isStart start = true) :
    (code.lineAt start).Named ∧ (code.lineAt start).piece = code.pieceAt start := by
  have hreading := code.reading_decode start
  unfold lineAt
  generalize code.decode start = answer at hreading ⊢
  cases hreading with
  | pastEnd hend => exact absurd (lt_size_of_isStart hstart) (Nat.not_lt.2 hend)
  | insideData _ hnot =>
    rw [hstart] at hnot
    cases hnot
  | @undefined byte _ hbyte hop =>
    have hwidth : code.widthAt start = 0 := by
      simp [widthAt, Sweep.width, hbyte, hop]
    have hbytes := bytes_pieceAt hbyte
    rw [hwidth, List.take_zero] at hbytes
    exact ⟨trivial, by simp [Line.piece, Unreadable.offset, byteAt, hbyte, ← hbytes, pieceAt]⟩
  | @cutOff byte op available _ hbyte hop havailable hshort =>
    have hat : code.byteAt start = byte := by
      simp [byteAt, hbyte]
    -- The data would go beyond the end, so what is there is all that is left.
    have hall : (code.pieceAt start).bytes = code.tail start := by
      have hwidth := widthAt_of_opcode hbyte hop
      have hsize : code.bytes.toList.length = code.size := rfl
      rw [pieceAt, tail, Array.toList_extract, List.extract_eq_take_drop, List.take_of_length_le,
        List.take_of_length_le]
      · rw [List.length_drop, hsize]
      · rw [List.length_drop, hsize]
        omega
    dsimp only
    rw [hat, hop]
    refine ⟨⟨op, Opcode.mem_table_of_ofByteAt? hop, rfl⟩, ?_⟩
    simp [Line.piece, ← hall, pieceAt]
  | @read byte op _ hbyte hop hle =>
    have hbytes := bytes_pieceAt hbyte
    rw [widthAt_of_opcode hbyte hop] at hbytes
    refine ⟨Opcode.mem_table_of_ofByteAt? hop, ?_⟩
    simp [Line.piece, Opcode.byte_of_ofByteAt? hop, ← hbytes, pieceAt]

/-! ### Putting the pieces together -/

/-- The pieces of a code, in order. -/
def pieces (code : Code) : List Piece :=
  code.starts.map code.pieceAt

/-- The bytes of pieces, one behind the other. -/
def joined (pieces : List Piece) : List UInt8 :=
  pieces.flatMap Piece.bytes

theorem joined_take_succ {i start : Nat} (h : code.starts[i]? = some start) :
    joined (code.pieces.take (i + 1))
      = joined (code.pieces.take i) ++ (code.pieceAt start).bytes := by
  rw [joined, joined, List.take_add_one, List.flatMap_append, pieces, List.getElem?_map, h]
  simp

/-- The pieces in front of a start make up the code in front of it. -/
theorem joined_take {i start : Nat} (h : code.starts[i]? = some start) :
    joined (code.pieces.take i) = code.bytes.toList.take start := by
  induction i generalizing start with
  | zero =>
    have hsize : 0 < code.size :=
      Nat.zero_lt_of_lt (lt_size_of_mem_starts (List.mem_of_getElem? h))
    rw [getElem?_starts_zero hsize] at h
    cases h
    rfl
  | succ i ih =>
    obtain ⟨hlt, -⟩ := List.getElem?_eq_some_iff.1 h
    have hprev : code.starts[i]? = some code.starts[i] :=
      List.getElem?_eq_getElem (Nat.lt_of_succ_lt hlt)
    rw [getElem?_starts_succ hprev] at h
    split at h
    · cases h
      rw [joined_take_succ hprev, ih hprev, pieceAt, ← List.take_add, Nat.add_assoc]
    · cases h

/-- **All pieces make up the code.** -/
theorem joined_pieces (code : Code) : joined code.pieces = code.bytes.toList := by
  cases hcount : code.starts.length with
  | zero =>
    have hstarts : code.starts = [] := List.eq_nil_of_length_eq_zero hcount
    have hsize : ¬ 0 < code.size := by
      intro hpos
      have hfirst := getElem?_starts_zero hpos
      rw [hstarts] at hfirst
      cases hfirst
    have hempty : code.bytes.toList = [] :=
      List.eq_nil_of_length_eq_zero (Nat.eq_zero_of_not_pos hsize)
    rw [pieces, hstarts, hempty]
    rfl
  | succ i =>
    have hlast : code.starts[i]? = some code.starts[i] := List.getElem?_eq_getElem _
    have hall : code.pieces.take (i + 1) = code.pieces := by
      refine List.take_of_length_le ?_
      rw [pieces, List.length_map, hcount]
    -- Behind the last piece there is nothing, or another one would start there.
    have hend : code.bytes.toList.length
        ≤ code.starts[i] + (1 + code.widthAt code.starts[i]) := by
      have hnext := getElem?_starts_succ hlast
      rw [List.getElem?_eq_none (Nat.le_of_eq hcount)] at hnext
      split at hnext
      · cases hnext
      · next hout =>
        have hsize : code.bytes.toList.length = code.size := rfl
        omega
    rw [← hall, joined_take_succ hlast, joined_take hlast, pieceAt, ← List.take_add,
      List.take_of_length_le hend]

/-! ### Reading a listing -/

/-- Read the lines of a listing, each on its own. -/
def readListing? (lines : List String) : Option (List Piece) :=
  lines.mapM Line.read?

theorem readListing?_listing (code : Code) : readListing? code.listing = some code.pieces := by
  have hlines : ∀ starts : List Nat, (∀ start ∈ starts, code.isStart start = true) →
      (starts.map fun start => (code.lineAt start).text).mapM Line.read?
        = some (starts.map code.pieceAt) := by
    intro starts
    induction starts with
    | nil => intro _; rfl
    | cons start rest ih =>
      intro hall
      obtain ⟨hnamed, hpiece⟩ := lineAt_of_isStart (hall start List.mem_cons_self)
      have hrest := ih fun other hmem => hall other (List.mem_cons_of_mem _ hmem)
      rw [List.map_cons, List.mapM_cons, Line.read?_text hnamed, hpiece, hrest]
      rfl
  have hread := hlines code.starts fun start hmem => mem_starts.1 hmem
  rwa [readListing?, listing, lines, List.map_map]

/-- **A listing loses nothing.**  Its lines can be read without the code and without its fork;
the bytes found are those of the code, in order, and every line says how many of them stand in
front of its own.  So no other code has the same listing, whatever the fork. -/
theorem listing_losesNothing (bytes : Array UInt8) (fork : Fork) :
    ∃ pieces, readListing? (ofBytes bytes fork).listing = some pieces ∧
      joined pieces = bytes.toList ∧
      (∀ i piece, pieces[i]? = some piece → piece.offset = (joined (pieces.take i)).length) ∧
      ∀ bytes' fork', (ofBytes bytes' fork').listing = (ofBytes bytes fork).listing →
        bytes' = bytes := by
  refine ⟨_, readListing?_listing _, joined_pieces _, ?_, ?_⟩
  · intro i piece hpiece
    rw [pieces, List.getElem?_map] at hpiece
    obtain ⟨start, hstart, rfl⟩ := Option.map_eq_some_iff.1 hpiece
    have hlt := lt_size_of_mem_starts (List.mem_of_getElem? hstart)
    rw [joined_take hstart, List.length_take_of_le (Nat.le_of_lt hlt)]
    rfl
  · intro bytes' fork' hsame
    have hread := readListing?_listing (ofBytes bytes' fork')
    rw [hsame, readListing?_listing] at hread
    have hjoined := congrArg joined (Option.some.inj hread)
    rw [joined_pieces, joined_pieces] at hjoined
    exact Array.toList_inj.1 hjoined.symm

/-- The three shapes: data behind an opcode, a byte without a meaning, and an end too early. -/
example :
    readListing?
        ["0x0000 push1 0x5b", "0x0002 unknown 0x0c", "0x0003 push2 (truncated 0x6101)"]
      = some [⟨0, [0x60, 0x5B]⟩, ⟨2, [0x0C]⟩, ⟨3, [0x61, 0x01]⟩] := by
  decide +kernel

end Code

end EvmSafety
