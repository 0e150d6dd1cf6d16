/-
The machine.

It runs a code on words: a push puts its literal on the stack, copies and exchanges move
words, and what any other instruction leaves is arbitrary, so that nothing is assumed of
memory, storage or the world.  Jumps and calls go to the word they pop, which has to be a
place where a jump may land, and a conditional jump goes by its condition.  There are no
ceilings.

An execution that pops, at every jump and call, the destination that the walk popped there
has the heights of a tally, and of those everything is known.  It is sound for as long as it
does not divert from the walk.
-/
import EvmSafety.Proofs.Tally

namespace EvmSafety

/-- A running machine. -/
structure Machine where
  /-- The offset of the next instruction. -/
  pc : Nat := 0
  /-- The data stack, the top first. -/
  words : List Word := []
  /-- Where the open calls return to, the innermost first. -/
  returns : List Nat := []
  deriving DecidableEq, Repr

namespace Machine

/-- What an instruction may make of a machine. -/
def Moves (code : Code) (ins : Instruction) (m m' : Machine) : Prop :=
  match ins.opcode.move with
  | .halt | .invalid => False
  | .push => m' = ⟨ins.next, ins.literal :: m.words, m.returns⟩
  | .dup n => ∃ word, m.words[n - 1]? = some word ∧ m' = ⟨ins.next, word :: m.words, m.returns⟩
  | .swap n => ∃ top rest word, m.words = top :: rest ∧ rest[n - 1]? = some word ∧
      m' = ⟨ins.next, word :: rest.set (n - 1) top, m.returns⟩
  | .jumpdest | .effect => ∃ left : List Word, left.length = ins.opcode.pushes ∧
      ins.opcode.pops ≤ m.words.length ∧
      m' = ⟨ins.next, left ++ m.words.drop ins.opcode.pops, m.returns⟩
  | .jump => ∃ word rest, m.words = word :: rest ∧ code.isDest word.toNat = true ∧
      m' = ⟨word.toNat, rest, m.returns⟩
  | .jumpi => ∃ word condition rest, m.words = word :: condition :: rest ∧
      code.isDest word.toNat = true ∧
      m' = ⟨if condition = 0 then ins.next else word.toNat, rest, m.returns⟩
  | .rjump => ∃ dest, ins.relativeLanding code = some dest ∧ m' = ⟨dest, m.words, m.returns⟩
  | .rjumpi => ∃ dest condition rest, ins.relativeLanding code = some dest ∧
      m.words = condition :: rest ∧
      m' = ⟨if condition = 0 then ins.next else dest, rest, m.returns⟩
  | .jumpsub => ∃ word rest, m.words = word :: rest ∧ code.isDest word.toNat = true ∧
      m' = ⟨word.toNat, rest, ins.next :: m.returns⟩
  | .returnsub => ∃ place rest, m.returns = place :: rest ∧ m' = ⟨place, m.words, rest⟩

/-- One step of an execution. -/
def Step (code : Code) (m m' : Machine) : Prop :=
  ∃ ins, code.decode m.pc = .ok ins ∧ Moves code ins m m'

/-- Some execution from the first byte, with nothing on the stacks, comes here. -/
def Reachable (code : Code) (m : Machine) : Prop :=
  Relation.ReflTransGen (Step code) {} m

/-- A jump or a call pops a word where no jump may land. -/
def Misses (code : Code) (m : Machine) : Prop :=
  ∃ ins word rest, code.decode m.pc = .ok ins ∧ ins.opcode.move.popsDestination = true ∧
    m.words = word :: rest ∧ code.isDest word.toNat = false

/-- The machine halts exceptionally. -/
inductive Faults (code : Code) (m : Machine) : Prop
  /-- No instruction stands here. -/
  | undefined {cause : Unreadable} (hdecode : code.decode m.pc = .error cause)
  /-- The designated invalid instruction does. -/
  | invalid {ins : Instruction} (hdecode : code.decode m.pc = .ok ins)
      (hmove : ins.opcode.move = .invalid)
  /-- The instruction needs more words than there are. -/
  | underflow {ins : Instruction} (hdecode : code.decode m.pc = .ok ins)
      (hlt : m.words.length < ins.opcode.pops)
  /-- It pops a destination where no jump may land. -/
  | misses (h : Misses code m)
  /-- It jumps by a distance to a place where no jump may land. -/
  | strays {ins : Instruction} (hdecode : code.decode m.pc = .ok ins)
      (hmove : ins.opcode.move.isRelative = true) (hlanding : ins.relativeLanding code = none)
  /-- It returns, but no call is open. -/
  | noFrame {ins : Instruction} (hdecode : code.decode m.pc = .ok ins)
      (hmove : ins.opcode.move = .returnsub) (hreturns : m.returns = [])

/-! ### Executions that keep to the walk -/

/-- A jump or a call pops another destination than the walk popped there. -/
def Diverts (code : Code) (m : Machine) : Prop :=
  ∃ ins word rest, code.decode m.pc = .ok ins ∧ ins.opcode.move.popsDestination = true ∧
    m.words = word :: rest ∧ code.target m.pc ≠ some word.toNat

/-- Some execution comes here that has not diverted from the walk before. -/
def ReachableStraight (code : Code) (m : Machine) : Prop :=
  Relation.ReflTransGen (fun m m' => ¬ Diverts code m ∧ Step code m m') {} m

/-- The tally is what is left of the machine if the words are forgotten. -/
structure Counts (m : Machine) (s : Tally) : Prop where
  pc : m.pc = s.pc
  height : m.words.length = s.height
  returns : m.returns = s.frames.map Frame.returnTo

variable {code : Code} {last : Walk} {ins : Instruction} {m m' : Machine} {s : Tally}

/-- An instruction takes and leaves as many words as the table says. -/
theorem Moves.length_words (h : Moves code ins m m') (hcounted : ins.opcode.Counted) :
    m'.words.length = m.words.length - ins.opcode.pops + ins.opcode.pushes := by
  unfold Opcode.Counted at hcounted
  unfold Moves at h
  cases hmove : ins.opcode.move with
  | halt | invalid => simp only [hmove] at h
  | push =>
    simp only [hmove] at h hcounted
    simp [h, hcounted]
  | dup n =>
    simp only [hmove] at h hcounted
    obtain ⟨word, hword, rfl⟩ := h
    obtain ⟨hlt, -⟩ := List.getElem?_eq_some_iff.1 hword
    rw [List.length_cons]
    omega
  | swap n =>
    simp only [hmove] at h hcounted
    obtain ⟨top, rest, word, hwords, hword, rfl⟩ := h
    obtain ⟨hlt, -⟩ := List.getElem?_eq_some_iff.1 hword
    rw [hwords, List.length_cons, List.length_set, List.length_cons]
    omega
  | jumpdest | effect =>
    simp only [hmove] at h
    obtain ⟨left, hleft, -, rfl⟩ := h
    rw [List.length_append, List.length_drop]
    omega
  | jump | jumpsub =>
    simp only [hmove] at h hcounted
    obtain ⟨word, rest, hwords, -, rfl⟩ := h
    simp [hwords, hcounted]
  | jumpi =>
    simp only [hmove] at h hcounted
    obtain ⟨word, condition, rest, hwords, -, rfl⟩ := h
    simp [hwords, hcounted]
  | rjump =>
    simp only [hmove] at h hcounted
    obtain ⟨dest, -, rfl⟩ := h
    simp [hcounted]
  | rjumpi =>
    simp only [hmove] at h hcounted
    obtain ⟨dest, condition, rest, -, hwords, rfl⟩ := h
    simp [hwords, hcounted]
  | returnsub =>
    simp only [hmove] at h hcounted
    obtain ⟨place, rest, -, rfl⟩ := h
    simp [hcounted]

/-- Only calls and returns touch the return places. -/
theorem Moves.returns_eq (h : Moves code ins m m') (hcall : ins.opcode.move ≠ .jumpsub)
    (hreturn : ins.opcode.move ≠ .returnsub) : m'.returns = m.returns := by
  unfold Moves at h
  cases hmove : ins.opcode.move with
  | halt | invalid => simp only [hmove] at h
  | push =>
    simp only [hmove] at h
    rw [h]
  | dup | rjump =>
    simp only [hmove] at h
    obtain ⟨_, -, rfl⟩ := h
    rfl
  | jumpdest | effect =>
    simp only [hmove] at h
    obtain ⟨_, -, -, rfl⟩ := h
    rfl
  | jump =>
    simp only [hmove] at h
    obtain ⟨_, _, -, -, rfl⟩ := h
    rfl
  | swap | jumpi | rjumpi =>
    simp only [hmove] at h
    obtain ⟨_, _, _, -, -, rfl⟩ := h
    rfl
  | jumpsub => exact absurd hmove hcall
  | returnsub => exact absurd hmove hreturn

/-- At a jump or a call, the word on top is the destination that the walk popped. -/
def Aims (code : Code) (ins : Instruction) (m : Machine) : Prop :=
  ins.opcode.move.popsDestination = true →
    ∀ word rest, m.words = word :: rest → code.target m.pc = some word.toNat

theorem aims_of_not_diverts (h : ¬ Diverts code m) (hdecode : code.decode m.pc = .ok ins) :
    Aims code ins m := by
  intro hmove word rest hwords
  by_cases htarget : code.target m.pc = some word.toNat
  · exact htarget
  · exact absurd ⟨ins, word, rest, hdecode, hmove, hwords, htarget⟩ h

/-- Without a call or a return, the tally can go to where the machine goes. -/
theorem Moves.goTo_mem_moves (h : Moves code ins m m') (haims : Aims code ins m)
    (hpc : m.pc = s.pc) (hcall : ins.opcode.move ≠ .jumpsub)
    (hreturn : ins.opcode.move ≠ .returnsub) : s.goTo ins m'.pc ∈ s.moves code ins := by
  unfold Moves at h
  unfold Aims at haims
  unfold Tally.moves
  rw [hpc] at haims
  cases hmove : ins.opcode.move with
  | halt | invalid => simp only [hmove] at h
  | push =>
    simp only [hmove] at h
    simp [h]
  | dup =>
    simp only [hmove] at h
    obtain ⟨_, -, rfl⟩ := h
    exact List.mem_singleton_self _
  | swap =>
    simp only [hmove] at h
    obtain ⟨_, _, _, -, -, rfl⟩ := h
    exact List.mem_singleton_self _
  | jumpdest | effect =>
    simp only [hmove] at h
    obtain ⟨_, -, -, rfl⟩ := h
    exact List.mem_singleton_self _
  | jump =>
    simp only [hmove] at h haims
    obtain ⟨word, rest, hwords, -, rfl⟩ := h
    simp [haims rfl word rest hwords]
  | rjump =>
    simp only [hmove] at h
    obtain ⟨dest, hlanding, rfl⟩ := h
    simp [(Option.filter_eq_some_iff.1 hlanding).1]
  | jumpi =>
    simp only [hmove] at h haims
    obtain ⟨word, condition, rest, hwords, -, rfl⟩ := h
    have htarget := haims rfl word _ hwords
    -- The tally goes both ways, the machine by its condition.
    dsimp only
    split
    · exact List.mem_cons_self
    · simp [htarget]
  | rjumpi =>
    simp only [hmove] at h
    obtain ⟨dest, condition, rest, hlanding, -, rfl⟩ := h
    obtain ⟨htarget, -⟩ := Option.filter_eq_some_iff.1 hlanding
    dsimp only
    split
    · exact List.mem_cons_self
    · simp [htarget]
  | jumpsub => exact absurd hmove hcall
  | returnsub => exact absurd hmove hreturn

theorem Counts.goTo (h : m.Counts s) (ins : Instruction) (pc : Nat) {words : List Word}
    (hlength : words.length = m.words.length - ins.opcode.pops + ins.opcode.pushes) :
    Counts ⟨pc, words, m.returns⟩ (s.goTo ins pc) :=
  ⟨rfl, by rw [hlength, h.height]; rfl, h.returns⟩

/-- At a call, the tally enters the routine. -/
theorem Counts.call (h : m.Counts s) (hmoves : Moves code ins m m') (haims : Aims code ins m)
    (hcounted : ins.opcode.Counted) (hcall : ins.opcode.move = .jumpsub) :
    ∃ s' ∈ s.moves code ins, m'.Counts s' := by
  have hlength := hmoves.length_words hcounted
  unfold Moves at hmoves
  unfold Aims at haims
  unfold Tally.moves
  simp only [hcall] at hmoves haims ⊢
  obtain ⟨word, rest, hwords, -, rfl⟩ := hmoves
  have htarget : code.target s.pc = some word.toNat := h.pc ▸ haims rfl word rest hwords
  have hgone : Counts ⟨word.toNat, rest, m.returns⟩ (s.goTo ins word.toNat) :=
    h.goTo ins word.toNat hlength
  refine ⟨s.enter ins word.toNat, by simp [htarget], hgone.pc, hgone.height, ?_⟩
  exact congrArg (ins.next :: ·) h.returns

/-- At a return, the tally leaves the routine. -/
theorem Counts.return (h : m.Counts s) (hmoves : Moves code ins m m')
    (hreturn : ins.opcode.move = .returnsub) : ∃ s' ∈ s.moves code ins, m'.Counts s' := by
  unfold Moves at hmoves
  unfold Tally.moves Tally.leave
  simp only [hreturn] at hmoves ⊢
  obtain ⟨place, rest, hreturns, rfl⟩ := hmoves
  have hframes := h.returns
  rw [hreturns] at hframes
  cases hopen : s.frames with
  | nil => rw [hopen] at hframes; cases hframes
  | cons frame frames =>
    rw [hopen] at hframes
    cases hframes
    exact ⟨_, List.mem_singleton_self _, rfl, h.height, rfl⟩

/-- A step that does not divert is a step of the tally. -/
theorem Counts.step (h : m.Counts s) (hstraight : ¬ Diverts code m) (hstep : Step code m m') :
    ∃ s', Tally.Step code s s' ∧ m'.Counts s' := by
  obtain ⟨ins, hdecode, hmoves⟩ := hstep
  have hcounted := Code.counted_of_decode hdecode
  have haims := aims_of_not_diverts hstraight hdecode
  unfold Tally.Step
  rw [Tally.next_of_decode (h.pc ▸ hdecode)]
  by_cases hcall : ins.opcode.move = .jumpsub
  · exact h.call hmoves haims hcounted hcall
  by_cases hreturn : ins.opcode.move = .returnsub
  · exact h.return hmoves hreturn
  · have hcounts := h.goTo ins m'.pc (hmoves.length_words hcounted)
    rw [← hmoves.returns_eq hcall hreturn] at hcounts
    exact ⟨_, hmoves.goTo_mem_moves haims h.pc hcall hreturn, hcounts⟩

/-- An execution that has not diverted has the heights of a tally. -/
theorem exists_tally (h : ReachableStraight code m) :
    ∃ s, Tally.Reachable code s ∧ m.Counts s := by
  induction h with
  | refl => exact ⟨{}, .refl, rfl, rfl, rfl⟩
  | tail _ hstep ih =>
    obtain ⟨s, hreachable, hcounts⟩ := ih
    obtain ⟨s', hstep', hcounts'⟩ := hcounts.step hstep.1 hstep.2
    exact ⟨s', hreachable.tail hstep', hcounts'⟩

/-- Where a jump misses, it diverts from the walk. -/
theorem diverts_of_misses (h : m.Counts s) (hsafe : Tally.Safe code last s)
    (hmisses : Misses code m) : Diverts code m := by
  obtain ⟨ins, word, rest, hdecode, hmove, hwords, hland⟩ := hmisses
  refine ⟨ins, word, rest, hdecode, hmove, hwords, ?_⟩
  intro htarget
  rw [h.pc] at hdecode htarget
  obtain ⟨dest, hdest, hisDest⟩ := (hsafe.aims ins hdecode).1 hmove
  rw [htarget] at hdest
  injection hdest with hdest
  rw [hdest, hisDest] at hland
  cases hland

/-- Where the walk makes its promises, a machine can fault in one way only. -/
theorem misses_of_faults (h : m.Counts s) (hsafe : Tally.Safe code last s)
    (hfaults : Faults code m) : Misses code m := by
  obtain ⟨ins, hdecode, hmove, hpops⟩ := hsafe.executes
  rw [← h.pc] at hdecode
  have hins {ins' : Instruction} (h : code.decode m.pc = .ok ins') : ins' = ins := by
    rw [hdecode] at h
    cases h
    rfl
  cases hfaults with
  | undefined hundefined => rw [hdecode] at hundefined; cases hundefined
  | invalid hdecode' hinvalid => exact absurd (hins hdecode' ▸ hinvalid) hmove
  | underflow hdecode' hlt =>
    rw [hins hdecode', h.height] at hlt
    omega
  | misses hmisses => exact hmisses
  | strays hdecode' hrelative hlanding =>
    obtain ⟨dest, htarget, hdest⟩ := (hsafe.aims _ (h.pc ▸ hdecode')).2 hrelative
    cases (Instruction.relativeLanding_of_target htarget hdest).symm.trans hlanding
  | noFrame hdecode' hreturn hreturns =>
    obtain ⟨frame, rest, hframes, -⟩ := hsafe.returns _ (h.pc ▸ hdecode') hreturn
    rw [h.returns, hframes] at hreturns
    cases hreturns

/-- **Until an execution of an accepted code diverts from the walk, it can fault in one way
only:** at a jump or a call that pops a word where no jump may land, and there it diverts. -/
theorem faults_iff_misses {analysis : Analysis} (haccepted : code.validate = .ok analysis)
    (h : ReachableStraight code m) :
    (Faults code m ↔ Misses code m) ∧ (Misses code m → Diverts code m) := by
  obtain ⟨last, hfinish, -, -⟩ := Code.finish_of_validate haccepted
  obtain ⟨s, hreachable, hcounts⟩ := exists_tally h
  obtain ⟨path, htracks⟩ := Tally.tracked_of_reachable hfinish hreachable
  have hsafe := Tally.safe_of_tracks hfinish htracks
  exact ⟨⟨misses_of_faults hcounts hsafe, .misses⟩, diverts_of_misses hcounts hsafe⟩

end Machine

end EvmSafety
