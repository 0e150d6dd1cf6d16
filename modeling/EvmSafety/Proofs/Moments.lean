/-
Every instruction is executed at one moment.

No two paths are ever at one instruction; here the same is shown of the moments of the run.
A path comes to an instruction in one of two ways.  Either it opens a block there, and the
record it leaves turns everything away that arrives later; or it goes on from the instruction
right before, and then nothing ever arrives there otherwise, because instructions tile the
code.  In both cases the moment is determined by an earlier one: the opening of the block, or
the execution of the instruction before.

So the offsets that a run executes, listed in the order in which it does, are without
duplicates.
-/
import EvmSafety.Proofs.Once
import Mathlib.Data.List.Nodup
import Mathlib.Data.List.Perm.Subperm

namespace EvmSafety

namespace Walk

/-- The offset of the instruction that the walk is about to execute, if it is. -/
def executing (w : Walk) : Option Nat :=
  match w.cursor with
  | .inside path => some path.pc
  | .arriving _ | .idle => none

theorem executing_of_inside {w : Walk} {path : Path} (h : w.cursor = .inside path) :
    w.executing = some path.pc := by
  rw [executing, h]

theorem inside_of_executing {w : Walk} {pc : Nat} (h : w.executing = some pc) :
    ∃ path, w.cursor = .inside path ∧ path.pc = pc := by
  unfold executing at h
  split at h
  · next path hcursor => exact ⟨path, hcursor, Option.some.inj h⟩
  · cases h
  · cases h

/-- The step opens a block with the path: nothing was on record of it before. -/
structure Opens (w w' : Walk) (path : Path) : Prop where
  arriving : w.cursor = .arriving path
  new : w.arrivals[path.pc]? = none
  recorded : w'.arrivals[path.pc]? = some path.arrival

/-- The step goes on to the path from the only instruction that leads there, and no path ever
arrives there otherwise. -/
structure FallsInto (code : Code) (w : Walk) (ins : Instruction) (path : Path) : Prop where
  executing : w.executing = some ins.offset
  decodes : code.decode ins.offset = .ok ins
  straight : ins.opcode.move.isStraight = true
  next : ins.next = path.pc
  only : ∀ site other, code.decode site = .ok other → other.next = path.pc → other = ins
  never : ∀ other, code.Arrives other → other.pc ≠ path.pc

end Walk

namespace Code

variable {code : Code}

theorem begins_of_arrives {path : Path} (h : code.Arrives path) : code.BeginsBlock path.pc := by
  obtain ⟨w, hw, hcursor⟩ := h
  exact (sound_of_mem_walks hw).begins path (.inr (.inr hcursor))

/-- **A path comes to an instruction by opening a block, or by going on from the instruction
right before.** -/
theorem opens_or_fallsInto {n : Nat} {w : Walk} {path : Path} (hn : code.walks[n]? = some w)
    (hcursor : w.cursor = .inside path) :
    ∃ m before, n = m + 1 ∧ code.walks[m]? = some before ∧
      (before.Opens w path ∨ ∃ ins, before.FallsInto code ins path) := by
  cases n with
  | zero =>
    rw [walks, Walk.getElem?_trace_zero] at hn
    cases hn
    cases hcursor
  | succ m =>
    obtain ⟨before, hm, hstep⟩ := Walk.getElem?_trace_succ.1 hn
    have hmem : before ∈ code.walks := List.mem_of_getElem? hm
    refine ⟨m, before, rfl, hm, ?_⟩
    rcases Walk.inside_of_step (Walk.step_of_eq hstep) hcursor with ⟨harriving, hnew, hseen⟩ |
      ⟨earlier, ins, hearlier, hdecode, hexecute, hnext, hdest⟩
    · exact .inl ⟨harriving, hnew, hseen⟩
    · obtain ⟨own, hstraight, -⟩ := straight_of_advance hmem hearlier hexecute
      have hmove := hstraight.isStraight
      have hoffset := offset_of_decode hdecode
      refine .inr ⟨ins, ?_, hoffset ▸ hdecode, hmove, hnext, ?_, ?_⟩
      · rw [Walk.executing_of_inside hearlier, hoffset]
      · intro site other hother hsame
        obtain rfl := decode_next_inj hother hdecode (hsame.trans hnext.symm)
        rw [hdecode] at hother
        cases hother
        rfl
      · intro other harrives hsame
        have hbegins : code.BeginsBlock ins.next := by
          rw [hnext, ← hsame]
          exact begins_of_arrives harrives
        refine hdest (hnext ▸ isDest_of_beginsBlock hdecode hbegins ?_)
        rintro (h | h | h) <;> rw [h] at hmove <;> cases hmove

/-- A block is opened at one moment. -/
theorem moment_of_opens {n m : Nat} {v v' w w' : Walk} {path path' : Path}
    (hv : code.walks[n]? = some v) (hv' : code.walks[n + 1]? = some v')
    (hw : code.walks[m]? = some w) (hw' : code.walks[m + 1]? = some w')
    (h : v.Opens v' path) (h' : w.Opens w' path') (hpc : path.pc = path'.pc) : n = m := by
  rcases Nat.lt_trichotomy n m with hlt | heq | hlt
  · have hstill := (grows_of_le hv' hw hlt).arrivals _ _ h.recorded
    rw [hpc, h'.new] at hstill
    cases hstill
  · exact heq
  · have hstill := (grows_of_le hw' hv hlt).arrivals _ _ h'.recorded
    rw [← hpc, h.new] at hstill
    cases hstill

/-- **An instruction is executed at one moment.** -/
theorem moment_unique {pc n m : Nat} {w w' : Walk} (hw : code.walks[n]? = some w)
    (hw' : code.walks[m]? = some w') (h : w.executing = some pc)
    (h' : w'.executing = some pc) : n = m := by
  -- The instruction before one that a path has gone on to starts at a lower offset.
  induction pc using Nat.strongRecOn generalizing n m w w' with
  | _ pc ih =>
    obtain ⟨path, hcursor, hpc⟩ := Walk.inside_of_executing h
    obtain ⟨path', hcursor', hpc'⟩ := Walk.inside_of_executing h'
    obtain ⟨k, v, rfl, hv, hcame⟩ := opens_or_fallsInto hw hcursor
    obtain ⟨l, v', rfl, hv', hcame'⟩ := opens_or_fallsInto hw' hcursor'
    have hsame : path.pc = path'.pc := hpc.trans hpc'.symm
    rcases hcame with hopens | ⟨ins, hfalls⟩
    · rcases hcame' with hopens' | ⟨ins', hfalls'⟩
      · exact congrArg (· + 1) (moment_of_opens hv hw hv' hw' hopens hopens' hsame)
      · exact absurd hsame
          (hfalls'.never path ⟨v, List.mem_of_getElem? hv, hopens.arriving⟩)
    · rcases hcame' with hopens' | ⟨ins', hfalls'⟩
      · exact absurd hsame.symm
          (hfalls.never path' ⟨v', List.mem_of_getElem? hv', hopens'.arriving⟩)
      · have hins : ins = ins' :=
          hfalls'.only _ _ hfalls.decodes (hfalls.next.trans hsame)
        subst hins
        have hlt : ins.offset < pc := by
          rw [← hpc, ← hfalls.next]
          exact lt_next_of_decode hfalls.decodes
        exact congrArg (· + 1) (ih _ hlt hv hv' hfalls.executing hfalls'.executing)

/-! ### The offsets that a run executes -/

/-- The offsets of the instructions that the walk executes, in the order in which it does. -/
def executed (code : Code) : List Nat :=
  code.walks.filterMap Walk.executing

/-- Those of the offsets that are executed before a moment. -/
def executedBefore (code : Code) (n : Nat) : List Nat :=
  (code.walks.take n).filterMap Walk.executing

/-- **No instruction is executed twice.** -/
theorem executed_nodup (code : Code) : code.executed.Nodup := by
  rw [executed, List.Nodup, List.pairwise_filterMap, List.pairwise_iff_getElem]
  intro n m hn hm hlt pc hpc pc' hpc' hsame
  subst hsame
  have hmoment := moment_unique (List.getElem?_eq_getElem hn) (List.getElem?_eq_getElem hm)
    hpc hpc'
  omega

theorem executedBefore_sublist (code : Code) (n : Nat) :
    (code.executedBefore n).Sublist code.executed :=
  (List.take_sublist n code.walks).filterMap _

theorem executedBefore_succ {n : Nat} {w : Walk} (h : code.walks[n]? = some w) :
    code.executedBefore (n + 1) = code.executedBefore n ++ w.executing.toList := by
  rw [executedBefore, List.take_add_one, h, Option.toList_some, List.filterMap_append]
  congr 1

/-- An instruction that is executed was not executed before. -/
theorem not_mem_executedBefore {n pc : Nat} {w : Walk} (h : code.walks[n]? = some w)
    (hpc : w.executing = some pc) : pc ∉ code.executedBefore n := by
  have hnodup := (executedBefore_sublist code (n + 1)).nodup (executed_nodup code)
  rw [executedBefore_succ h, hpc, Option.toList_some] at hnodup
  exact fun hmem => List.disjoint_of_nodup_append hnodup hmem (List.mem_singleton_self pc)

/-- The instructions executed before a moment of the run lie in the code. -/
theorem lt_size_of_mem_executedBefore {pc : Nat} :
    ∀ {n : Nat} {w : Walk}, code.walks[n]? = some w → pc ∈ code.executedBefore n →
      pc < code.size := by
  intro n
  induction n with
  | zero => intro w _ hpc; simp [executedBefore] at hpc
  | succ n ih =>
    intro w' hw' hpc
    obtain ⟨w, hw, hstep⟩ := Walk.getElem?_trace_succ.1 hw'
    rw [executedBefore_succ hw, List.mem_append, Option.mem_toList] at hpc
    rcases hpc with hpc | hpc
    · exact ih hw hpc
    · obtain ⟨path, hcursor, rfl⟩ := Walk.inside_of_executing hpc
      obtain ⟨ins, -, -, hdecode, -, -⟩ := (Walk.step_of_eq hstep).of_inside hcursor
      exact (offset_lt_of_decode hdecode).2

/-- So many instructions are executed before a moment of the run. -/
theorem length_executedBefore_le {n : Nat} {w : Walk} (h : code.walks[n]? = some w) :
    (code.executedBefore n).length ≤ code.size := by
  have hnodup := (executedBefore_sublist code n).nodup (executed_nodup code)
  have hsubset : code.executedBefore n ⊆ List.range code.size := by
    intro pc hpc
    exact List.mem_range.2 (lt_size_of_mem_executedBefore h hpc)
  have hle := (hnodup.subperm hsubset).length_le
  rwa [List.length_range] at hle

end Code

end EvmSafety
