/-
Every instruction is walked once.

A block entry is opened once, by the first path that reaches it; the record turns all later
ones away.  From a block entry the walk goes on instruction by instruction, and as
instructions tile the code, the one before is known from the one after.  So no two paths are
ever at the same instruction, and what the walk found there is a function of the offset.

Two such functions are named.  `target` is the destination that the walk popped at a jump,
and the record at a block entry is the arrival of the one path that was visited there.
-/
import EvmSafety.Proofs.Contexts

namespace EvmSafety

/-- What the walk pops as a destination if it is about to execute the instruction at `site`. -/
def Walk.popped (code : Code) (site : Nat) (w : Walk) : Option Nat :=
  match w.cursor with
  | .inside path =>
    if path.pc = site then
      match path.state.stack.takeDestination code with
      | .ok dest _ => some dest
      | .error _ _ => none
    else none
  | .arriving _ | .idle => none

namespace Code

/-- The destination that the walk popped at an instruction. -/
def target (code : Code) (site : Nat) : Option Nat :=
  code.walks.findSome? (Walk.popped code site)

/-- The walk at some moment is sent to `pc` with this state, be it a block entry or not. -/
def Reaches (code : Code) (pc : Nat) (state : State) : Prop :=
  code.Arrives ⟨pc, state⟩ ∨ code.Visited ⟨pc, state⟩

variable {code : Code} {last : Walk}

theorem grows_of_le {w w' : Walk} {n m : Nat} (hw : code.walks[n]? = some w)
    (hw' : code.walks[m]? = some w') (hle : n ≤ m) : w.Grows w' := by
  induction m generalizing w' with
  | zero =>
    obtain rfl : n = 0 := Nat.le_zero.1 hle
    rw [hw] at hw'
    cases hw'
    exact .refl w
  | succ m ih =>
    by_cases hlast : n = m + 1
    · subst hlast
      rw [hw] at hw'
      cases hw'
      exact .refl w
    · obtain ⟨w₁, hw₁, hstep⟩ := Walk.getElem?_trace_succ.1 hw'
      exact (ih hw₁ (by omega)).trans (Walk.grows_of_step (Walk.step_of_eq hstep))

/-! ### How the walk comes to an instruction -/

/-- The `n`-th step of the walk opens a block with this path. -/
def OpenedAt (code : Code) (n : Nat) (path : Path) : Prop :=
  ∃ w w', code.walks[n]? = some w ∧ code.walks[n + 1]? = some w' ∧
    w.cursor = .arriving path ∧ w.arrivals[path.pc]? = none ∧
    w'.arrivals[path.pc]? = some path.arrival

/-- The walk goes on to this path from the instruction right before it. -/
def AdvancedTo (code : Code) (path : Path) : Prop :=
  ∃ before ins, code.Visited before ∧ code.decode before.pc = .ok ins ∧ ins.next = path.pc ∧
    ins.execute code before.state = .ok .advance path.state

theorem straight_of_advance {w : Walk} (hw : w ∈ code.walks) {path : Path} {ins : Instruction}
    {state : State} (hcursor : w.cursor = .inside path)
    (hexecute : ins.execute code path.state = .ok .advance state) :
    ∃ own, ins.Straight path.state.stack.own own ∧
      state = ⟨.on own path.state.stack.below, path.state.frames⟩ := by
  have hsound := sound_of_mem_walks hw
  obtain ⟨hexecutes, -⟩ := hsound.executes (.inr hcursor) hexecute
  cases hexecutes with
  | straight h => exact ⟨_, h, rfl⟩

/-- A path is visited because it opens a block, or by going on inside one. -/
theorem opened_or_advanced {path : Path} (h : code.Visited path) :
    (code.BeginsBlock path.pc ∧ ∃ n, code.OpenedAt n path) ∨
      (¬ code.BeginsBlock path.pc ∧ code.AdvancedTo path) := by
  obtain ⟨w', hw', hcursor'⟩ := h
  obtain ⟨n, hn⟩ := List.mem_iff_getElem?.1 hw'
  cases n with
  | zero =>
    rw [walks, Walk.getElem?_trace_zero] at hn
    cases hn
    cases hcursor'
  | succ n =>
    obtain ⟨w, hw, hstep⟩ := Walk.getElem?_trace_succ.1 hn
    have hmem : w ∈ code.walks := List.mem_of_getElem? hw
    rcases Walk.inside_of_step (Walk.step_of_eq hstep) hcursor' with ⟨hcursor, hnew, hseen⟩ |
      ⟨before, ins, hcursor, hdecode, hexecute, hnext, hdest⟩
    · have hbegins := (sound_of_mem_walks hmem).begins path (.inr (.inr hcursor))
      exact .inl ⟨hbegins, n, w, w', hw, hn, hcursor, hnew, hseen⟩
    · obtain ⟨own, hstraight, -⟩ := straight_of_advance hmem hcursor hexecute
      refine .inr ⟨?_, before, ins, ⟨w, hmem, hcursor⟩, hdecode, hnext, hexecute⟩
      intro hbegins
      rw [← hnext] at hbegins hdest
      refine hdest (isDest_of_beginsBlock hdecode hbegins ?_)
      have hmove := hstraight.isStraight
      rintro (h | h | h) <;> rw [h] at hmove <;> cases hmove

/-- A block is opened by one path only. -/
theorem opened_unique {n n' : Nat} {path path' : Path} (h : code.OpenedAt n path)
    (h' : code.OpenedAt n' path') (hpc : path.pc = path'.pc) : path = path' := by
  obtain ⟨w, w₁, hw, hw₁, hcursor, hnew, hseen⟩ := h
  obtain ⟨w', w₁', hw', hw₁', hcursor', hnew', hseen'⟩ := h'
  rcases Nat.lt_trichotomy n n' with hlt | rfl | hlt
  · have hstill := (grows_of_le hw₁ hw' hlt).arrivals _ _ hseen
    rw [hpc, hnew'] at hstill
    cases hstill
  · rw [hw] at hw'
    cases hw'
    rw [hcursor] at hcursor'
    cases hcursor'
    rfl
  · have hstill := (grows_of_le hw₁' hw hlt).arrivals _ _ hseen'
    rw [← hpc, hnew] at hstill
    cases hstill

/-- **No two paths are visited at one offset.** -/
theorem visited_unique {path path' : Path} (h : code.Visited path) (h' : code.Visited path')
    (hpc : path.pc = path'.pc) : path = path' := by
  -- The instruction before a path that has advanced starts at a lower offset.
  induction hn : path.pc using Nat.strongRecOn generalizing path path' with
  | _ n ih =>
    rcases opened_or_advanced h with ⟨hbegins, m, hopened⟩ | ⟨hinside, hadvanced⟩
    · rcases opened_or_advanced h' with ⟨-, m', hopened'⟩ | ⟨hinside', -⟩
      · exact opened_unique hopened hopened' hpc
      · exact absurd (hpc ▸ hbegins) hinside'
    · rcases opened_or_advanced h' with ⟨hbegins', -⟩ | ⟨-, hadvanced'⟩
      · exact absurd (hpc ▸ hbegins') hinside
      · obtain ⟨before, ins, hbefore, hdecode, hnext, hexecute⟩ := hadvanced
        obtain ⟨before', ins', hbefore', hdecode', hnext', hexecute'⟩ := hadvanced'
        have hsame : ins.next = ins'.next := by rw [hnext, hnext', hpc]
        have hbeforePc : before.pc = before'.pc := decode_next_inj hdecode hdecode' hsame
        have hlt : before.pc < n := by
          rw [← hn, ← hnext]
          exact lt_next_of_decode hdecode
        obtain rfl := ih before.pc hlt hbefore hbefore' hbeforePc rfl
        rw [hdecode] at hdecode'
        cases hdecode'
        rw [hexecute] at hexecute'
        injection hexecute' with _ hstate
        cases path
        cases path'
        simp_all

/-! ### What is found at an offset -/

/-- **The target of a jump is the destination popped by the path that is visited there.** -/
theorem target_of_visited {path : Path} (h : code.Visited path) {dest : Nat} {stack : Stack}
    (hpop : path.state.stack.takeDestination code = .ok dest stack) :
    code.target path.pc = some dest := by
  obtain ⟨w, hw, hcursor⟩ := h
  have hpopped : w.popped code path.pc = some dest := by simp [Walk.popped, hcursor, hpop]
  have hsome : (code.target path.pc).isSome := by
    rw [target, List.findSome?_isSome_iff]
    exact ⟨w, hw, by rw [hpopped]; rfl⟩
  obtain ⟨found, hfound⟩ := Option.isSome_iff_exists.1 hsome
  obtain ⟨w', hw', hpopped'⟩ := List.exists_of_findSome?_eq_some hfound
  unfold Walk.popped at hpopped'
  split at hpopped'
  · next path' hcursor' =>
    split at hpopped'
    · next hpc =>
      obtain rfl := visited_unique ⟨w', hw', hcursor'⟩ ⟨w, hw, hcursor⟩ hpc
      rw [hpop] at hpopped'
      rw [hfound]
      exact hpopped'.symm
    · cases hpopped'
  · cases hpopped'
  · cases hpopped'

/-- A constant on top of the own slots is the target, if a jump may land there. -/
theorem target_of_own {path : Path} (h : code.Visited path) {word : Word} {own : List Slot}
    (hown : path.state.stack.own = .constant word :: own)
    (hdest : code.isDest word.toNat = true) : code.target path.pc = some word.toNat := by
  have hpop : path.state.stack.takeDestination code
      = .ok word.toNat (.on own path.state.stack.below) := by
    rw [← Stack.on_own_below h.based, hown, Stack.takeDestination_on_constant, if_pos hdest,
      Stack.below_on]
  exact target_of_visited h hpop

theorem last_mem_walks (hfinish : Walk.start.finish code = .ok last) : last ∈ code.walks :=
  (Walk.last_of_finish start_mem_walks hfinish).1

/-- The record at a block entry is the arrival of the path that is visited there. -/
theorem recorded_of_visited (hfinish : Walk.start.finish code = .ok last) {path : Path}
    (h : code.Visited path) (hbegins : code.BeginsBlock path.pc) :
    last.arrivals[path.pc]? = some path.arrival := by
  rcases opened_or_advanced h with ⟨-, n, w, w', -, hw', -, -, hseen⟩ | ⟨hinside, -⟩
  · exact (grows_last hfinish (List.mem_of_getElem? hw')).arrivals _ _ hseen
  · exact absurd hbegins hinside

/-- Where the walk is sent, a path is visited in the same routine and at the same depth. -/
theorem exists_visited_of_reaches (hfinish : Walk.start.finish code = .ok last) {pc : Nat}
    {state : State} (h : code.Reaches pc state) :
    ∃ path, code.Visited path ∧ path.pc = pc ∧
      path.arrival = ⟨state.routine, state.stack.depth⟩ := by
  rcases h with h | h
  · exact exists_visited_of_arrivals (last_mem_walks hfinish) (arrival_of_arrives hfinish h)
  · exact ⟨_, h, rfl, rfl⟩

end Code

end EvmSafety
