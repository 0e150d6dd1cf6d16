/-
What a rejection is about.

The walk compares with records, goes past calls on the strength of what a routine left for
another caller, and lets callers wait; a violation that it meets could be one of its own
making.  It is not.  Whatever a program is rejected for, unless it is an overflow, plain walks
show it: one of them fails at the offset with that kind, or two of them come to one place in
ways that do not go together.

Overflows are left out.  The plain walk has no ceilings, and those that the walk keeps to are
also judged on call chains that no path need take.
-/
import EvmSafety.Proofs.Faults
import EvmSafety.Proofs.Replay
import EvmSafety.Proofs.Waiting
import Mathlib.Control.Monad.Basic

namespace EvmSafety

/-! ### What plain walks show -/

namespace Code

/-- Some plain walk comes to `offset` and fails there with this kind. -/
def FailsAt (code : Code) (offset : Nat) (kind : Violation.Kind) : Prop :=
  ∃ path, code.PlainlyReaches path ∧ path.pc = offset ∧ path.after code = .error kind

/-- Two plain walks come to `offset` in the same routine at different depths. -/
def MisalignedAt (code : Code) (offset : Nat) : Prop :=
  ∃ path path', code.PlainlyReaches path ∧ code.PlainlyReaches path' ∧
    path.pc = offset ∧ path'.pc = offset ∧ path.state.routine = path'.state.routine ∧
    path.state.stack.depth ≠ path'.state.stack.depth

/-- Two plain walks return from the same routine at different depths, one of them at
`offset`. -/
def ReturnsUnevenlyAt (code : Code) (offset : Nat) : Prop :=
  ∃ entry path path', code.ReturnsFrom entry path ∧ code.ReturnsFrom entry path' ∧
    path.pc = offset ∧ path.state.stack.depth ≠ path'.state.stack.depth

/-- Some plain walk executes a jump or a call at `offset` and fails, because it names its
destination statically and no jump may land there. -/
def StraysAt (code : Code) (offset : Nat) : Prop :=
  ∃ path ins, code.PlainlyReaches path ∧ path.pc = offset ∧
    code.decode path.pc = .ok ins ∧ ins.Strays code path.state.stack.own ∧
    path.after code = .error .invalidDestination

/-- A call along one path leads to the other. -/
def CallsInto (code : Code) (path path' : Path) : Prop :=
  ∃ ins entry state, code.decode path.pc = .ok ins ∧
    ins.perform code path.state = .ok (.call entry) state ∧
    path' = ⟨entry, state.entered ins.next entry⟩

/-- Two plain walks come to one place in different routines, and `offset` is that place or the
call through which one of them came there. -/
def SharedAt (code : Code) (offset : Nat) : Prop :=
  ∃ path path', code.PlainlyReaches path ∧ code.PlainlyReaches path' ∧
    path.pc = path'.pc ∧ path.state.routine ≠ path'.state.routine ∧
    (path.pc = offset ∨
      ∃ caller, code.PlainlyReaches caller ∧ caller.pc = offset ∧ code.CallsInto caller path)

/-- Plain walks show a violation of this kind at `offset`.  An overflow they never show, as
they have no ceilings. -/
def Shows (code : Code) (offset : Nat) : Violation.Kind → Prop
  | .invalidInstruction => code.FailsAt offset .invalidInstruction
  | .dynamicJump => code.FailsAt offset .dynamicJump
  | .stackUnderflow => code.FailsAt offset .stackUnderflow
  | .stackMisalignment => code.MisalignedAt offset ∨ code.ReturnsUnevenlyAt offset
  | .invalidDestination => code.StraysAt offset ∨ code.SharedAt offset
  | .stackOverflow => False

end Code

/-! ### What the walk rejects -/

namespace Walk

variable {code : Code} {w : Walk}

/-- Whose call leads to more slots or frames than there may be. -/
inductive Overflows (code : Code) (w : Walk) : Nat → Prop
  /-- The call that is executed. -/
  | calling {path : Path} {ins : Instruction} {entry : Nat} {state : State}
      (hcursor : w.cursor = .inside path) (hdecode : code.decode path.pc = .ok ins)
      (hexecute : ins.execute code path.state = .ok (.call entry) state) :
      Overflows code w path.pc
  /-- The call of a caller that waits. -/
  | waiting {caller : Waiting} (hcaller : caller ∈ w.waiting) : Overflows code w caller.site

/-- Why a step of the walk meets a violation. -/
inductive Rejects (code : Code) (w : Walk) : Violation → Prop
  /-- A stack outgrows its limit at a call. -/
  | overflow {offset : Nat} (hoverflows : Overflows code w offset) :
      Rejects code w ⟨offset, .stackOverflow⟩
  /-- No instruction can be read. -/
  | unreadable {path : Path} {cause : Unreadable} (hcursor : w.cursor = .inside path)
      (hdecode : code.decode path.pc = .error cause) : Rejects code w ⟨path.pc, cause.kind⟩
  /-- The instruction fails. -/
  | fault {path : Path} {ins : Instruction} {kind : Violation.Kind} {state : State}
      (hcursor : w.cursor = .inside path) (hdecode : code.decode path.pc = .ok ins)
      (hexecute : ins.execute code path.state = .error kind state) :
      Rejects code w ⟨path.pc, kind⟩
  /-- A block is on record for another routine. -/
  | foreign {path : Path} {seen : Arrival} (hcursor : w.cursor = .arriving path)
      (hseen : w.arrivals[path.pc]? = some seen) (hother : seen.routine ≠ path.state.routine) :
      Rejects code w ⟨path.pc, .invalidDestination⟩
  /-- A block is on record at another depth. -/
  | misaligned {path : Path} {seen : Arrival} (hcursor : w.cursor = .arriving path)
      (hseen : w.arrivals[path.pc]? = some seen) (hsame : seen.routine = path.state.routine)
      (hother : seen.depth ≠ path.state.stack.depth) :
      Rejects code w ⟨path.pc, .stackMisalignment⟩
  /-- What is called is on record for another routine. -/
  | owned {path : Path} {ins : Instruction} {entry : Nat} {state : State} {seen : Arrival}
      (hcursor : w.cursor = .inside path) (hdecode : code.decode path.pc = .ok ins)
      (hexecute : ins.execute code path.state = .ok (.call entry) state)
      (hseen : w.arrivals[entry]? = some seen) (hother : seen.routine ≠ .sub entry) :
      Rejects code w ⟨path.pc, .invalidDestination⟩
  /-- The routine is known to leave another number of slots. -/
  | uneven {path : Path} {ins : Instruction} {net known : Nat} {frame : Frame} {state : State}
      (hcursor : w.cursor = .inside path) (hdecode : code.decode path.pc = .ok ins)
      (hexecute : ins.execute code path.state = .ok (.back net frame) state)
      (hknown : w.nets[frame.entry]? = some known) (hother : known ≠ net) :
      Rejects code w ⟨path.pc, .stackMisalignment⟩
  /-- The frame does not lead behind a call. -/
  | unframed {path : Path} {ins : Instruction} {net : Nat} {frame : Frame} {state : State}
      (hcursor : w.cursor = .inside path)
      (hexecute : ins.execute code path.state = .ok (.back net frame) state)
      (hframe : code.isBehindCall frame.returnTo ≠ true) :
      Rejects code w ⟨path.pc, .invalidDestination⟩

theorem rejects_of_arrive {path : Path} {rejection : Rejection}
    (hcursor : w.cursor = .arriving path) (h : w.arrive path = .error rejection) :
    Rejects code w rejection.violation := by
  unfold arrive at h
  split at h
  · cases h
  · next seen hseen =>
    split at h
    · next hother =>
      cases h
      exact .foreign hcursor hseen hother
    · next hsame =>
      split at h
      · next hother =>
        cases h
        exact .misaligned hcursor hseen (Decidable.not_not.1 hsame) hother
      · cases h

theorem kind_of_pad {net : Nat} {state state' : State} {fault : StackFault}
    (h : State.onStack (Stack.pad net) state = .error fault state') :
    fault.kind = .stackOverflow := by
  rw [State.onStack_pad] at h
  by_cases hroom : state.stack.size + net ≤ stackCapacity
  · rw [if_pos hroom] at h
    cases h
  · rw [if_neg hroom] at h
    cases h
    rfl

theorem kind_of_call {entry returnTo : Nat} {state state' : State} {fault : StackFault}
    (h : State.call entry returnTo state = .error fault state') :
    fault.kind = .stackOverflow := by
  rw [State.call_apply] at h
  by_cases hroom : state.frames.length < stackCapacity
  · rw [if_pos hroom] at h
    cases h
  · rw [if_neg hroom] at h
    cases h
    rfl

theorem rejects_of_call {path : Path} {ins : Instruction} {entry : Nat} {state : State}
    {rejection : Rejection} (hcursor : w.cursor = .inside path)
    (hdecode : code.decode path.pc = .ok ins)
    (hexecute : ins.execute code path.state = .ok (.call entry) state)
    (h : w.call ins.offset entry ins.next state = .error rejection) :
    Rejects code w rejection.violation := by
  have hoffset := Code.offset_of_decode hdecode
  unfold call at h
  dsimp only at h
  split at h
  · unfold enter at h
    split at h
    · next hcall =>
      cases h
      rw [kind_of_call hcall, hoffset]
      exact .overflow (.calling hcursor hdecode hexecute)
    · cases h
  · next seen hseen =>
    split at h
    · next hother =>
      cases h
      rw [hoffset]
      exact .owned hcursor hdecode hexecute hseen hother
    · split at h
      · unfold skipCall at h
        split at h
        · next hpad =>
          cases h
          rw [kind_of_pad hpad, hoffset]
          exact .overflow (.calling hcursor hdecode hexecute)
        · cases h
      · cases h

theorem rejects_of_back {path : Path} {ins : Instruction} {net : Nat} {frame : Frame}
    {state : State} {rejection : Rejection} (hcursor : w.cursor = .inside path)
    (hdecode : code.decode path.pc = .ok ins)
    (hexecute : ins.execute code path.state = .ok (.back net frame) state)
    (h : w.back code ins.offset net frame state = .error rejection) :
    Rejects code w rejection.violation := by
  have hoffset := Code.offset_of_decode hdecode
  unfold back at h
  split at h
  · cases hfix : w.fixNet ins.offset frame.entry net with
    | ok fixed => simp [hfix, bind, Except.bind, pure, Except.pure] at h
    | error other =>
      simp only [hfix, bind, Except.bind, Except.error.injEq] at h
      subst h
      unfold fixNet at hfix
      split at hfix
      · next known hknown =>
        split at hfix
        · cases hfix
        · next hother =>
          cases hfix
          rw [hoffset]
          exact .uneven hcursor hdecode hexecute hknown hother
      · unfold release at hfix
        dsimp only at hfix
        rcases foldlM_resume net _ _ with ⟨-, fixed, hfixed⟩ | ⟨caller, hcaller, -, log, hlog⟩
        · rw [hfixed] at hfix
          cases hfix
        · rw [hlog] at hfix
          cases hfix
          exact .overflow (.waiting (List.mem_filter.1 (List.mem_reverse.1 hcaller)).1)
  · next hframe =>
    cases h
    rw [hoffset]
    exact .unframed hcursor hexecute hframe

/-- **Every violation that a step meets is one of the listed ones.** -/
theorem rejects_of_step {rejection : Rejection} (h : w.step code = .error rejection) :
    Rejects code w rejection.violation := by
  unfold step at h
  split at h
  · next path hcursor =>
    unfold execute at h
    cases hdecode : code.decode path.pc with
    | error cause =>
      simp only [hdecode, reject, Functor.map, Except.map, Except.error.injEq] at h
      subst h
      exact .unreadable hcursor hdecode
    | ok ins =>
      cases hexecute : ins.execute code path.state with
      | error kind state =>
        simp only [hdecode, hexecute, reject, Functor.map, Except.map, Except.error.injEq] at h
        subst h
        exact .fault hcursor hdecode hexecute
      | ok flow state =>
        cases hfollow : w.follow code ins state flow with
        | ok w' => simp [hdecode, hexecute, hfollow, Functor.map, Except.map] at h
        | error other =>
          simp only [hdecode, hexecute, hfollow, Functor.map, Except.map,
            Except.error.injEq] at h
          subst h
          cases flow with
          | call entry => exact rejects_of_call hcursor hdecode hexecute hfollow
          | back net frame => exact rejects_of_back hcursor hdecode hexecute hfollow
          | _ => cases hfollow
  · next path hcursor =>
    cases harrive : w.arrive path with
    | ok w' => simp [harrive, Functor.map, Except.map] at h
    | error other =>
      simp only [harrive, Functor.map, Except.map, Except.error.injEq] at h
      subst h
      exact rejects_of_arrive hcursor harrive
  · split at h
    · cases h
    · cases h

/-- A run that meets a violation meets it in the last walk that it goes through. -/
theorem getLast?_trace_of_error {rejection : Rejection} (h : w.finish code = .error rejection) :
    ∃ last, (w.trace code).getLast? = some last ∧ last.step code = .error rejection := by
  induction w using finish.induct code with
  | case1 w other hstep =>
    rw [finish_eq_error hstep] at h
    cases h
    refine ⟨w, ?_, hstep⟩
    rw [trace_of_end fun w' hw' => by rw [hstep] at hw'; cases hw']
    rfl
  | case2 w hstep =>
    rw [finish_eq_self hstep] at h
    cases h
  | case3 w w' hstep ih =>
    rw [finish_eq_finish hstep] at h
    obtain ⟨last, hlast, hend⟩ := ih h
    refine ⟨last, ?_, hend⟩
    rw [trace_of_step hstep, List.getLast?_cons, hlast]
    rfl

end Walk

namespace Code

variable {code : Code}

/-- A program is rejected for a violation that the last step of the walk meets, or for an
overflow that the survey of the call graph finds. -/
theorem validate_eq_error {violation : Violation} (h : code.validate = .error violation) :
    (∃ rejection w, Walk.start.finish code = .error rejection ∧
        code.walks.getLast? = some w ∧ w.Rejects code violation) ∨
      ∃ last overflow, Walk.start.finish code = .ok last ∧
        last.graph.highestDepth = .error overflow ∧ overflow.violation = violation := by
  cases hfinish : Walk.start.finish code with
  | error rejection =>
    rw [validate_of_rejection hfinish] at h
    cases h
    obtain ⟨w, hlast, hstep⟩ := Walk.getLast?_trace_of_error hfinish
    exact .inl ⟨rejection, w, rfl, hlast, Walk.rejects_of_step hstep⟩
  | ok last =>
    rw [validate_of_finish hfinish] at h
    unfold judge at h
    split at h
    · cases h
    · next overflow hoverflow =>
      cases h
      exact .inr ⟨last, overflow, rfl, hoverflow, rfl⟩

/-- A program is rejected for an overflow, or for a violation that a step of the walk meets. -/
theorem rejects_of_validate {violation : Violation} (h : code.validate = .error violation) :
    violation.kind = .stackOverflow ∨ ∃ w ∈ code.walks, w.Rejects code violation := by
  rcases validate_eq_error h with ⟨-, w, -, hlast, hrejects⟩ | ⟨last, overflow, -, -, rfl⟩
  · exact .inr ⟨w, List.mem_of_getLast? hlast, hrejects⟩
  · cases overflow <;> exact .inl rfl

/-- What is on record of a block was shown by a plain walk. -/
theorem exists_plainlyReaches_of_arrivals {w : Walk} (hw : w ∈ code.walks) {pc : Nat}
    {seen : Arrival} (h : w.arrivals[pc]? = some seen) :
    ∃ path, code.PlainlyReaches path ∧ path.pc = pc ∧ path.state.routine = seen.routine ∧
      path.state.stack.depth = seen.depth := by
  obtain ⟨path, hvisited, hpc, rfl⟩ := exists_visited_of_arrivals hw h
  exact ⟨path, hvisited.plainlyReaches, hpc, rfl, rfl⟩

/-- An instruction that fails does so on a plain walk. -/
theorem shows_of_fault {path : Path} {ins : Instruction} {kind : Violation.Kind} {state : State}
    (hreaches : code.PlainlyReaches path)
    (hbased : path.state.stack.base ≤ path.state.stack.size)
    (hdecode : code.decode path.pc = .ok ins)
    (hexecute : ins.execute code path.state = .error kind state) (hkind : kind ≠ .stackOverflow) :
    code.Shows path.pc kind := by
  have hafter := Instruction.after_of_execute hdecode hexecute hkind
  rw [State.eq_on hbased] at hexecute
  have hfails := Instruction.fails_of_execute (counted_of_decode hdecode) hexecute
  cases kind with
  | invalidInstruction => exact ⟨path, hreaches, rfl, hafter⟩
  | dynamicJump => exact ⟨path, hreaches, rfl, hafter⟩
  | stackUnderflow => exact ⟨path, hreaches, rfl, hafter⟩
  | stackOverflow => exact absurd rfl hkind
  | stackMisalignment => cases hfails
  | invalidDestination =>
    cases hfails with
    | strays hstrays => exact .inl ⟨path, ins, hreaches, rfl, hdecode, hstrays, hafter⟩

/-- **Plain walks show every violation that a step meets,** unless it is an overflow. -/
theorem shows_of_rejects {w : Walk} (hw : w ∈ code.walks) {violation : Violation}
    (h : w.Rejects code violation) (hkind : violation.kind ≠ .stackOverflow) :
    code.Shows violation.offset violation.kind := by
  have hinside {path : Path} (hcursor : w.cursor = .inside path) : code.PlainlyReaches path :=
    plainlyReaches_of_ready hw (.inr (.inr hcursor))
  have harriving {path : Path} (hcursor : w.cursor = .arriving path) :
      code.PlainlyReaches path := plainlyReaches_of_ready hw (.inr (.inl hcursor))
  cases h with
  | overflow => exact absurd rfl hkind
  | @unreadable path cause hcursor hdecode =>
    have hcause : cause.kind = .invalidInstruction := by cases cause <;> rfl
    have hafter : path.after code = .error cause.kind := by rw [Path.after, hdecode]
    rw [hcause] at hafter ⊢
    exact ⟨path, hinside hcursor, rfl, hafter⟩
  | fault hcursor hdecode hexecute =>
    exact shows_of_fault (hinside hcursor)
      ((sound_of_mem_walks hw).based _ (.inr hcursor)) hdecode hexecute hkind
  | foreign hcursor hseen hother =>
    obtain ⟨opener, hopener, hpc, hroutine, -⟩ := exists_plainlyReaches_of_arrivals hw hseen
    exact .inr ⟨_, opener, harriving hcursor, hopener, hpc.symm,
      fun hsame => hother (hroutine ▸ hsame.symm), .inl rfl⟩
  | misaligned hcursor hseen hsame hother =>
    obtain ⟨opener, hopener, hpc, hroutine, hdepth⟩ := exists_plainlyReaches_of_arrivals hw hseen
    exact .inl ⟨_, opener, harriving hcursor, hopener, rfl, hpc, (hroutine.trans hsame).symm,
      fun heq => hother (hdepth ▸ heq.symm)⟩
  | @owned path ins entry state seen hcursor hdecode hexecute hseen hother =>
    obtain ⟨opener, hopener, hpc, hroutine, -⟩ := exists_plainlyReaches_of_arrivals hw hseen
    -- The walk turns back at the call; a plain walk goes in, and so comes to the entry too.
    have hperform := Instruction.perform_of_execute hexecute
    have hcaller := hinside hcursor
    have hcalled : code.PlainlyReaches ⟨entry, state.entered ins.next entry⟩ :=
      hcaller.tail (plainStep_of_perform hdecode hperform (List.mem_singleton_self _))
    exact .inr ⟨_, opener, hcalled, hopener, hpc.symm,
      fun hsame => hother (hroutine ▸ hsame.symm),
      .inr ⟨path, hcaller, rfl, ins, entry, state, hdecode, hperform, rfl⟩⟩
  | @uneven path ins net known frame state hcursor hdecode hexecute hknown hother =>
    have hexecuting : w.Executing code path ins (.back net frame) state :=
      ⟨hcursor, hdecode, hexecute⟩
    obtain ⟨hreturns, hdepth⟩ := hexecuting.returnsFrom hw (hinside hcursor)
    obtain ⟨hearlier, -, hearlierDepth, -⟩ := (code.replayed.given_of_mem_walks hw).nets _ _ hknown
    refine .inr ⟨frame.entry, path, _, hreturns, hearlier, rfl, ?_⟩
    rw [hdepth, hearlierDepth]
    exact Ne.symm hother
  | unframed hcursor hexecute hframe =>
    exact absurd (isBehindCall_of_back hw hcursor hexecute) hframe

/-- **Whatever a program is rejected for, plain walks show it,** unless it is an overflow. -/
theorem shows_of_rejected {violation : Violation} (hrejected : code.validate = .error violation)
    (hkind : violation.kind ≠ .stackOverflow) : code.Shows violation.offset violation.kind := by
  rcases rejects_of_validate hrejected with hoverflow | ⟨w, hw, hrejects⟩
  · exact absurd hoverflow hkind
  · exact shows_of_rejects hw hrejects hkind

/-- A program that calls a routine twice, and jumps to what the second call leaves. -/
def jumpsToResult : Array UInt8 :=
  #[0x60, 0x07, 0xE3, 0x60, 0x07, 0xE3, 0x56, 0x5B, 0x34, 0xE4]

/-- The walk goes past the second call; a plain walk takes it, and finds the same. -/
theorem shows_jumpsToResult :
    (ofBytes jumpsToResult .prague).validate = .error ⟨6, .dynamicJump⟩ ∧
      (ofBytes jumpsToResult .prague).Shows 6 .dynamicJump := by
  have hrejected : (ofBytes jumpsToResult .prague).validate = .error ⟨6, .dynamicJump⟩ := by
    decide +kernel
  exact ⟨hrejected, shows_of_rejected hrejected (by decide)⟩

end Code

end EvmSafety
