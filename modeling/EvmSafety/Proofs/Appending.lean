/-
Bytes behind a code.

A longer code reads like the code it begins with, up to where that one ends: the same
instructions start at the same offsets, and jumps may land on the same places.  What is new
lies behind the end, and there the shorter code has nothing that a path could rest on: an
instruction that is read there is missing, and a jump that leads there may not land.

So the two walks take the same steps, unless the shorter code is rejected for a missing
instruction or for a destination.  In every other case, accepted or rejected, the result is
the same.
-/
import EvmSafety.Proofs.Walks
import Mathlib.Control.Monad.Basic

namespace EvmSafety

namespace Code

/-- The code with more bytes behind it. -/
def append (code : Code) (more : Array UInt8) : Code :=
  ofBytes (code.bytes ++ more) code.fork

variable {code : Code} {more : Array UInt8}

/-! ### Reading the longer code -/

theorem size_append (code : Code) (more : Array UInt8) :
    (code.append more).size = code.size + more.size :=
  Array.size_append

theorem marks_append {offset : Nat} (h : offset < code.size) :
    (code.append more).marks[offset]? = code.marks[offset]? := by
  have hsize : offset < (Sweep.ofBytes code.fork code.bytes).marks.size := by
    rw [Sweep.size_ofBytes]
    exact h
  have hmarks : (code.append more).marks
      = (Sweep.ofBytes code.fork (code.bytes ++ more)).marks := rfl
  rw [hmarks, Sweep.ofBytes_append, ← Array.foldl_toList, Sweep.getElem?_marks_foldl_next hsize,
    code.marks_eq]

theorem isStart_append {offset : Nat} (h : offset < code.size) :
    (code.append more).isStart offset = code.isStart offset := by
  rw [isStart, isStart, marks_append h]

theorem isDest_append {offset : Nat} (h : offset < code.size) :
    (code.append more).isDest offset = code.isDest offset := by
  rw [isDest, isDest, marks_append h]

/-- Jumps land inside the code. -/
theorem lt_size_of_isDest {offset : Nat} (h : code.isDest offset = true) :
    offset < code.size :=
  lt_size_of_isStart (isStart_of_isDest h)

theorem isDest_append_of_isDest {offset : Nat} (h : code.isDest offset = true) :
    (code.append more).isDest offset = true := by
  rw [isDest_append (lt_size_of_isDest h)]
  exact h

/-- **An instruction that can be read is the same with more bytes behind it.** -/
theorem decode_append {offset : Nat} {ins : Instruction} (h : code.decode offset = .ok ins) :
    (code.append more).decode offset = .ok ins := by
  have hbytes : (code.append more).bytes = code.bytes ++ more := rfl
  have hfork : (code.append more).fork = code.fork := rfl
  unfold decode at h ⊢
  split at h
  · cases h
  · next byte hbyte =>
    obtain ⟨hlt, hvalue⟩ := Array.getElem?_eq_some_iff.1 hbyte
    have hbyte' : (code.append more).bytes[offset]? = some byte := by
      rw [hbytes, Array.getElem?_append_left hlt, hbyte]
    rw [hbyte', isStart_append hlt, hfork, size_append, hbytes]
    dsimp only
    split at h
    · next hstart =>
      rw [if_pos hstart]
      split at h
      · cases h
      · next op hop =>
        dsimp only at h
        split at h
        · next hwidth =>
          unfold size at hwidth
          have hfits : offset + 1 + op.width ≤ code.bytes.size := by omega
          have hdata : (code.bytes ++ more).extract (offset + 1) (offset + 1 + op.width)
              = code.bytes.extract (offset + 1) (offset + 1 + op.width) := by
            rw [Array.extract_append, Nat.sub_eq_zero_of_le hfits]
            simp
          rw [if_pos (by unfold size; omega), hdata]
          exact h
        · cases h
    · cases h

theorem isBehindCall_append {offset : Nat} (h : code.isBehindCall offset = true) :
    (code.append more).isBehindCall offset = true := by
  cases offset with
  | zero => cases h
  | succ site =>
    unfold isBehindCall at h ⊢
    dsimp only at h ⊢
    split at h
    · next ins hdecode =>
      rw [decode_append hdecode]
      exact h
    · cases h

end Code

/-! ### Executing in the longer code -/

variable {code : Code} {more : Array UInt8}

theorem Stack.takeDestination_append {s : Stack}
    (h : ∀ word s', takeDestination code s ≠ .error (.invalidDestination word) s') :
    takeDestination (code.append more) s = takeDestination code s := by
  unfold takeDestination at h ⊢
  rw [bind_apply] at h ⊢
  rw [bind_apply]
  cases hpop : pop s with
  | error fault s' => rfl
  | ok slot s' =>
    rw [hpop] at h
    cases slot with
    | unknown => rfl
    | constant word =>
      dsimp only at h ⊢
      by_cases hdest : code.isDest word.toNat = true
      · rw [if_pos hdest, if_pos (Code.isDest_append_of_isDest hdest)]
      · rw [if_neg hdest] at h
        exact absurd rfl (h word s')

namespace Instruction

variable {ins : Instruction}

theorem bind_takeDestination_append {α : Type} {rest : Nat → EStateM Violation.Kind State α}
    {st : State} (h : ∀ st', (onStack (Stack.takeDestination code) >>= rest) st
      ≠ .error .invalidDestination st') :
    (onStack (Stack.takeDestination (code.append more)) >>= rest) st
      = (onStack (Stack.takeDestination code) >>= rest) st := by
  have htake : Stack.takeDestination (code.append more) st.stack
      = Stack.takeDestination code st.stack := by
    refine Stack.takeDestination_append fun word s' hfault => h { st with stack := s' } ?_
    simp only [bind_apply, onStack, attempt, State.onStack, hfault]
    rfl
  rw [bind_apply, bind_apply]
  simp only [onStack, attempt, State.onStack, htake]

theorem goRelative_append {flow : Nat → Flow} {st : State}
    (h : ∀ st', goRelative code ins flow st ≠ .error .invalidDestination st') :
    goRelative (code.append more) ins flow st = goRelative code ins flow st := by
  unfold goRelative at h ⊢
  cases hlanding : ins.relativeLanding code with
  | none =>
    rw [hlanding] at h
    exact absurd rfl (h st)
  | some dest =>
    obtain ⟨htarget, hdest⟩ := Option.filter_eq_some_iff.1 hlanding
    have hlanding' : ins.relativeLanding (code.append more) = some dest :=
      Option.filter_eq_some_iff.2 ⟨htarget, Code.isDest_append_of_isDest hdest⟩
    rw [hlanding']

/-- An instruction does the same in the longer code, unless its destination is refused. -/
theorem execute_append {st : State}
    (h : ∀ st', ins.execute code st ≠ .error .invalidDestination st') :
    ins.execute (code.append more) st = ins.execute code st := by
  unfold execute at h ⊢
  cases hmove : ins.opcode.move <;> simp only [hmove] at h ⊢
  case jump => exact bind_takeDestination_append h
  case jumpi => exact bind_takeDestination_append h
  case jumpsub => exact bind_takeDestination_append h
  case rjump => exact goRelative_append h
  case rjumpi =>
    rw [bind_apply] at h ⊢
    rw [bind_apply]
    cases hpop : onStack Stack.pop st with
    | error kind st' => rfl
    | ok slot st' =>
      rw [hpop] at h
      exact goRelative_append h

end Instruction

/-! ### The walk over the longer code -/

/-- Whether a violation of this kind stays one, whatever bytes come behind the code. -/
def Violation.Kind.Lasts (kind : Violation.Kind) : Prop :=
  kind ≠ .invalidInstruction ∧ kind ≠ .invalidDestination

namespace Walk

variable {w w' : Walk}

theorem goOn_append {pc : Nat} {state : State} (h : pc < code.size) :
    w.goOn (code.append more) pc state = w.goOn code pc state := by
  rw [goOn, goOn, Code.isDest_append h]

/-- **The step over the longer code is the same,** unless it is one that is refused for what is
missing, or goes past the end of the shorter one. -/
theorem step_append (hlasts : ∀ rejection, w.step code = .error rejection →
      rejection.violation.kind.Lasts)
    (hinside : ∀ w' path, w.step code = .ok (some w') → w'.cursor = .inside path →
      path.pc < code.size) :
    w.step (code.append more) = w.step code := by
  unfold step at hlasts hinside ⊢
  cases hcursor : w.cursor with
  | idle => rfl
  | arriving path => rfl
  | inside path =>
    simp only [hcursor] at hlasts hinside ⊢
    congr 1
    unfold execute at hlasts hinside ⊢
    cases hdecode : code.decode path.pc with
    | error cause =>
      simp only [hdecode] at hlasts
      exact absurd (by cases cause <;> rfl) (hlasts _ rfl).1
    | ok ins =>
      rw [Code.decode_append hdecode]
      simp only [hdecode] at hlasts hinside ⊢
      have hexecute : ins.execute (code.append more) path.state = ins.execute code path.state := by
        refine Instruction.execute_append fun st' hrefused => ?_
        simp only [hrefused] at hlasts
        exact absurd rfl (hlasts _ rfl).2
      rw [hexecute]
      cases houtcome : ins.execute code path.state with
      | error kind st' => rfl
      | ok flow state =>
        simp only [houtcome] at hlasts hinside ⊢
        cases flow with
        | advance =>
          refine congrArg Except.ok (goOn_append ?_)
          by_cases hdest : code.isDest ins.next = true
          · exact Code.lt_size_of_isDest hdest
          · exact hinside _ ⟨ins.next, state⟩ rfl (by rw [goOn, if_neg hdest])
        | back net frame =>
          unfold follow back at hlasts ⊢
          dsimp only at hlasts ⊢
          by_cases hbehind : code.isBehindCall frame.returnTo = true
          · rw [if_pos hbehind, if_pos (Code.isBehindCall_append hbehind)]
          · rw [if_neg hbehind] at hlasts
            exact absurd rfl (hlasts _ rfl).2
        | halt => rfl
        | jump dest => rfl
        | branch dest => rfl
        | call entry => rfl

/-- Behind the end of a code there is no instruction. -/
theorem finish_of_past_end {path : Path} (hcursor : w.cursor = .inside path)
    (h : code.size ≤ path.pc) :
    w.finish code = .error ⟨⟨path.pc, .invalidInstruction⟩, w.log⟩ := by
  have hdecode : code.decode path.pc = .error (.pastEnd path.pc) := by
    rw [Code.decode, Array.getElem?_eq_none h]
  refine finish_eq_error ?_
  simp only [step, hcursor, execute, hdecode]
  rfl

/-- **The walk over the longer code ends as the one over the shorter does,** unless that one
is refused for what is missing. -/
theorem finish_append (hlasts : ∀ rejection, w.finish code = .error rejection →
      rejection.violation.kind.Lasts) :
    w.finish (code.append more) = w.finish code := by
  refine finish_congr (P := fun result => ∀ rejection, result = .error rejection →
    rejection.violation.kind.Lasts) ?_ hlasts
  intro w hlasts
  refine step_append ?_ ?_
  · intro rejection hstep
    exact hlasts rejection (finish_eq_error hstep)
  · intro w' path hstep hcursor
    rw [finish_eq_finish hstep] at hlasts
    by_contra hpast
    exact (hlasts _ (finish_of_past_end hcursor (Nat.le_of_not_lt hpast))).1 rfl

end Walk

namespace Code

/-- The result for the longer code is the same, unless the shorter one is refused for what is
missing. -/
theorem validate_append_of_lasts
    (hlasts : ∀ violation, code.validate = .error violation → violation.kind.Lasts) :
    (code.append more).validate = code.validate := by
  refine validate_eq_of_finish_eq (Walk.finish_append fun rejection hfinish => ?_)
  exact hlasts _ (validate_of_rejection hfinish)

/-- **Bytes behind a code change neither the analysis of an accepted program nor a violation
that is not about what is missing.** -/
theorem validate_append (bytes more : Array UInt8) (fork : Fork) :
    (∀ analysis, (ofBytes bytes fork).validate = .ok analysis →
      (ofBytes (bytes ++ more) fork).validate = .ok analysis) ∧
    ∀ violation, (ofBytes bytes fork).validate = .error violation →
      violation.kind = .dynamicJump ∨ violation.kind = .stackUnderflow ∨
        violation.kind = .stackOverflow ∨ violation.kind = .stackMisalignment →
      (ofBytes (bytes ++ more) fork).validate = .error violation := by
  constructor
  · intro analysis haccepted
    have hlasts : ∀ violation, (ofBytes bytes fork).validate = .error violation →
        violation.kind.Lasts := by
      intro violation hrejected
      rw [haccepted] at hrejected
      cases hrejected
    exact (validate_append_of_lasts hlasts).trans haccepted
  · intro violation hrejected hkind
    have hlasts : ∀ other, (ofBytes bytes fork).validate = .error other →
        other.kind.Lasts := by
      intro other hother
      rw [hrejected] at hother
      cases hother
      rcases hkind with h | h | h | h <;> rw [h] <;> exact ⟨by simp, by simp⟩
    exact (validate_append_of_lasts hlasts).trans hrejected

/-- A program that ends in an immediate cut off by the end. -/
def endsCutOff : Array UInt8 :=
  #[0x60, 0x04, 0x56, 0xFE, 0x5B, 0x00, 0x61, 0x01]

/-- A loop that leaves one slot more each time. -/
def growingLoop : Array UInt8 :=
  #[0x5B, 0x34, 0x34, 0x60, 0x00, 0x57, 0x00]

/-- The first byte behind the first program becomes data, the second a place to land on. -/
theorem validate_append_endsCutOff :
    ((ofBytes endsCutOff .prague).validate = .ok ⟨1, [0, 4], 0⟩ ∧
      (ofBytes (endsCutOff ++ #[0x5B, 0x5B]) .prague).validate = .ok ⟨1, [0, 4], 0⟩) ∧
    (ofBytes growingLoop .prague).validate = .error ⟨0, .stackMisalignment⟩ ∧
      (ofBytes (growingLoop ++ #[0x5B, 0x5B]) .prague).validate
        = .error ⟨0, .stackMisalignment⟩ := by
  have haccepted : (ofBytes endsCutOff .prague).validate = .ok ⟨1, [0, 4], 0⟩ := by
    decide +kernel
  have hrejected : (ofBytes growingLoop .prague).validate = .error ⟨0, .stackMisalignment⟩ := by
    decide +kernel
  exact ⟨⟨haccepted, (validate_append _ _ _).1 _ haccepted⟩,
    hrejected, (validate_append _ _ _).2 _ hrejected (.inr (.inr (.inr rfl)))⟩

end Code

end EvmSafety
