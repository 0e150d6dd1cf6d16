/-
The walk answers as a recursion would.

The plain way to validate a code is by recursion: follow a block to its end; where it ends in a
conditional jump, validate all that its taken arm leads to, and only then the other arm, with
the same stack; keep one record of the block entries, and give up at the first violation.
`explore` is this recursion, for codes without calls.

The walk has no recursion.  It leaves the other arm on its list, on top of whatever lies there,
and takes it up again once nothing is left of what the taken arm led to.  The list thereby does
what the stack of the recursion does, and that is what is shown: by induction on the recursion,
a run that comes to a block entry gets the answer of the recursion, and unless that is a
violation it gets to where exactly those paths are left that were on the list before.  Where
one recursive call follows another, so do the two parts of the run; that is `Answers.bind`.

So both report the same violation, or the same block entries and the same highest depth.
-/
import EvmSafety.Proofs.Capacity
import EvmSafety.Proofs.Coverage
import EvmSafety.Proofs.Cycles

namespace EvmSafety

/-! ### The recursion -/

/-- How the instructions of a block end. -/
inductive BlockEnd
  /-- The path ends with them. -/
  | halts
  /-- The path goes to another block. -/
  | goes (pc : Nat) (stack : Stack)
  /-- The path may go to one of two other blocks. -/
  | splits (taken passed : Nat) (stack : Stack)

/-- What is seen of a block that is followed to its end. -/
structure Passage where
  /-- The highest depth seen so far. -/
  highest : Nat
  /-- How the block ends. -/
  ending : BlockEnd

/-- What the recursion has found out so far. -/
structure Explored where
  /-- The block entries that were reached, and the depth there. -/
  depths : Std.TreeMap Nat Nat := ∅
  /-- The highest depth seen. -/
  highest : Nat := 0

namespace Explored

/-- How many offsets of the code were never reached as block entries. -/
def unreached (code : Code) (e : Explored) : Nat :=
  (List.range code.size).countP fun offset => !e.depths.contains offset

/-- Record a block entry, and what was seen of the block. -/
def record (e : Explored) (pc depth highest : Nat) : Explored :=
  ⟨e.depths.insert pc depth, highest⟩

theorem unreached_record_lt {code : Code} {e : Explored} {pc : Nat} (depth highest : Nat)
    (hnew : e.depths[pc]? = none) (hpc : pc < code.size) :
    (e.record pc depth highest).unreached code < e.unreached code :=
  countP_insert_lt depth hnew List.nodup_range (List.mem_range.2 hpc)

/-- What is learned of an accepted program without calls. -/
def analysis (e : Explored) : Analysis :=
  ⟨e.highest, e.depths.keys, 0⟩

end Explored

namespace Code

/-- Follow a block from `pc` to its end.  The depth is looked at after every instruction.  In a
program without calls there is nothing to call or to return from. -/
def follow (code : Code) (pc : Nat) (stack : Stack) (highest : Nat) :
    Except Violation Passage :=
  match _h : code.decode pc with
  | .error cause => .error ⟨pc, cause.kind⟩
  | .ok ins =>
    match ins.execute code ⟨stack, []⟩ with
    | .error kind _ => .error ⟨pc, kind⟩
    | .ok flow state =>
      match flow with
      | .halt => .ok ⟨max highest state.stack.depth, .halts⟩
      | .advance =>
        if code.isDest ins.next then
          .ok ⟨max highest state.stack.depth, .goes ins.next state.stack⟩
        else code.follow ins.next state.stack (max highest state.stack.depth)
      | .jump dest => .ok ⟨max highest state.stack.depth, .goes dest state.stack⟩
      | .branch dest => .ok ⟨max highest state.stack.depth, .splits dest ins.next state.stack⟩
      | .call _ | .back .. => .error ⟨pc, .invalidInstruction⟩
termination_by code.size - pc
decreasing_by
  have hlt := lt_next_of_decode _h
  have hpc := (offset_lt_of_decode _h).2
  omega

theorem lt_size_of_follow {code : Code} {pc highest : Nat} {stack : Stack} {passage : Passage}
    (h : code.follow pc stack highest = .ok passage) : pc < code.size := by
  rw [follow] at h
  split at h
  · cases h
  · next hdecode => exact (offset_lt_of_decode hdecode).2

/-- The recursion, together with the reason why it ends: what is found out only grows. -/
def exploreFrom (code : Code) (e : Explored) (pc : Nat) (stack : Stack) :
    Except Violation { after : Explored // after.unreached code ≤ e.unreached code } :=
  match hnew : e.depths[pc]? with
  | some depth =>
    if depth = stack.depth then .ok ⟨e, Nat.le_refl _⟩ else .error ⟨pc, .stackMisalignment⟩
  | none =>
    match hfollow : code.follow pc stack e.highest with
    | .error violation => .error violation
    | .ok ⟨highest, ending⟩ =>
      let opened := e.record pc stack.depth highest
      have hless : opened.unreached code < e.unreached code :=
        Explored.unreached_record_lt _ _ hnew (lt_size_of_follow hfollow)
      match ending with
      | .halts => .ok ⟨opened, Nat.le_of_lt hless⟩
      | .goes next stack => do
        let ⟨after, hafter⟩ ← code.exploreFrom opened next stack
        return ⟨after, Nat.le_trans hafter (Nat.le_of_lt hless)⟩
      | .splits taken passed stack => do
        let ⟨first, hfirst⟩ ← code.exploreFrom opened taken stack
        have hfirst : first.unreached code < e.unreached code := Nat.lt_of_le_of_lt hfirst hless
        let ⟨after, hafter⟩ ← code.exploreFrom first passed stack
        return ⟨after, Nat.le_trans hafter (Nat.le_of_lt hfirst)⟩
termination_by e.unreached code

/-- Validate all that a path leads to which comes to the block entry `pc`. -/
def explore (code : Code) (e : Explored) (pc : Nat) (stack : Stack) :
    Except Violation Explored :=
  (code.exploreFrom e pc stack).map Subtype.val

/-- Only the reason why a recursive call ends is forgotten. -/
theorem map_val_bind {ε α : Type} {p q : α → Prop} (result : Except ε { a // p a })
    (h : ∀ a, p a → q a) :
    (result >>= fun a => (pure ⟨a.val, h a.val a.property⟩ : Except ε { a // q a })).map
      Subtype.val = result.map Subtype.val := by
  cases result <;> rfl

/-- **The recursion in plain terms:** a block entry that is known is only compared with its
record; of a new one the block is followed, and then what comes after it, the taken arm of a
conditional jump before the other one. -/
theorem explore_eq (code : Code) (e : Explored) (pc : Nat) (stack : Stack) :
    code.explore e pc stack =
      (match e.depths[pc]? with
      | some depth =>
        if depth = stack.depth then .ok e else .error ⟨pc, .stackMisalignment⟩
      | none => do
        let ⟨highest, ending⟩ ← code.follow pc stack e.highest
        let opened := e.record pc stack.depth highest
        match ending with
        | .halts => return opened
        | .goes next stack => code.explore opened next stack
        | .splits taken passed stack => do
          let first ← code.explore opened taken stack
          code.explore first passed stack) := by
  unfold explore
  rw [exploreFrom]
  split
  · next hknown =>
    simp only [hknown]
    split <;> rfl
  · next hnew =>
    simp only [hnew]
    split
    · next hfollow =>
      rw [hfollow]
      rfl
    · next highest ending hfollow =>
      simp only [hfollow]
      match ending with
      | .halts => rfl
      | .goes next stack => exact map_val_bind _ _
      | .splits taken passed stack =>
        show Except.map _ (code.exploreFrom _ taken stack >>= _) =
          Except.map _ (code.exploreFrom _ taken stack) >>= _
        cases code.exploreFrom (e.record pc _ highest) taken stack with
        | error violation => rfl
        | ok first => exact map_val_bind _ _

theorem unreached_le_of_explore {code : Code} {e after : Explored} {pc : Nat} {stack : Stack}
    (h : code.explore e pc stack = .ok after) : after.unreached code ≤ e.unreached code := by
  unfold explore at h
  match hfrom : code.exploreFrom e pc stack with
  | .error violation =>
    rw [hfrom] at h
    cases h
  | .ok ⟨after', hle⟩ =>
    rw [hfrom] at h
    cases h
    exact hle

/-! ### Codes without calls -/

/-- No instruction is a call. -/
def CallFree (code : Code) : Prop :=
  ∀ offset ins, code.decode offset = .ok ins → ins.opcode.move ≠ .jumpsub

theorem callFree_iff {code : Code} :
    code.CallFree ↔ ∀ site < code.size, code.isBehindCall (site + 1) = false := by
  constructor
  · intro hfree site _
    unfold isBehindCall
    match hdecode : code.decode site with
    | .error cause => simp only [hdecode]
    | .ok ins => simp only [hdecode, hfree site ins hdecode, decide_false]
  · intro h offset ins hdecode hmove
    have hno := h offset (offset_lt_of_decode hdecode).2
    unfold isBehindCall at hno
    simp [hdecode, hmove] at hno

instance (code : Code) : Decidable code.CallFree :=
  decidable_of_iff _ callFree_iff.symm

/-- What an instruction that neither calls nor returns leaves in the main routine. -/
structure Ordinary (stack : Stack) (flow : Flow) (left : Stack) : Prop where
  proper : left.Proper
  noCall : ∀ entry, flow ≠ .call entry
  noBack : ∀ net frame, flow ≠ .back net frame
  lower : flow ≠ .advance → left.depth ≤ stack.depth

/-- Without calls every instruction is an ordinary one, and no frame is ever open. -/
theorem CallFree.ordinary {code : Code} (hfree : code.CallFree) {pc : Nat} {stack : Stack}
    {ins : Instruction} {flow : Flow} {state : State} (hproper : stack.Proper)
    (hdecode : code.decode pc = .ok ins)
    (hexecute : ins.execute code ⟨stack, []⟩ = .ok flow state) :
    ∃ left, state = ⟨left, []⟩ ∧ Ordinary stack flow left := by
  have hstate : State.Proper ⟨stack, []⟩ := hproper
  have hleft : state.Proper := Instruction.keeps_execute.ok hstate hexecute
  rw [← Stack.on_own_below hproper.based] at hexecute
  have hexecutes := Instruction.executes_of_execute hexecute
  have hcounted := counted_of_decode hdecode
  have hnoBack : ∀ net frame, flow ≠ .back net frame := by
    rintro net frame rfl
    cases hexecutes with
    | returnsub _ hframes => cases hframes
  obtain ⟨-, hcounts⟩ := hexecutes.counts hcounted
  obtain ⟨own', rfl, hlength⟩ := hcounts hnoBack
  refine ⟨_, rfl, hleft, ?_, hnoBack, ?_⟩
  · rintro entry rfl
    exact hfree pc ins hdecode hexecutes.of_call.1
  · intro hflow
    rw [Stack.depth_on, hlength, Stack.length_own hproper.based,
      hexecutes.pushes_eq_zero hcounted hflow]
    exact Nat.sub_le _ _

end Code

/-! ### The walk follows the recursion -/

/-- A path in the main routine, where no frame is open. -/
def Path.plain (pc : Nat) (stack : Stack) : Path :=
  ⟨pc, ⟨stack, []⟩⟩

namespace BlockEnd

/-- Where the walk goes on after a block. -/
def cursor : BlockEnd → Cursor
  | halts => .idle
  | goes pc stack => .arriving (.plain pc stack)
  | splits taken _ stack => .arriving (.plain taken stack)

/-- What the walk leaves for later after a block. -/
def later : BlockEnd → List Path
  | splits _ passed stack => [.plain passed stack]
  | _ => []

/-- The stack that is handed on is a proper one, and no higher than this. -/
def Fits (highest : Nat) : BlockEnd → Prop
  | halts => True
  | goes _ stack | splits _ _ stack => stack.Proper ∧ stack.depth ≤ highest

end BlockEnd

namespace Walk

variable {code : Code} {w w' : Walk}

/-- The run from the walk gives the answer of the recursion: it is rejected for the same
violation, or it comes to where the walk is `Done` with what the recursion answers. -/
inductive Answers {α : Type} (code : Code) (Done : α → Walk → Prop) (w : Walk) :
    Except Violation α → Prop
  | fails {violation : Violation} {log : List Event}
      (hfinish : w.finish code = .error ⟨violation, log⟩) : Answers code Done w (.error violation)
  | passes {a : α} {w' : Walk} (hfinish : w.finish code = w'.finish code) (hdone : Done a w') :
      Answers code Done w (.ok a)

theorem Answers.of_step {α : Type} {Done : α → Walk → Prop} {answer : Except Violation α}
    (hstep : w.step code = .ok (some w')) (h : Answers code Done w' answer) :
    Answers code Done w answer := by
  have hsame := finish_eq_finish hstep
  cases h with
  | fails hfinish => exact .fails (hsame.trans hfinish)
  | passes hfinish hdone => exact .passes (hsame.trans hfinish) hdone

/-- Once the run has answered the first question, it goes on to answer the next one. -/
theorem Answers.bind {α β : Type} {Done : α → Walk → Prop} {Done' : β → Walk → Prop}
    {answer : Except Violation α} {rest : α → Except Violation β}
    (h : Answers code Done w answer)
    (hrest : ∀ a w', answer = .ok a → Done a w' → Answers code Done' w' (rest a)) :
    Answers code Done' w (answer >>= rest) := by
  cases h with
  | fails hfinish => exact .fails hfinish
  | @passes a w₁ hfinish hdone =>
    show Answers code Done' w (rest a)
    have h := hrest _ _ rfl hdone
    cases hanswer : rest a with
    | error violation =>
      rw [hanswer] at h
      cases h with
      | fails hfinish' => exact .fails (hfinish.trans hfinish')
    | ok b =>
      rw [hanswer] at h
      cases h with
      | passes hfinish' hdone' => exact .passes (hfinish.trans hfinish') hdone'

/-- The walk has recorded what the recursion has found out. -/
structure Shows (w : Walk) (e : Explored) : Prop where
  arrivals : ∀ pc : Nat, w.arrivals[pc]? = (e.depths[pc]?).map (Arrival.mk .main)
  usage : w.graph.usage .main = ⟨e.highest, []⟩

/-- The walk is behind a block that ends so. -/
structure Behind (depths : Std.TreeMap Nat Nat) (rest : List Path) (least : Nat)
    (passage : Passage) (w : Walk) : Prop where
  cursor : w.cursor = passage.ending.cursor
  pending : w.pending = passage.ending.later ++ rest
  shows : w.Shows ⟨depths, passage.highest⟩
  fits : passage.ending.Fits passage.highest
  highest : least ≤ passage.highest

/-- The walk has nothing but `rest` before it. -/
structure BackTo (rest : List Path) (least : Nat) (e : Explored) (w : Walk) : Prop where
  idle : w.cursor = .idle
  pending : w.pending = rest
  shows : w.Shows e
  highest : least ≤ e.highest

theorem Shows.congr {e : Explored} (h : w.Shows e) (harrivals : w'.arrivals = w.arrivals)
    (hgraph : w'.graph = w.graph) : w'.Shows e := by
  constructor
  · rw [harrivals]
    exact h.arrivals
  · rw [hgraph]
    exact h.usage

theorem Shows.noteDepth {depths : Std.TreeMap Nat Nat} {highest : Nat}
    (h : w.Shows ⟨depths, highest⟩) (stack : Stack) :
    (w.noteDepth ⟨stack, []⟩).Shows ⟨depths, max highest stack.depth⟩ := by
  refine ⟨h.arrivals, ?_⟩
  show (w.graph.noteDepth .main stack.depth).usage .main = _
  rw [CallGraph.usage_noteDepth, if_pos rfl, h.usage]

theorem step_of_inside {pc : Nat} {stack : Stack} {ins : Instruction} {flow : Flow}
    {state : State} (hcursor : w.cursor = .inside (.plain pc stack))
    (hdecode : code.decode pc = .ok ins)
    (hexecute : ins.execute code ⟨stack, []⟩ = .ok flow state)
    (hfollow : w.follow code ins state flow = .ok w') : w.step code = .ok (some w') := by
  simp only [step, hcursor, execute, Path.plain, hdecode, hexecute, hfollow]
  rfl

/-- **The walk follows a block as the recursion does.** -/
theorem answers_follow (hfree : code.CallFree) {pc highest least : Nat} {stack : Stack}
    {depths : Std.TreeMap Nat Nat} (hcursor : w.cursor = .inside (.plain pc stack))
    (hshows : w.Shows ⟨depths, highest⟩) (hproper : stack.Proper)
    (hdepth : stack.depth ≤ highest) (hleast : least ≤ highest) :
    Answers code (Behind depths w.pending least) w (code.follow pc stack highest) := by
  fun_induction Code.follow code pc stack highest generalizing w with
  | case1 pc stack highest cause hdecode =>
    have hstep : w.step code = .error ⟨⟨pc, cause.kind⟩, w.log⟩ := by
      simp only [step, hcursor, execute, Path.plain, hdecode]
      rfl
    exact .fails (finish_eq_error hstep)
  | case2 pc stack highest ins hdecode kind state hexecute =>
    have hstep : w.step code = .error ⟨⟨pc, kind⟩, w.log⟩ := by
      simp only [step, hcursor, execute, Path.plain, hdecode, hexecute]
      rfl
    exact .fails (finish_eq_error hstep)
  | case3 pc stack highest ins hdecode state hexecute =>
    obtain ⟨left, rfl, hordinary⟩ := hfree.ordinary hproper hdecode hexecute
    have hlower : left.depth ≤ highest := Nat.le_trans (hordinary.lower (by simp)) hdepth
    refine .of_step (step_of_inside hcursor hdecode hexecute rfl) (.passes rfl ?_)
    dsimp only
    rw [Nat.max_eq_left hlower]
    exact ⟨rfl, rfl, hshows.congr rfl rfl, trivial, hleast⟩
  | case4 pc stack highest ins hdecode state hdest hexecute =>
    obtain ⟨left, rfl, hordinary⟩ := hfree.ordinary hproper hdecode hexecute
    have hfollow : w.follow code ins ⟨left, []⟩ .advance
        = .ok ((w.noteDepth ⟨left, []⟩).goTo ins.next ⟨left, []⟩) := by
      rw [follow, goOn, if_pos hdest]
    refine .of_step (step_of_inside hcursor hdecode hexecute hfollow) (.passes rfl ?_)
    exact ⟨rfl, rfl, (hshows.noteDepth left).congr rfl rfl,
      ⟨hordinary.proper, Nat.le_max_right _ _⟩, Nat.le_trans hleast (Nat.le_max_left _ _)⟩
  | case5 pc stack highest ins hdecode state hdest hexecute ih =>
    obtain ⟨left, rfl, hordinary⟩ := hfree.ordinary hproper hdecode hexecute
    let w₁ : Walk := { w.noteDepth ⟨left, []⟩ with cursor := .inside (.plain ins.next left) }
    have hfollow : w.follow code ins ⟨left, []⟩ .advance = .ok w₁ := by
      rw [follow, goOn, if_neg hdest]
      rfl
    refine .of_step (step_of_inside hcursor hdecode hexecute hfollow) ?_
    exact ih (w := w₁) rfl ((hshows.noteDepth left).congr rfl rfl) hordinary.proper
      (Nat.le_max_right _ _) (Nat.le_trans hleast (Nat.le_max_left _ _))
  | case6 pc stack highest ins hdecode state dest hexecute
  | case7 pc stack highest ins hdecode state dest hexecute =>
    obtain ⟨left, rfl, hordinary⟩ := hfree.ordinary hproper hdecode hexecute
    have hlower : left.depth ≤ highest := Nat.le_trans (hordinary.lower (by simp)) hdepth
    refine .of_step (step_of_inside hcursor hdecode hexecute rfl) (.passes rfl ?_)
    dsimp only
    rw [Nat.max_eq_left hlower]
    exact ⟨rfl, rfl, hshows.congr rfl rfl, ⟨hordinary.proper, hlower⟩, hleast⟩
  | case8 pc stack highest ins hdecode state entry hexecute =>
    obtain ⟨left, rfl, hordinary⟩ := hfree.ordinary hproper hdecode hexecute
    exact absurd rfl (hordinary.noCall entry)
  | case9 pc stack highest ins hdecode state net frame hexecute =>
    obtain ⟨left, rfl, hordinary⟩ := hfree.ordinary hproper hdecode hexecute
    exact absurd rfl (hordinary.noBack net frame)

theorem Shows.insert {depths : Std.TreeMap Nat Nat} {highest : Nat}
    (h : w.Shows ⟨depths, highest⟩) (pc depth : Nat)
    (harrivals : w'.arrivals = w.arrivals.insert pc ⟨.main, depth⟩)
    (hgraph : w'.graph = w.graph) : w'.Shows ⟨depths.insert pc depth, highest⟩ := by
  constructor
  · intro other
    rw [harrivals, Std.TreeMap.getElem?_insert, Std.TreeMap.getElem?_insert, h.arrivals other]
    split <;> rfl
  · rw [hgraph]
    exact h.usage

/-- A path that comes to a block on record ends there, or is rejected for its depth. -/
theorem answers_known {e : Explored} {pc depth least : Nat} {stack : Stack}
    (hcursor : w.cursor = .arriving (.plain pc stack)) (hshows : w.Shows e)
    (hknown : e.depths[pc]? = some depth) (hleast : least ≤ e.highest) :
    Answers code (BackTo w.pending least) w
      (if depth = stack.depth then .ok e else .error ⟨pc, .stackMisalignment⟩) := by
  have hseen : w.arrivals[(Path.plain pc stack).pc]? = some ⟨.main, depth⟩ := by
    rw [Path.plain, hshows.arrivals pc, hknown, Option.map_some]
  have hstep : w.step code = some <$>
      if depth ≠ stack.depth then
        (w.tell (.misaligned pc stack.depth depth)).reject pc .stackMisalignment
      else .ok (w.tell (.rejoined pc)).endPath := by
    rw [step, hcursor]
    dsimp only
    rw [arrive, hseen]
    exact congrArg _ (if_neg fun hother => hother rfl)
  by_cases hsame : depth = stack.depth
  · rw [if_neg (not_not_intro hsame)] at hstep
    rw [if_pos hsame]
    exact .of_step hstep (.passes rfl ⟨rfl, rfl, hshows.congr rfl rfl, hleast⟩)
  · rw [if_pos hsame] at hstep
    rw [if_neg hsame]
    exact .fails (finish_eq_error hstep)

/-- A path that comes to a new block entry is recorded there. -/
theorem exists_step_of_new {e : Explored} {pc : Nat} {stack : Stack}
    (hcursor : w.cursor = .arriving (.plain pc stack)) (hshows : w.Shows e)
    (hnew : e.depths[pc]? = none) :
    ∃ w', w.step code = .ok (some w') ∧ w'.cursor = .inside (.plain pc stack) ∧
      w'.pending = w.pending ∧ w'.Shows ⟨e.depths.insert pc stack.depth, e.highest⟩ := by
  have hnone : w.arrivals[(Path.plain pc stack).pc]? = none := by
    rw [Path.plain, hshows.arrivals pc, hnew, Option.map_none]
  refine ⟨{ w.tell (.opened pc ⟨.main, stack.depth⟩) with
    arrivals := w.arrivals.insert pc ⟨.main, stack.depth⟩
    cursor := .inside (.plain pc stack) }, ?_, rfl, rfl, hshows.insert pc stack.depth rfl rfl⟩
  simp only [step, hcursor, arrive, hnone]
  rfl

/-- Once nothing else is left to do, the path on top of the list is taken up. -/
theorem exists_step_of_idle {e : Explored} {path : Path} {rest : List Path}
    (hidle : w.cursor = .idle) (hpending : w.pending = path :: rest) (hshows : w.Shows e) :
    ∃ w', w.step code = .ok (some w') ∧ w'.cursor = .arriving path ∧ w'.pending = rest ∧
      w'.Shows e := by
  refine ⟨{ w with pending := rest, cursor := .arriving path }, ?_, rfl, rfl,
    hshows.congr rfl rfl⟩
  simp only [step, hidle, hpending]

/-- **The walk answers as the recursion does,** and what else is on its list stays there. -/
theorem answers_explore (hfree : code.CallFree) (e : Explored) (pc : Nat) (stack : Stack)
    (least : Nat) (hcursor : w.cursor = .arriving (.plain pc stack)) (hshows : w.Shows e)
    (hproper : stack.Proper) (hdepth : stack.depth ≤ e.highest) (hleast : least ≤ e.highest) :
    Answers code (BackTo w.pending least) w (code.explore e pc stack) := by
  -- Every recursive call comes after a new block entry, so fewer offsets are unreached.
  induction hn : e.unreached code using Nat.strongRecOn generalizing e pc stack least w with
  | _ n ih =>
    rw [Code.explore_eq]
    match hknown : e.depths[pc]? with
    | some depth => exact answers_known hcursor hshows hknown hleast
    | none =>
      obtain ⟨w₁, hstep, hinside, hpending, hshows₁⟩ := exists_step_of_new hcursor hshows hknown
      have hblock := answers_follow hfree hinside hshows₁ hproper hdepth (Nat.le_refl _)
      rw [hpending] at hblock
      refine .of_step hstep (hblock.bind ?_)
      rintro ⟨highest, ending⟩ w₂ hfollow ⟨hcursor₂, hpending₂, hshows₂, hfits, hhighest⟩
      have hless : (e.record pc stack.depth highest).unreached code < n :=
        hn ▸ Explored.unreached_record_lt _ _ hknown (Code.lt_size_of_follow hfollow)
      have hleast₂ : least ≤ highest := Nat.le_trans hleast hhighest
      match ending with
      | .halts => exact .passes rfl ⟨hcursor₂, hpending₂, hshows₂, hleast₂⟩
      | .goes next left =>
        have hnext := ih _ hless _ next left least hcursor₂ hshows₂ hfits.1 hfits.2 hleast₂ rfl
        rw [hpending₂] at hnext
        exact hnext
      | .splits taken passed left =>
        have htaken := ih _ hless _ taken left highest hcursor₂ hshows₂ hfits.1 hfits.2
          (Nat.le_refl _) rfl
        refine htaken.bind ?_
        rintro first w₃ hfirst ⟨hidle, hpending₃, hshows₃, hhighest₃⟩
        -- The other arm lies on top of the list now, with the stack that the jump left.
        obtain ⟨w₄, hstep₄, hcursor₄, hpending₄, hshows₄⟩ :=
          exists_step_of_idle hidle (hpending₃.trans hpending₂) hshows₃
        have hless' := Nat.lt_of_le_of_lt (Code.unreached_le_of_explore hfirst) hless
        have hpassed := ih _ hless' first passed left least hcursor₄ hshows₄ hfits.1
          (Nat.le_trans hfits.2 hhighest₃) (Nat.le_trans hleast₂ hhighest₃) rfl
        rw [hpending₄] at hpassed
        exact .of_step hstep₄ hpassed

/-! ### The analysis -/

theorem Shows.blockEntries {e : Explored} (h : w.Shows e) : w.blockEntries = e.depths.keys := by
  have hmap : w.arrivals.Equiv (e.depths.map fun _ depth => ⟨.main, depth⟩) := by
    refine .of_forall_constGet?_eq fun pc => ?_
    rw [h.arrivals, Std.TreeMap.getElem?_map]
  rw [Walk.blockEntries, hmap.keys_eq, Std.TreeMap.keys_map]

theorem Shows.routineCount {e : Explored} (h : w.Shows e) : w.routineCount = 0 := by
  have hnone : w.routineEntries = [] := by
    refine List.eq_nil_iff_forall_not_mem.2 fun entry hentry => ?_
    obtain ⟨arrival, hseen, hroutine⟩ := mem_routineEntries.1 hentry
    rw [h.arrivals] at hseen
    obtain ⟨depth, -, rfl⟩ := Option.map_eq_some_iff.1 hseen
    cases hroutine
  rw [← length_routineEntries, hnone, List.length_nil]

end Walk

/-- A routine without calls reaches as high as it was seen to. -/
theorem CallGraph.reach_of_calls_eq_nil {graph : CallGraph} {routine : Routine}
    (h : (graph.usage routine).calls = []) :
    (graph.survey routine [] ∅).reach = { peak := (graph.usage routine).peak } := by
  match husage : graph[routine]? with
  | none => rw [survey_of_unknown (by simp) husage, usage_of_none husage]
  | some usage =>
    rw [usage_of_getElem? husage] at h ⊢
    rw [survey_of_new (by simp) husage rfl, surveyCalls, h]
    rfl

namespace Code

variable {code : Code}

/-- What the walk has recorded is judged as the recursion found it. -/
theorem judge_of_shows {last : Walk} (hlast : last ∈ code.walks) {e : Explored}
    (hshows : last.Shows e) : (code.judge last).result = .ok e.analysis := by
  have hcalls : (last.graph.usage .main).calls = [] := by rw [hshows.usage]
  have hreach := CallGraph.reach_of_calls_eq_nil hcalls
  have hdepth : last.graph.highestDepth = .ok e.highest := by
    rw [CallGraph.highestDepth_of_le, hreach, hshows.usage]
    · rw [hreach]
      exact peak_le_of_mem_walks hlast .main
    · rw [hreach]
      exact Nat.zero_le _
  rw [judge, hdepth]
  dsimp only
  rw [hshows.blockEntries, hshows.routineCount]
  rfl

/-- **A code without calls is validated as the recursion does it:** it is rejected for the
violation that the recursion meets first, or accepted with the block entries that the recursion
reaches and the highest depth that it sees. -/
theorem validate_eq_explore (hfree : code.CallFree) :
    code.validate = (code.explore {} 0 {}).map Explored.analysis := by
  let w : Walk := { Walk.start with pending := [], cursor := .arriving ⟨0, {}⟩ }
  have hstep : Walk.start.step code = .ok (some w) := rfl
  have hshows : w.Shows {} := by
    constructor
    · intro pc
      simp [w, Walk.start]
    · exact CallGraph.usage_empty .main
  have hanswers := Walk.answers_explore hfree {} 0 {} 0 (w := w) rfl hshows Stack.proper_empty
    (Nat.le_refl _) (Nat.le_refl _)
  have hstart := Walk.finish_eq_finish hstep
  cases hexplore : code.explore {} 0 {} with
  | error violation =>
    rw [hexplore] at hanswers
    cases hanswers with
    | fails hfinish => exact validate_of_rejection (hstart.trans hfinish)
  | ok e =>
    rw [hexplore] at hanswers
    cases hanswers with
    | @passes _ last hfinish hback =>
      have hend : last.step code = .ok none := by
        simp only [Walk.step, hback.idle, hback.pending, w]
      have hlast := hstart.trans (hfinish.trans (Walk.finish_eq_self hend))
      rw [validate_of_finish hlast]
      exact judge_of_shows (last_mem_walks hlast) hback.shows

/-- A conditional jump both of whose arms fail. -/
def failsTwice : Code :=
  ofBytes #[0x34, 0x60, 0x05, 0x57, 0xFE, 0x5B, 0x01] .prague

theorem validate_failsTwice : failsTwice.CallFree ∧
    failsTwice.validate = (failsTwice.explore {} 0 {}).map Explored.analysis := by
  have hfree : failsTwice.CallFree := by decide +kernel
  exact ⟨hfree, validate_eq_explore hfree⟩

/-- The arm that is taken fails first. -/
example : (failsTwice.explore {} 0 {}).map Explored.analysis = .error ⟨6, .stackUnderflow⟩ := by
  decide +kernel

end Code

end EvmSafety
