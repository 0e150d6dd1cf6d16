/-
Joins.

A path that comes to a block that was opened before ends there if it is in the same routine
and at the same depth.  What the slots of the two paths say is not compared.  The path that
opened the block may have gone on with a constant that the other one does not have, and a jump
to it was followed for both.  The walk accepts a program that jumps to an arbitrary word this
way.

What it would take is a stack map: claims of the slots at every offset from which every jump
goes where the walk went, and which hold behind an instruction if they hold before it, so that
they hold on every way to a join.  Where there is one, the claims are true of the words of
every execution, all the way through calls and returns, and no execution diverts or faults.
-/
import EvmSafety.Proofs.Machine
import EvmSafety.Proofs.Onward
import Mathlib.Data.List.Forall2

namespace EvmSafety

/-! ### Slots and words -/

namespace Slot

/-- The word is one of which the slot is true. -/
def Fits : Slot → Word → Prop
  | constant known, word => known = word
  | unknown, _ => True

/-- The first slot claims nothing that the second does not. -/
def Weaker (slot other : Slot) : Prop :=
  slot = unknown ∨ slot = other

instance (slot other : Slot) : Decidable (slot.Weaker other) :=
  inferInstanceAs (Decidable (_ ∨ _))

theorem Weaker.fits {slot other : Slot} {word : Word} (h : slot.Weaker other)
    (hfits : other.Fits word) : slot.Fits word := by
  rcases h with rfl | rfl
  · trivial
  · exact hfits

end Slot

/-- The slots are true of the words. -/
abbrev Fit : List Slot → List Word → Prop :=
  List.Forall₂ Slot.Fits

theorem fit_of_weaker {slots others : List Slot} {words : List Word}
    (h : List.Forall₂ Slot.Weaker slots others) (hfit : Fit others words) : Fit slots words := by
  induction h generalizing words with
  | nil => exact hfit
  | cons hslot _ ih =>
    cases hfit with
    | cons hword hrest => exact .cons (hslot.fits hword) (ih hrest)

/-- Nothing is claimed of arbitrary words. -/
theorem fit_replicate : ∀ {n : Nat} {words : List Word}, words.length = n →
    Fit (List.replicate n .unknown) words
  | 0, [], _ => .nil
  | _ + 1, _ :: _, h => .cons trivial (fit_replicate (Nat.succ.inj h))

theorem Fit.append {slots slots' : List Slot} {words words' : List Word} (h : Fit slots words)
    (h' : Fit slots' words') : Fit (slots ++ slots') (words ++ words') :=
  List.rel_append h h'

theorem Fit.set {slots : List Slot} {words : List Word} (h : Fit slots words) {slot : Slot}
    {word : Word} (hslot : slot.Fits word) (i : Nat) :
    Fit (slots.set i slot) (words.set i word) := by
  induction h generalizing i with
  | nil => exact .nil
  | cons hhead htail ih =>
    cases i with
    | zero => exact .cons hslot htail
    | succ i => exact .cons hhead (ih i)

theorem Fit.getD {slots : List Slot} {words : List Word} (h : Fit slots words) {i : Nat}
    {word : Word} (hword : words[i]? = some word) : (slots.getD i .unknown).Fits word := by
  induction h generalizing i with
  | nil => cases hword
  | cons hhead _ ih =>
    cases i with
    | zero =>
      rw [List.getElem?_cons_zero] at hword
      injection hword with hword
      exact hword ▸ hhead
    | succ i =>
      rw [List.getElem?_cons_succ] at hword
      exact ih hword

/-! ### Stack maps -/

/-- What is claimed of the own slots of a routine at each offset. -/
abbrev StackMap := Nat → List Slot

namespace StackMap

/-- With these slots left by an instruction, the claims hold wherever the walk goes from it.
Behind a call they hold with whatever the routine leaves. -/
def HoldsBehind (map : StackMap) (code : Code) (ins : Instruction) (left : List Slot) :
    Flow → Prop
  | .halt | .back .. => True
  | .advance => List.Forall₂ Slot.Weaker (map ins.next) left
  | .jump dest => List.Forall₂ Slot.Weaker (map dest) left
  | .branch dest =>
    List.Forall₂ Slot.Weaker (map dest) left ∧ List.Forall₂ Slot.Weaker (map ins.next) left
  | .call entry => map entry = [] ∧ ∀ w ∈ code.walks, ∀ net ∈ w.nets[entry]?,
    List.Forall₂ Slot.Weaker (map ins.next) (List.replicate net .unknown ++ left)

instance (map : StackMap) (code : Code) (ins : Instruction) (left : List Slot) (flow : Flow) :
    Decidable (map.HoldsBehind code ins left flow) := by
  cases flow <;> unfold HoldsBehind <;> infer_instance

theorem HoldsBehind.weaker {map : StackMap} {code : Code} {ins : Instruction}
    {left : List Slot} {flow : Flow} {pc : Nat} (h : map.HoldsBehind code ins left flow)
    (hgoes : flow.GoesTo ins pc) : List.Forall₂ Slot.Weaker (map pc) left := by
  cases hgoes with
  | advance | jump => exact h
  | taken => exact h.1
  | passed => exact h.2

/-- The state of a path, but with the claims in place of its own slots. -/
def claimed (map : StackMap) (path : Path) : State where
  stack := .on (map path.pc) path.state.stack.below
  frames := path.state.frames

/-- If the walk is about to execute an instruction, the claims there are enough for it to go
the same way, and then hold behind it. -/
def KeptAt (map : StackMap) (code : Code) (w : Walk) : Prop :=
  match w.cursor with
  | .arriving _ | .idle => True
  | .inside path =>
    match code.decode path.pc with
    | .error _ => False
    | .ok ins =>
      match ins.execute code path.state, ins.execute code (map.claimed path) with
      | .ok flow _, .ok flow' state =>
        flow' = flow ∧ map.HoldsBehind code ins state.stack.own flow
      | _, _ => False

instance (map : StackMap) (code : Code) (w : Walk) : Decidable (map.KeptAt code w) := by
  unfold KeptAt
  repeat (first | infer_instance | split)

/-- The claims hold at the start, and every instruction that the walk executes keeps them. -/
def Kept (map : StackMap) (code : Code) : Prop :=
  map 0 = [] ∧ ∀ w ∈ code.walks, map.KeptAt code w

instance (map : StackMap) (code : Code) : Decidable (map.Kept code) :=
  inferInstanceAs (Decidable (_ ∧ _))

variable {code : Code} {map : StackMap}

theorem Kept.executes (h : map.Kept code) {path : Path} (hvisited : code.Visited path)
    {ins : Instruction} (hdecode : code.decode path.pc = .ok ins) {flow : Flow} {state : State}
    (hexecute : ins.execute code path.state = .ok flow state) :
    ∃ state', ins.Executes code (map path.pc) path.state.stack.below path.state.frames flow state' ∧
      map.HoldsBehind code ins state'.stack.own flow := by
  obtain ⟨w, hw, hcursor⟩ := hvisited
  have hkept := h.2 w hw
  unfold KeptAt at hkept
  simp only [hcursor, hdecode, hexecute] at hkept
  split at hkept
  · next flow₁ state₁ flow' state' hpath hclaimed =>
    injection hpath with hflow
    subst hflow
    obtain ⟨rfl, hholds⟩ := hkept
    exact ⟨state', Instruction.executes_of_execute hclaimed, hholds⟩
  · cases hkept

end StackMap

/-- The destination of a jump or a call. -/
def Flow.dest? : Flow → Option Nat
  | .jump dest | .branch dest | .call dest => some dest
  | .halt | .advance | .back .. => none

theorem Instruction.Executes.dest_eq {code : Code} {ins : Instruction} {own below : List Slot}
    {frames : List Frame} {flow : Flow} {state : State}
    (h : Executes code ins own below frames flow state)
    (hmove : ins.opcode.move.popsDestination = true) {word : Word} {rest : List Slot}
    (hown : own = .constant word :: rest) : flow.dest? = some word.toNat := by
  cases h with
  | halt hkind => rw [hkind] at hmove; cases hmove
  | straight h =>
    rw [(Move.noDestination (.inl h.isStraight)).1] at hmove
    cases hmove
  | rjump hkind => rw [hkind] at hmove; cases hmove
  | rjumpi hkind => rw [hkind] at hmove; cases hmove
  | returnsub hkind => rw [hkind] at hmove; cases hmove
  | jump _ hown' => cases hown.symm.trans hown'; rfl
  | jumpi _ hown' => cases hown.symm.trans hown'; rfl
  | jumpsub _ hown' => cases hown.symm.trans hown'; rfl

namespace Machine

/-! ### The words of an execution -/

/-- The words under a routine and its return places are those of calls that the walk made, and
whatever the routine leaves, what is claimed behind the call will be true. -/
inductive Linked (code : Code) (last : Walk) (map : StackMap) :
    Routine → List Word → List Nat → Prop
  | main : Linked code last map .main [] []
  | sub {path : Path} {ins : Instruction} {entry : Nat} {state : State} {own below : List Word}
      {returns : List Nat} (hcalls : code.Calls path ins entry state)
      (hbehind : ∀ left : List Word, last.nets[entry]? = some left.length →
        Fit (map ins.next) (left ++ own))
      (hlinked : Linked code last map state.routine below returns) :
      Linked code last map (.sub entry) (own ++ below) (ins.next :: returns)

/-- A path is visited where the execution is, and what is claimed there is true of the words. -/
def Fitted (code : Code) (last : Walk) (map : StackMap) (m : Machine) : Prop :=
  ∃ path own below, code.Visited path ∧ path.pc = m.pc ∧ m.words = own ++ below ∧
    Fit (map m.pc) own ∧ Linked code last map path.state.routine below m.returns

variable {code : Code} {last : Walk} {map : StackMap} {m m' : Machine}

theorem fitted_of_reaches (hfinish : Walk.start.finish code = .ok last) {pc : Nat}
    {state : State} {own below : List Word} {returns : List Nat}
    (hreaches : code.Reaches pc state) (hfit : Fit (map pc) own)
    (hlinked : Linked code last map state.routine below returns) :
    Fitted code last map ⟨pc, own ++ below, returns⟩ := by
  obtain ⟨path, hvisited, hpc, harrival⟩ := Code.exists_visited_of_reaches hfinish hreaches
  have hroutine : path.state.routine = state.routine := congrArg Arrival.routine harrival
  exact ⟨path, own, below, hvisited, hpc, rfl, hfit, hroutine ▸ hlinked⟩

theorem fitted_of_calls (hfinish : Walk.start.finish code = .ok last) {path : Path}
    {ins : Instruction} {entry : Nat} {state : State} {own below : List Word}
    {returns : List Nat} (hcalls : code.Calls path ins entry state) (hentry : map entry = [])
    (hbehind : ∀ left : List Word, last.nets[entry]? = some left.length →
      Fit (map ins.next) (left ++ own))
    (hlinked : Linked code last map state.routine below returns) :
    Fitted code last map ⟨entry, own ++ below, ins.next :: returns⟩ := by
  obtain ⟨opener, hvisited, hpc, harrival⟩ :=
    Code.exists_visited_of_arrivals (Code.last_mem_walks hfinish) (hcalls.enters hfinish)
  have hroutine : opener.state.routine = .sub entry := congrArg Arrival.routine harrival
  refine ⟨opener, [], own ++ below, hvisited, hpc, rfl, hentry ▸ .nil, ?_⟩
  rw [hroutine]
  exact .sub hcalls hbehind hlinked

theorem fitted_of_returns (hfinish : Walk.start.finish code = .ok last) {entry place : Nat}
    {own below : List Word} {rest : List Nat}
    (hlinked : Linked code last map (.sub entry) below (place :: rest))
    (hnet : last.nets[entry]? = some own.length) :
    Fitted code last map ⟨place, own ++ below, rest⟩ := by
  cases hlinked with
  | @sub path ins _ state callerOwn below _ hcalls hbehind hcaller =>
    have hreaches : code.Reaches ins.next (state.padded own.length) :=
      .inl (hcalls.arrives hfinish hnet)
    have hfitted := fitted_of_reaches hfinish hreaches (hbehind own hnet) hcaller
    rwa [List.append_assoc] at hfitted

/-- What an instruction makes of the words fits what it makes of the slots. -/
theorem fit_of_straight {ins : Instruction} {slots slots' : List Slot} {own below : List Word}
    (h : ins.Straight slots slots') (hmoves : Moves code ins m m') (hwords : m.words = own ++ below)
    (hfit : Fit slots own) :
    ∃ own', m' = ⟨ins.next, own' ++ below, m.returns⟩ ∧ Fit slots' own' := by
  have hlength := hfit.length_eq
  unfold Moves at hmoves
  cases h with
  | push hmove =>
    simp only [hmove] at hmoves
    subst hmoves
    exact ⟨ins.literal :: own, by rw [hwords]; rfl, .cons rfl hfit⟩
  | @dup n hmove hn hle =>
    simp only [hmove] at hmoves
    obtain ⟨word, hword, rfl⟩ := hmoves
    have hlt : n - 1 < own.length := by omega
    rw [hwords, List.getElem?_append_left hlt] at hword
    exact ⟨word :: own, by rw [hwords]; rfl, .cons (hfit.getD hword) hfit⟩
  | @swap n hmove hn hlt =>
    simp only [hmove] at hmoves
    obtain ⟨top, rest, word, hsplit, hword, rfl⟩ := hmoves
    cases hfit with
    | nil => simp at hlt
    | @cons slot first slotsRest ownRest hfirst hrest =>
      rw [hwords, List.cons_append] at hsplit
      injection hsplit with htop hrestEq
      subst htop hrestEq
      simp only [List.length_cons] at hlt hlength
      have hlt' : n - 1 < ownRest.length := by omega
      rw [List.getElem?_append_left hlt'] at hword
      refine ⟨word :: ownRest.set (n - 1) first, ?_, ?_⟩
      · rw [List.set_append_left _ _ hlt', List.cons_append]
      · exact .cons (Fit.getD hrest hword) (Fit.set hrest hfirst _)
  | effect hmove hle =>
    have heffect : ∃ left : List Word, left.length = ins.opcode.pushes ∧
        ins.opcode.pops ≤ m.words.length ∧
        m' = ⟨ins.next, left ++ m.words.drop ins.opcode.pops, m.returns⟩ := by
      rcases hmove with hmove | hmove <;> simpa only [hmove] using hmoves
    obtain ⟨left, hleft, -, rfl⟩ := heffect
    refine ⟨left ++ own.drop ins.opcode.pops, ?_, ?_⟩
    · rw [hwords, List.drop_append_of_le_length (by omega), List.append_assoc]
    · exact (fit_replicate hleft).append (List.forall₂_drop _ hfit)

/-- A constant on top is the word on top. -/
theorem words_of_fit {known : Word} {slots : List Slot} {own below : List Word}
    (hfit : Fit (.constant known :: slots) own) (hwords : m.words = own ++ below) :
    ∃ rest, Fit slots rest ∧ m.words = known :: (rest ++ below) := by
  cases hfit with
  | @cons _ word _ rest hword hrest =>
    have hsame : known = word := hword
    exact ⟨rest, hrest, by rw [hwords, hsame, List.cons_append]⟩

variable {ins : Instruction} {flow : Flow} {slots under : List Slot} {frames : List Frame}
  {state claimed : State} {own below : List Word}

/-- Without a call or a return, what an instruction makes of the words fits what it makes of the
slots, and it goes where the slots say. -/
theorem Moves.fit (h : Moves code ins m m')
    (hexecutes : ins.Executes code slots under frames flow state)
    (hwords : m.words = own ++ below) (hfit : Fit slots own)
    (hcall : ins.opcode.move ≠ .jumpsub) (hreturn : ins.opcode.move ≠ .returnsub) :
    ∃ own', m'.words = own' ++ below ∧ Fit state.stack.own own' ∧ flow.GoesTo ins m'.pc := by
  have hmoves := h
  unfold Moves at hmoves
  cases hexecutes with
  | halt hmove => simp only [hmove] at hmoves
  | straight hstraight =>
    obtain ⟨own', rfl, hfit'⟩ := fit_of_straight hstraight h hwords hfit
    exact ⟨own', rfl, by rwa [Stack.own_on], .advance⟩
  | jump hmove hslots =>
    simp only [hmove] at hmoves
    obtain ⟨word, rest, hpopped, -, rfl⟩ := hmoves
    -- The word that is popped is the constant of the slots, so both go to one place.
    obtain ⟨own', hfit', hwords'⟩ := words_of_fit (hslots ▸ hfit) hwords
    cases hwords'.symm.trans hpopped
    exact ⟨own', rfl, by rwa [Stack.own_on], .jump⟩
  | rjump hmove htarget hdest =>
    simp only [hmove] at hmoves
    obtain ⟨dest, hlanding, rfl⟩ := hmoves
    cases (Instruction.relativeLanding_of_target htarget hdest).symm.trans hlanding
    exact ⟨own, hwords, by rwa [Stack.own_on], .jump⟩
  | jumpi hmove hslots =>
    simp only [hmove] at hmoves
    obtain ⟨word, condition, rest, hpopped, -, rfl⟩ := hmoves
    obtain ⟨own', hfit', hwords'⟩ := words_of_fit (hslots ▸ hfit) hwords
    cases hfit' with
    | cons _ hrest =>
      cases hwords'.symm.trans hpopped
      exact ⟨_, rfl, by rwa [Stack.own_on], .branch _⟩
  | rjumpi hmove hslots htarget hdest =>
    simp only [hmove] at hmoves
    obtain ⟨dest, condition, rest, hlanding, hpopped, rfl⟩ := hmoves
    cases (Instruction.relativeLanding_of_target htarget hdest).symm.trans hlanding
    rw [hslots] at hfit
    cases hfit with
    | cons _ hrest =>
      cases hwords.symm.trans hpopped
      exact ⟨_, rfl, by rwa [Stack.own_on], .branch _⟩
  | jumpsub hmove => exact absurd hmove hcall
  | returnsub hmove => exact absurd hmove hreturn

/-- Whatever a routine leaves, what is claimed behind a call to it will be true. -/
theorem fit_behind (hfinish : Walk.start.finish code = .ok last) {entry : Nat}
    (hholds : map.HoldsBehind code ins slots (.call entry)) (hfit : Fit slots own) :
    ∀ left : List Word, last.nets[entry]? = some left.length →
      Fit (map ins.next) (left ++ own) := by
  intro left hnet
  have hweaker := hholds.2 last (Code.last_mem_walks hfinish) left.length hnet
  exact fit_of_weaker hweaker ((fit_replicate rfl).append hfit)

/-- At a call, the execution enters the routine that the walk entered. -/
theorem fitted_of_jumpsub (hfinish : Walk.start.finish code = .ok last)
    (hmoves : Moves code ins m m') (hcall : ins.opcode.move = .jumpsub)
    (hexecutes : ins.Executes code slots under frames flow claimed) {path : Path}
    (hsends : code.Sends last path ins flow state)
    (hholds : map.HoldsBehind code ins claimed.stack.own flow)
    (hwords : m.words = own ++ below) (hfit : Fit slots own)
    (hlinked : Linked code last map state.routine below m.returns) :
    Fitted code last map m' := by
  unfold Moves at hmoves
  simp only [hcall] at hmoves
  obtain ⟨word, rest, hpopped, -, rfl⟩ := hmoves
  cases hexecutes with
  | jumpsub _ hslots =>
    cases hsends with
    | call hcalls =>
      obtain ⟨own', hfit', hwords'⟩ := words_of_fit (hslots ▸ hfit) hwords
      cases hwords'.symm.trans hpopped
      rw [Stack.own_on] at hholds
      exact fitted_of_calls hfinish hcalls hholds.1 (fit_behind hfinish hholds hfit') hlinked
  | straight hstraight => cases hcall ▸ hstraight.isStraight
  | _ hmove => cases hcall.symm.trans hmove

/-- At a return, the execution goes back behind the call that the walk made. -/
theorem fitted_of_returnsub (hfinish : Walk.start.finish code = .ok last)
    (hmoves : Moves code ins m m') (hreturn : ins.opcode.move = .returnsub) {path : Path}
    (hexecutes : ins.Executes code slots under path.state.frames flow claimed)
    (hsends : code.Sends last path ins flow state)
    (hwords : m.words = own ++ below) (hfit : Fit slots own)
    (hlinked : Linked code last map path.state.routine below m.returns) :
    Fitted code last map m' := by
  unfold Moves at hmoves
  simp only [hreturn] at hmoves
  obtain ⟨place, rest, hreturns, rfl⟩ := hmoves
  cases hexecutes with
  | @returnsub frame _ _ hframes =>
    cases hsends with
    | back hnet =>
      have hsub : path.state.routine = .sub frame.entry := by rw [State.routine, hframes]
      rw [hsub, hreturns] at hlinked
      rw [hwords]
      exact fitted_of_returns hfinish hlinked (hfit.length_eq ▸ hnet)
  | straight hstraight => cases hreturn ▸ hstraight.isStraight
  | _ hmove => cases hreturn.symm.trans hmove

theorem Fitted.step (hfinish : Walk.start.finish code = .ok last) (hkept : map.Kept code)
    (h : Fitted code last map m) (hstep : Step code m m') : Fitted code last map m' := by
  obtain ⟨path, own, below, hvisited, hpc, hwords, hfit, hlinked⟩ := h
  obtain ⟨ins, flow, state, hdecode, hexecute, hexecutes, hsends⟩ :=
    Code.sends_of_visited hfinish hvisited
  obtain ⟨claimed, hclaimed, hholds⟩ := hkept.executes hvisited hdecode hexecute
  obtain ⟨ins', hdecode', hmoves⟩ := hstep
  rw [hpc, hdecode'] at hdecode
  cases hdecode
  rw [← hpc] at hfit
  by_cases hreturn : ins.opcode.move = .returnsub
  · exact fitted_of_returnsub hfinish hmoves hreturn hclaimed hsends hwords hfit hlinked
  rw [← hexecutes.routine_eq hreturn] at hlinked
  by_cases hcall : ins.opcode.move = .jumpsub
  · exact fitted_of_jumpsub hfinish hmoves hcall hclaimed hsends hholds hwords hfit hlinked
  · obtain ⟨own', hwords', hfit', hgoes⟩ := hmoves.fit hclaimed hwords hfit hcall hreturn
    have hfitted := fitted_of_reaches hfinish (hsends.reaches hgoes)
      (fit_of_weaker (hholds.weaker hgoes) hfit') hlinked
    rwa [← hwords', ← hmoves.returns_eq hcall hreturn] at hfitted

/-- Where the claims are true of the words, a jump goes where the walk did. -/
theorem Fitted.not_diverts (hfinish : Walk.start.finish code = .ok last)
    (hkept : map.Kept code) (h : Fitted code last map m) : ¬ Diverts code m := by
  rintro ⟨ins, word, rest, hdecode, hmove, hpopped, htarget⟩
  obtain ⟨path, own, below, hvisited, hpc, hwords, hfit, -⟩ := h
  obtain ⟨ins', flow, state, hdecode', hexecute, hexecutes, -⟩ :=
    Code.sends_of_visited hfinish hvisited
  obtain ⟨claimed, hclaimed, -⟩ := hkept.executes hvisited hdecode' hexecute
  rw [hpc, hdecode] at hdecode'
  cases hdecode'
  obtain ⟨found, slots, hown, hdest⟩ := hexecutes.lands.1 hmove
  obtain ⟨known, slots', hmap, -⟩ := hclaimed.lands.1 hmove
  have hsame : found.toNat = known.toNat :=
    Option.some.inj ((hexecutes.dest_eq hmove hown).symm.trans (hclaimed.dest_eq hmove hmap))
  rw [← hpc, hmap] at hfit
  obtain ⟨own', -, hwords'⟩ := words_of_fit hfit hwords
  rw [hwords'] at hpopped
  cases hpopped
  exact htarget (hpc ▸ hsame ▸ Code.target_of_own hvisited hown hdest)

/-- **With a stack map no execution diverts from the walk.** -/
theorem straight_of_kept (hfinish : Walk.start.finish code = .ok last) (hkept : map.Kept code)
    (h : Reachable code m) : Fitted code last map m ∧ ReachableStraight code m := by
  induction h with
  | refl =>
    have harrives : code.Arrives ⟨0, {}⟩ :=
      Code.arrives_of_pending hfinish Code.start_mem_walks List.mem_cons_self
    have hfit : Fit (map 0) [] := hkept.1 ▸ .nil
    exact ⟨fitted_of_reaches hfinish (.inl harrives) hfit .main, .refl⟩
  | tail _ hstep ih =>
    obtain ⟨hfitted, hstraight⟩ := ih
    exact ⟨hfitted.step hfinish hkept hstep,
      hstraight.tail ⟨hfitted.not_diverts hfinish hkept, hstep⟩⟩

/-- An execution keeps to the walk, or has diverted from it somewhere. -/
theorem straight_or_diverts (h : Reachable code m) :
    ReachableStraight code m ∨ ∃ before, ReachableStraight code before ∧ Diverts code before ∧
      Relation.ReflTransGen (Step code) before m := by
  induction h with
  | refl => exact .inl .refl
  | @tail m m' _ hstep ih =>
    rcases ih with hstraight | ⟨before, hstraight, hdiverts, hthence⟩
    · by_cases hdiverts : Diverts code m
      · exact .inr ⟨m, hstraight, hdiverts, .single hstep⟩
      · exact .inl (hstraight.tail ⟨hdiverts, hstep⟩)
    · exact .inr ⟨before, hstraight, hdiverts, hthence.tail hstep⟩

/-- **What acceptance promises of the executions of a code.**  One that faults has diverted
from the walk, at a jump or a call that popped another destination than the walk did; until
then it can fault in no other way than by missing at such a jump.  If the claims of some stack
map are kept, no execution faults. -/
theorem sound_of_accepted {analysis : Analysis} (haccepted : code.validate = .ok analysis) :
    (∀ m, Reachable code m → Faults code m →
      ∃ before, ReachableStraight code before ∧ Diverts code before ∧
        Relation.ReflTransGen (Step code) before m) ∧
    (∀ m, ReachableStraight code m → (Faults code m ↔ Misses code m)) ∧
    (∀ map : StackMap, map.Kept code → ∀ m, Reachable code m → ¬ Faults code m) := by
  refine ⟨?_, ?_, ?_⟩
  · intro m hreachable hfaults
    rcases straight_or_diverts hreachable with hstraight | hdiverts
    · obtain ⟨hiff, hmisses⟩ := faults_iff_misses haccepted hstraight
      exact ⟨m, hstraight, hmisses (hiff.1 hfaults), .refl⟩
    · exact hdiverts
  · intro m hstraight
    exact (faults_iff_misses haccepted hstraight).1
  · intro map hkept m hreachable hfaults
    obtain ⟨last, hfinish, -, -⟩ := Code.finish_of_validate haccepted
    obtain ⟨hfitted, hstraight⟩ := straight_of_kept hfinish hkept hreachable
    obtain ⟨hiff, hmisses⟩ := faults_iff_misses haccepted hstraight
    exact hfitted.not_diverts hfinish hkept (hmisses (hiff.1 hfaults))

/-- A program with a counter that goes up in a loop, which also calls a routine. -/
def countsUp : Code :=
  .ofBytes #[0x60, 0x00, 0x5B, 0x60, 0x01, 0x01, 0x60, 0x0E, 0xE3, 0x34, 0x60, 0x02, 0x57, 0x00,
    0x5B, 0xE4] .prague

/-- Nothing is claimed of the counter, which is zero only when the loop is entered. -/
def countsUpMap : StackMap
  | 5 => [.constant 1, .unknown]
  | 8 => [.constant 14, .unknown]
  | 10 => [.unknown, .unknown]
  | 12 => [.constant 2, .unknown, .unknown]
  | 0 | 14 | 15 => []
  | _ => [.unknown]

theorem sound_countsUp :
    countsUpMap.Kept countsUp ∧ ∀ m, Reachable countsUp m → ¬ Faults countsUp m := by
  have hkept : countsUpMap.Kept countsUp := by decide +kernel
  have haccepted : countsUp.validate = .ok ⟨3, [0, 2, 9, 13, 14], 1⟩ :=
    Code.eq_ok_of_toOption (by decide +kernel)
  exact ⟨hkept, (sound_of_accepted haccepted).2.2 countsUpMap hkept⟩

/-! ### A join of two ways that disagree -/

/-- A program with two ways to the block at `12`.  The one that opens it has pushed the
destination of the jump there; the other has pushed what the call came with. -/
def twoWays : Code :=
  .ofBytes #[0x34, 0x60, 0x09, 0x57, 0x34, 0x60, 0x0C, 0x56, 0xFE, 0x5B, 0x60, 0x0F, 0x5B, 0x56,
    0xFE, 0x5B, 0x00] .prague

/-- The instruction that pushes what the call came with. -/
def callvalueAt (offset : Nat) : Instruction :=
  ⟨offset, .effect 0x34 "callvalue" 0 1, []⟩

/-- A jump to the word on top. -/
def jumpAt (offset : Nat) : Instruction :=
  ⟨offset, { byte := 0x56, name := "jump", pops := 1, pushes := 0, move := .jump }, []⟩

/-- A conditional jump to the word on top. -/
def jumpiAt (offset : Nat) : Instruction :=
  ⟨offset, { byte := 0x57, name := "jumpi", pops := 2, pushes := 0, move := .jumpi }, []⟩

/-- A place where a jump may land. -/
def jumpdestAt (offset : Nat) : Instruction :=
  ⟨offset, { byte := 0x5B, name := "jumpdest", pops := 0, pushes := 0, move := .jumpdest }, []⟩

theorem decode_twoWays :
    [0, 1, 3, 4, 5, 7, 12, 13].map (fun pc => (twoWays.decode pc).toOption)
        = [callvalueAt 0, ⟨1, .pushOf 1, [9]⟩, jumpiAt 3, callvalueAt 4, ⟨5, .pushOf 1, [12]⟩,
          jumpAt 7, jumpdestAt 12, jumpAt 13].map some ∧
      [0, 9, 12].map twoWays.isDest = [false, true, true] := by
  decide +kernel

theorem reachable_twoWays : Reachable twoWays ⟨13, [0], []⟩ := by
  obtain ⟨hdecodes, hdests⟩ := decode_twoWays
  simp only [List.map_cons, List.map_nil, List.cons.injEq, and_true] at hdecodes hdests
  obtain ⟨h0, h1, h3, h4, h5, h7, h12, -⟩ := hdecodes
  obtain ⟨-, hnine, htwelve⟩ := hdests
  have hvalue : Step twoWays {} ⟨1, [0], []⟩ :=
    ⟨_, Code.eq_ok_of_toOption h0, [0], rfl, by decide, rfl⟩
  have hpush : Step twoWays ⟨1, [0], []⟩ ⟨3, [9, 0], []⟩ := ⟨_, Code.eq_ok_of_toOption h1, rfl⟩
  have hbranch : Step twoWays ⟨3, [9, 0], []⟩ ⟨4, [], []⟩ :=
    ⟨_, Code.eq_ok_of_toOption h3, 9, 0, [], rfl, hnine, rfl⟩
  have hvalue' : Step twoWays ⟨4, [], []⟩ ⟨5, [0], []⟩ :=
    ⟨_, Code.eq_ok_of_toOption h4, [0], rfl, by decide, rfl⟩
  have hpush' : Step twoWays ⟨5, [0], []⟩ ⟨7, [12, 0], []⟩ := ⟨_, Code.eq_ok_of_toOption h5, rfl⟩
  have hjump : Step twoWays ⟨7, [12, 0], []⟩ ⟨12, [0], []⟩ :=
    ⟨_, Code.eq_ok_of_toOption h7, 12, [0], rfl, htwelve, rfl⟩
  have hland : Step twoWays ⟨12, [0], []⟩ ⟨13, [0], []⟩ :=
    ⟨_, Code.eq_ok_of_toOption h12, [], rfl, by decide, rfl⟩
  exact ((((((Relation.ReflTransGen.single hvalue).tail hpush).tail hbranch).tail hvalue').tail
    hpush').tail hjump).tail hland

/-- The program is accepted, and jumps to the word that the call came with. -/
theorem faults_twoWays : twoWays.validate = .ok ⟨2, [0, 4, 9, 12, 15], 0⟩ ∧
    ∃ m, Reachable twoWays m ∧ Faults twoWays m := by
  have haccepted : twoWays.validate = .ok ⟨2, [0, 4, 9, 12, 15], 0⟩ :=
    Code.eq_ok_of_toOption (by decide +kernel)
  obtain ⟨hdecodes, hdests⟩ := decode_twoWays
  simp only [List.map_cons, List.map_nil, List.cons.injEq, and_true] at hdecodes hdests
  obtain ⟨-, -, -, -, -, -, -, h13⟩ := hdecodes
  have hmisses : Misses twoWays ⟨13, [0], []⟩ :=
    ⟨_, 0, [], Code.eq_ok_of_toOption h13, rfl, rfl, hdests.1⟩
  exact ⟨haccepted, _, reachable_twoWays, .misses hmisses⟩

end Machine

end EvmSafety
