/-
Provenance.

Beside the symbolic stack think of a stack of words on which the same requests are carried
out: a known slot is pushed as the word it is, what is pushed as unknown may be any word, and
copies and exchanges move words as they move slots.  Forgetting and moving the base change
what is known, and no word.  The claim of every known slot is then true of the word in its
place, and it goes back to a constant that was there at the start or was pushed since, as no
operation makes up a constant.

This is what the safety of jumps rests on: a destination that is taken is the very word that
the machine pops there.  It needs one lemma on what a granted operation does to the slots, and
an induction on the requests that keeps the base below the top.  For both the sizes that are
asked for have to fit in a count.  Where one does not, more slots are granted than there may
be, and the stack is shorter than it was.
-/
import EvmSafety.Proofs.Joins
import EvmSafety.Proofs.Requests

namespace EvmSafety

variable {code : Code}

/-! ### Slots above words -/

/-- There are as many slots as words, and a slot that is a constant stands for that word. -/
structure Abstracts (slots : List Slot) (words : List Word) : Prop where
  length_eq : slots.length = words.length
  holds : ∀ (i : Nat) (known : Word), slots[i]? = some (Slot.constant known) →
    words[i]? = some known

theorem abstracts_iff_fit {slots : List Slot} {words : List Word} :
    Abstracts slots words ↔ Fit slots words := by
  constructor
  · intro h
    refine List.forall₂_iff_get.2 ⟨h.length_eq, ?_⟩
    intro i hslot hword
    cases hget : slots.get ⟨i, hslot⟩ with
    | unknown => trivial
    | constant known =>
      have hknown : slots[i]? = some (.constant known) := by
        rw [List.getElem?_eq_getElem hslot]
        exact congrArg some hget
      have hholds := h.holds i known hknown
      rw [List.getElem?_eq_getElem hword] at hholds
      exact (Option.some.inj hholds).symm
  · intro h
    refine ⟨h.length_eq, ?_⟩
    intro i known hknown
    obtain ⟨hslot, hget⟩ := List.getElem?_eq_some_iff.1 hknown
    have hword : i < words.length := h.length_eq ▸ hslot
    have hfits := (List.forall₂_iff_get.1 h).2 i hslot hword
    rw [show slots.get ⟨i, hslot⟩ = .constant known from hget] at hfits
    rw [List.getElem?_eq_getElem hword]
    exact congrArg some hfits.symm

/-! ### What is left on top -/

namespace Stack

theorem push_eq_ok {slot : Slot} {s t : Stack} {u : Unit} (h : push slot s = .ok u t) :
    t.slots = slot :: s.slots := by
  unfold push at h
  split at h
  · cases h
    rfl
  · cases h

theorem pad_eq_ok {n : Nat} {s t : Stack} {u : Unit} (h : pad n s = .ok u t) :
    t.slots = List.replicate n .unknown ++ s.slots := by
  rw [pad_apply] at h
  split at h
  · cases h
    rfl
  · cases h

theorem pop_eq_ok {slot : Slot} {s t : Stack} (h : pop s = .ok slot t) :
    s.slots = slot :: t.slots := by
  unfold pop at h
  split at h
  · next hslots =>
    cases h
    exact hslots
  · cases h

theorem discard_eq_ok {n : Nat} {s t : Stack} {u : Unit} (hbased : s.base ≤ s.size)
    (h : discard n s = .ok u t) : n ≤ s.slots.length ∧ t.slots = s.slots.drop n := by
  rw [discard_apply n hbased] at h
  split at h
  · next hle =>
    cases h
    exact ⟨Nat.le_trans hle (depth_le hbased), rfl⟩
  · cases h

theorem takeDestination_eq_ok {dest : Nat} {s t : Stack}
    (h : takeDestination code s = .ok dest t) :
    ∃ word, s.slots = .constant word :: t.slots ∧ word.toNat = dest
      ∧ code.isDest dest = true := by
  obtain ⟨slot, s', hpop, hread⟩ := bind_eq_ok h
  have hslots := pop_eq_ok hpop
  match slot with
  | .unknown => cases hread
  | .constant word =>
    dsimp only at hread
    split at hread
    · next hdest =>
      cases hread
      exact ⟨word, hslots, rfl, hdest⟩
    · cases hread

end Stack

/-! ### What an operation does to words -/

namespace Stack.Operation

/-- What the operation does to words.  Those of which nothing is known are arbitrary: the
`i`-th that it puts is `fresh i`. -/
def onWords (fresh : Nat → Word) : Stack.Operation → List Word → Option (List Word)
  | push (.constant word), words => some (word :: words)
  | push .unknown, words => some (fresh 0 :: words)
  | pushUnknowns n, words => some ((List.range n).map fresh ++ words)
  | pop, words => words.tail?
  | discard n, words => if n ≤ words.length then some (words.drop n) else none
  | dup n, words => do
    let word ← words[n - 1]?
    return word :: words
  | swap n, words => do
    let top ← words[0]?
    let other ← words[n]?
    return (words.set 0 other).set n top
  | apply pops pushes, words =>
    if pops ≤ words.length then some ((List.range pushes).map fresh ++ words.drop pops) else none
  | forget _, words => some words
  | takeDestination, words => words.tail?

/-- What a granted operation does to the slots. -/
inductive Turns (code : Code) : Stack.Operation → List Slot → List Slot → Prop
  | push (slot : Slot) {slots : List Slot} : Turns code (.push slot) slots (slot :: slots)
  | pushUnknowns (n : Nat) {slots : List Slot} :
      Turns code (.pushUnknowns n) slots (List.replicate n .unknown ++ slots)
  | pop {slot : Slot} {slots : List Slot} : Turns code .pop (slot :: slots) slots
  | discard {n : Nat} {slots : List Slot} (hle : n ≤ slots.length) :
      Turns code (.discard n) slots (slots.drop n)
  | dup {n : Nat} {slots : List Slot} (hn : n ≠ 0) (hle : n ≤ slots.length) :
      Turns code (.dup n) slots (slots.getD (n - 1) .unknown :: slots)
  | swap {n : Nat} {slots : List Slot} (hn : n ≠ 0) (hlt : n < slots.length) :
      Turns code (.swap n) slots (exchange n slots)
  | apply {pops : Nat} (pushes : Nat) {slots : List Slot} (hle : pops ≤ slots.length) :
      Turns code (.apply pops pushes) slots
        (List.replicate pushes .unknown ++ slots.drop pops)
  | forget (n : Nat) {k : Nat} {slots : List Slot} (hle : k ≤ slots.length) :
      Turns code (.forget n) slots (List.replicate k .unknown ++ slots.drop k)
  | takeDestination {word : Word} {slots : List Slot} (hdest : code.isDest word.toNat = true) :
      Turns code .takeDestination (.constant word :: slots) slots

/-- **What an operation does to the slots if it is granted.** -/
theorem turns_of_answer {op : Stack.Operation} {s t : Stack} {reply : Reply}
    (hbased : s.base ≤ s.size) (hfits : op.Fits s) (h : op.answer code s = .ok reply t) :
    op.Turns code s.slots t.slots := by
  have hdepth : s.depth ≤ s.slots.length := depth_le hbased
  cases op with
  | push slot =>
    obtain ⟨u, hop, -⟩ := Reply.return_eq_ok h
    rw [push_eq_ok hop]
    exact .push slot
  | pushUnknowns n =>
    obtain ⟨u, hop, -⟩ := Reply.return_eq_ok h
    rw [pushUnknowns_eq_pad hfits] at hop
    rw [pad_eq_ok hop]
    exact .pushUnknowns n
  | pop =>
    obtain ⟨slot, hop, -⟩ := Reply.return_eq_ok h
    rw [pop_eq_ok hop]
    exact .pop
  | discard n =>
    obtain ⟨u, hop, -⟩ := Reply.return_eq_ok h
    obtain ⟨hle, hslots⟩ := discard_eq_ok hbased hop
    rw [hslots]
    exact .discard hle
  | dup n =>
    obtain ⟨u, hop, -⟩ := Reply.return_eq_ok h
    unfold Stack.dup at hop
    by_cases hfew : n = 0 ∨ s.depth < n
    · rw [if_pos hfew] at hop
      cases hop
    · rw [if_neg hfew] at hop
      rw [push_eq_ok hop]
      exact .dup (by omega) (by omega)
  | swap n =>
    obtain ⟨u, hop, -⟩ := Reply.return_eq_ok h
    unfold Stack.swap at hop
    by_cases hfew : n = 0 ∨ s.depth ≤ n
    · rw [if_pos hfew] at hop
      cases hop
    · rw [if_neg hfew] at hop
      cases hop
      exact .swap (by omega) (by omega)
  | apply pops pushes =>
    obtain ⟨u, hop, -⟩ := Reply.return_eq_ok h
    rw [apply_eq_replaceTop hbased hfits] at hop
    obtain ⟨u', s'', hdiscard, hpad⟩ := bind_eq_ok hop
    obtain ⟨hle, hslots⟩ := discard_eq_ok hbased hdiscard
    rw [pad_eq_ok hpad, hslots]
    exact .apply pushes hle
  | forget n =>
    cases h
    exact .forget n (Nat.le_trans (Nat.min_le_right _ _) hdepth)
  | takeDestination =>
    obtain ⟨dest, hop, -⟩ := Reply.return_eq_ok h
    obtain ⟨word, hslots, rfl, hdest⟩ := takeDestination_eq_ok hop
    rw [hslots]
    exact .takeDestination hdest

theorem mem_of_mem_exchange {n : Nat} {slots : List Slot} {slot : Slot} (hn : n ≠ 0)
    (hlt : n < slots.length) (h : slot ∈ exchange n slots) : slot ∈ slots := by
  cases slots with
  | nil => cases h
  | cons top rest =>
    have hother : n - 1 < rest.length := by
      rw [List.length_cons] at hlt
      omega
    simp only [exchange, List.getD_eq_getElem _ _ hother] at h
    rcases List.mem_cons.1 h with rfl | h
    · exact List.mem_cons_of_mem _ (List.getElem_mem hother)
    · rcases List.mem_or_eq_of_mem_set h with h | rfl
      · exact List.mem_cons_of_mem _ h
      · exact List.mem_cons_self

/-- No operation makes up a constant. -/
theorem Turns.mem_or_pushed {op : Stack.Operation} {slots slots' : List Slot}
    (h : op.Turns code slots slots') {known : Word} (hmem : .constant known ∈ slots') :
    .constant known ∈ slots ∨ op = .push (.constant known) := by
  have hunknown {n : Nat} : Slot.constant known ∉ List.replicate n .unknown := by
    intro hreplicate
    cases List.eq_of_mem_replicate hreplicate
  cases h with
  | push slot =>
    rcases List.mem_cons.1 hmem with rfl | hmem
    · exact .inr rfl
    · exact .inl hmem
  | pushUnknowns n => exact .inl ((List.mem_append.1 hmem).resolve_left hunknown)
  | pop => exact .inl (List.mem_cons_of_mem _ hmem)
  | discard => exact .inl (List.mem_of_mem_drop hmem)
  | @dup n _ hn hle =>
    rcases List.mem_cons.1 hmem with hcopy | hmem
    · have hlt : n - 1 < slots.length := by omega
      rw [List.getD_eq_getElem _ _ hlt] at hcopy
      exact .inl (hcopy ▸ List.getElem_mem hlt)
    · exact .inl hmem
  | swap hn hlt => exact .inl (mem_of_mem_exchange hn hlt hmem)
  | apply | forget =>
    exact .inl (List.mem_of_mem_drop ((List.mem_append.1 hmem).resolve_left hunknown))
  | takeDestination => exact .inl (List.mem_cons_of_mem _ hmem)

/-- Exchanging two words fits exchanging their slots. -/
theorem fit_exchange {n : Nat} {slots : List Slot} {words : List Word} (hn : n ≠ 0)
    (hfit : Fit slots words) {top other : Word} (htop : words[0]? = some top)
    (hother : words[n]? = some other) :
    Fit (exchange n slots) ((words.set 0 other).set n top) := by
  obtain ⟨m, rfl⟩ := Nat.exists_eq_add_one_of_ne_zero hn
  cases hfit with
  | nil => cases htop
  | cons hhead hrest =>
    rw [List.getElem?_cons_zero] at htop
    rw [List.getElem?_cons_succ] at hother
    cases htop
    exact .cons (Fit.getD hrest hother) (Fit.set hrest hhead m)

/-- **What is known stays true of the words,** and the words are there to be moved. -/
theorem Turns.exists_onWords {op : Stack.Operation} {slots slots' : List Slot}
    {words : List Word} (h : op.Turns code slots slots') (hfit : Fit slots words)
    (fresh : Nat → Word) :
    ∃ words', op.onWords fresh words = some words' ∧ Fit slots' words' := by
  have hlength : slots.length = words.length := hfit.length_eq
  have hfresh {n : Nat} : Fit (List.replicate n .unknown) ((List.range n).map fresh) :=
    fit_replicate (by simp)
  cases h with
  | push slot =>
    cases slot with
    | constant word => exact ⟨_, rfl, .cons rfl hfit⟩
    | unknown => exact ⟨_, rfl, .cons trivial hfit⟩
  | pushUnknowns n => exact ⟨_, rfl, hfresh.append hfit⟩
  | pop | takeDestination =>
    cases hfit with
    | cons _ hrest => exact ⟨_, rfl, hrest⟩
  | @discard n _ hle =>
    have hdrop := List.forall₂_drop n hfit
    exact ⟨_, if_pos (hlength ▸ hle), hdrop⟩
  | @dup n _ hn hle =>
    have hlt : n - 1 < words.length := by omega
    have hword := List.getElem?_eq_getElem hlt
    refine ⟨_, ?_, .cons (hfit.getD hword) hfit⟩
    simp only [onWords, hword, Option.bind_eq_bind, Option.bind_some, Option.pure_def]
  | @swap n _ hn hlt =>
    have htop := List.getElem?_eq_getElem (show 0 < words.length by omega)
    have hother := List.getElem?_eq_getElem (show n < words.length by omega)
    refine ⟨_, ?_, fit_exchange hn hfit htop hother⟩
    simp only [onWords, htop, hother, Option.bind_eq_bind, Option.bind_some, Option.pure_def]
  | @apply pops pushes _ hle =>
    have hdrop := List.forall₂_drop pops hfit
    exact ⟨_, if_pos (hlength ▸ hle), hfresh.append hdrop⟩
  | @forget n k _ hle =>
    have hdrop := List.forall₂_drop k hfit
    have htake : (words.take k).length = k := by
      rw [List.length_take]
      omega
    have hforgot := Fit.append (fit_replicate htake) hdrop
    rw [List.take_append_drop] at hforgot
    exact ⟨words, rfl, hforgot⟩

end Stack.Operation

/-! ### Sequences of requests -/

namespace Request

/-- What a request does to words: only the operations on the data stack move any. -/
def onWords (fresh : Nat → Word) : Request → List Word → Option (List Word)
  | operate op, words => op.onWords fresh words
  | raiseBase, words | restoreBase _, words | admitCall, words | call .., words | ret, words =>
    some words

/-- What one request after another does to words.  The `i`-th arbitrary word that the `k`-th
request puts is `fresh k i`. -/
def onWordsAll (fresh : Nat → Nat → Word) : List Request → List Word → Option (List Word)
  | [], words => some words
  | request :: rest, words => do
    let words ← request.onWords (fresh 0) words
    onWordsAll (fun k => fresh (k + 1)) rest words

/-- What a granted request does to the slots. -/
inductive Turns (code : Code) : Request → List Slot → List Slot → Prop
  | operate {op : Stack.Operation} {slots slots' : List Slot} (h : op.Turns code slots slots') :
      Turns code (.operate op) slots slots'
  | other {request : Request} {slots : List Slot} (hother : ∀ op, request ≠ .operate op) :
      Turns code request slots slots

theorem turns_of_ask {request : Request} {s t : State} {reply : Reply}
    (hbased : s.stack.base ≤ s.stack.size) (hfits : request.Fits s)
    (h : request.ask code s = (reply, t)) (hgranted : reply.Granted) :
    request.Turns code s.stack.slots t.stack.slots := by
  have hanswer := Reply.eq_ok_of_granted h hgranted
  cases request with
  | operate op =>
    obtain ⟨stack, hop, rfl⟩ := State.onStack_eq_ok hanswer
    exact .operate (Stack.Operation.turns_of_answer hbased hfits hop)
  | raiseBase | restoreBase base =>
    cases hanswer
    exact .other nofun
  | admitCall =>
    obtain ⟨u, hadmit, -⟩ := Reply.return_eq_ok hanswer
    obtain ⟨-, rfl⟩ := State.admitCall_eq_ok hadmit
    exact .other nofun
  | call entry returnTo =>
    obtain ⟨u, hcall, -⟩ := Reply.return_eq_ok hanswer
    obtain rfl := State.call_eq_ok hcall
    exact .other nofun
  | ret =>
    obtain ⟨frame, hret, -⟩ := Reply.return_eq_ok hanswer
    unfold State.ret at hret
    split at hret
    · cases hret
    · cases hret
      exact .other nofun

theorem Turns.mem_or_pushed {request : Request} {slots slots' : List Slot}
    (h : request.Turns code slots slots') {known : Word} (hmem : .constant known ∈ slots') :
    .constant known ∈ slots ∨ request = .operate (.push (.constant known)) := by
  cases h with
  | operate h =>
    rcases h.mem_or_pushed hmem with hmem | rfl
    · exact .inl hmem
    · exact .inr rfl
  | other => exact .inl hmem

theorem Turns.exists_onWords {request : Request} {slots slots' : List Slot}
    {words : List Word} (h : request.Turns code slots slots') (hfit : Fit slots words)
    (fresh : Nat → Word) :
    ∃ words', request.onWords fresh words = some words' ∧ Fit slots' words' := by
  cases h with
  | operate h => exact h.exists_onWords hfit fresh
  | other hother =>
    cases request with
    | operate op => exact absurd rfl (hother op)
    | raiseBase | restoreBase | admitCall | call | ret => exact ⟨words, rfl, hfit⟩

/-- What granted requests do to the slots, one after another. -/
inductive TurnsAll (code : Code) : List Request → List Slot → List Slot → Prop
  | nil {slots : List Slot} : TurnsAll code [] slots slots
  | cons {request : Request} {rest : List Request} {slots mid slots' : List Slot}
      (hfirst : request.Turns code slots mid) (hrest : TurnsAll code rest mid slots') :
      TurnsAll code (request :: rest) slots slots'

/-- A run of granted requests whose sizes fit. -/
theorem turnsAll_of_askAll {requests : List Request} {s t : State} {replies : List Reply}
    (hbased : s.stack.base ≤ s.stack.size) (hfits : FitAll (requests.map (Prod.mk code)) s)
    (hrun : askAll code requests s = (replies, t))
    (hgranted : ∀ reply ∈ replies, reply.Granted) :
    TurnsAll code requests s.stack.slots t.stack.slots := by
  induction requests generalizing s replies with
  | nil =>
    cases hrun
    exact .nil
  | cons request rest ih =>
    cases hrun
    obtain ⟨hfitsFirst, hfitsRest⟩ := hfits
    have hfirst := hgranted _ List.mem_cons_self
    have hbehind := fun reply hmem => hgranted reply (List.mem_cons_of_mem _ hmem)
    exact .cons (turns_of_ask hbased hfitsFirst rfl hfirst)
      (ih (based_ask code hbased hfitsFirst) hfitsRest rfl hbehind)

theorem TurnsAll.exists_onWords {requests : List Request} {slots slots' : List Slot}
    (h : TurnsAll code requests slots slots') {words : List Word} (hfit : Fit slots words)
    (fresh : Nat → Nat → Word) :
    ∃ words', onWordsAll fresh requests words = some words' ∧ Fit slots' words' := by
  induction h generalizing words fresh with
  | nil => exact ⟨words, rfl, hfit⟩
  | cons hfirst _ ih =>
    obtain ⟨words₁, hwords, hfit₁⟩ := hfirst.exists_onWords hfit (fresh 0)
    obtain ⟨words', hrest, hfit'⟩ := ih hfit₁ fun k => fresh (k + 1)
    refine ⟨words', ?_, hfit'⟩
    simp only [onWordsAll, hwords, Option.bind_eq_bind, Option.bind_some, hrest]

theorem TurnsAll.mem_or_pushed {requests : List Request} {slots slots' : List Slot}
    (h : TurnsAll code requests slots slots') {known : Word} (hmem : .constant known ∈ slots') :
    .constant known ∈ slots ∨ .operate (.push (.constant known)) ∈ requests := by
  induction h with
  | nil => exact .inl hmem
  | cons hfirst _ ih =>
    rcases ih hmem with hmem | hpushed
    · rcases hfirst.mem_or_pushed hmem with hmem | rfl
      · exact .inl hmem
      · exact .inr List.mem_cons_self
    · exact .inr (List.mem_cons_of_mem _ hpushed)

/-- A destination that is taken is the word on top. -/
theorem lands_of_fit {s t : State} {dest : Nat} {words : List Word}
    (h : ask code (.operate .takeDestination) s = (.dest dest, t))
    (hfit : Fit s.stack.slots words) :
    ∃ word rest, words = word :: rest ∧ word.toNat = dest ∧ code.isDest dest = true := by
  have hanswer := Reply.eq_ok_of_granted h trivial
  obtain ⟨stack, hop, rfl⟩ := State.onStack_eq_ok hanswer
  obtain ⟨dest', htake, hreply⟩ := Reply.return_eq_ok hop
  cases hreply
  obtain ⟨word, hslots, hword, hdest⟩ := Stack.takeDestination_eq_ok htake
  rw [hslots] at hfit
  cases hfit with
  | cons hfits hrest => exact ⟨_, _, rfl, hfits ▸ hword, hdest⟩

/-- What the slots say after requests that were all granted, held against the words. -/
structure Backed (code : Code) (requests : List Request) (s t : State) (words : List Word) :
    Prop where
  /-- There are as many slots as words, and what is known is true. -/
  abstracts : Abstracts t.stack.slots words
  /-- What is known was known at the start, or was pushed since. -/
  sourced : ∀ known : Word, .constant known ∈ t.stack.slots →
    .constant known ∈ s.stack.slots ∨ .operate (.push (.constant known)) ∈ requests
  /-- If a destination is taken next, it is the word on top, and a jump may land there. -/
  lands : ∀ dest t', ask code (.operate .takeDestination) t = (.dest dest, t') →
    ∃ word rest, words = word :: rest ∧ word.toNat = dest ∧ code.isDest dest = true

end Request

end EvmSafety
