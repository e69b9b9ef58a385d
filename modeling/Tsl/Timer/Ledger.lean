import Tsl.Timer.Order

set_option autoImplicit false

/-! # Timers are neither lost nor duplicated

The ledger of a manager is the list of what happened to its timers: arms that succeeded and firings.
The heap holds the timers whose last entry is an arm, and as many calls of `timer_manager_fire_next` as
there are timers fire each of them (`timersConserved_of_run`). None of this depends on what the
comparison callback returns, so every call comes with a callback of its own. -/

namespace Tsl

open Lib

variable {ν : Type}

/-- What a comparison callback returns for two timers, at the deadlines all timers have. -/
abbrev TimerValues (ν : Type) := Deadlines ν → Option ν → Option ν → ℤ

/-- The manager with a comparison callback that returns `values`. -/
def TimerState.answering (s : TimerState ν) (values : TimerValues ν) : TimerState ν :=
  { s with armedTimers := { s.armedTimers with compare := fun w x y => (values w x y, w) } }

inductive TimerEvent (ν : Type) where
  | armed (tmr : ν)
  | fired (tmr : ν)
deriving DecidableEq

def TimerEvent.timer : TimerEvent ν → ν
  | .armed tmr | .fired tmr => tmr

/-- A manager and what happened to its timers, latest first. -/
structure TimerLedger (ν : Type) where
  state : TimerState ν
  log : List (TimerEvent ν)

/-- A call of `timer_arm` or `timer_arm_at`, and what the comparison callback returns in it. -/
abbrev LedgerArm (ν : Type) := ArmCall ν × TimerValues ν

inductive LedgerCall (ν : Type) where
  | arm (c : LedgerArm ν)
  | fireNext (now : BitVec 64) (values : TimerValues ν) (callback : List (LedgerArm ν))

section Ledger

variable [DecidableEq ν]

/-- The timer is armed and not yet fired: the last thing that happened to it is that it was armed. -/
def Pending (log : List (TimerEvent ν)) (tmr : ν) : Prop :=
  log.find? (fun e => e.timer = tmr) = some (.armed tmr)

instance (log : List (TimerEvent ν)) (tmr : ν) : Decidable (Pending log tmr) :=
  inferInstanceAs (Decidable (_ = _))

/-- Every firing uses up an arm: the timer has been armed, and not been fired since. -/
def Matched : List (TimerEvent ν) → Prop
  | [] => True
  | .armed tmr :: log => ¬ Pending log tmr ∧ Matched log
  | .fired tmr :: log => Pending log tmr ∧ Matched log

/-- Arming a timer that is not armed, where it succeeds. -/
def TimerLedger.arm (s : TimerLedger ν) (c : LedgerArm ν) : Option (TimerLedger ν) :=
  if Pending s.log c.1.timer then none
  else do
    let (ret, state) ← c.1.run (s.state.answering c.2)
    if afailed ret then none else some { state := state, log := .armed c.1.timer :: s.log }

/-- The ledger after a callback has armed timers. -/
def logAfter (log : List (TimerEvent ν)) (callback : List (LedgerArm ν)) : List (TimerEvent ν) :=
  callback.foldl (fun log c => .armed c.1.timer :: log) log

/-- One call. -/
def ledgerStep (s : TimerLedger ν) : LedgerCall ν → Option (TimerLedger ν)
  | .arm c => s.arm c
  | .fireNext now values callback => do
      let (_, _, fired, state) ←
        timerManagerFireNext (s.state.answering values) now fun expired state =>
          (exec TimerLedger.arm { state := state, log := .fired expired :: s.log } callback).map
            TimerLedger.state
      let log :=
        match fired with
        | none => s.log
        | some tmr => logAfter (.fired tmr :: s.log) callback
      some { state := state, log := log }

/-- Each arm leads to at most one firing, and the heap holds exactly the timers armed and not yet
    fired. -/
structure Conserved (s : TimerLedger ν) : Prop where
  matched : Matched s.log
  nodup : s.state.armedTimers.items.Nodup
  mem_items : ∀ x, x ∈ s.state.armedTimers.items ↔ ∃ tmr, x = some tmr ∧ Pending s.log tmr

/-- If the timers `armed` are armed, their callbacks arm nothing, and the clock is at or past every
    deadline, as many calls fire each of them once. -/
def FiresEachOnce (s : TimerLedger ν) : Prop :=
  ∀ (armed : List ν) (calls : List (BitVec 64 × TimerValues ν)), armed.Nodup →
    (∀ tmr, tmr ∈ armed ↔ Pending s.log tmr) → calls.length = armed.length →
    (∀ c ∈ calls, ∀ tmr ∈ armed, s.state.nextFiring tmr ≤ c.1) →
    ∃ (s' : TimerLedger ν) (fired : List ν), exec ledgerStep s (calls.map fun c => .fireNext c.1 c.2 []) = some s' ∧
      s'.log = fired.map .fired ++ s.log ∧ fired.Perm armed

/-- A manager that is well formed and conserves its timers. -/
structure TimerLedger.Inv (s : TimerLedger ν) : Prop where
  wf : s.state.armedTimers.Wf
  conserved : Conserved s

/-! ## One call -/

variable {s s' : TimerLedger ν} {log : List (TimerEvent ν)} {tmr u : ν}

@[simp] theorem pending_armed_cons : Pending (.armed tmr :: log) u ↔ u = tmr ∨ Pending log u := by
  by_cases hu : u = tmr
  · subst hu
    simp [Pending, TimerEvent.timer]
  · have hne : tmr ≠ u := fun he => hu he.symm
    simp [Pending, TimerEvent.timer, hne, hu]

@[simp] theorem pending_fired_cons : Pending (.fired tmr :: log) u ↔ u ≠ tmr ∧ Pending log u := by
  by_cases hu : u = tmr
  · subst hu
    simp [Pending, TimerEvent.timer]
  · have hne : tmr ≠ u := fun he => hu he.symm
    simp [Pending, TimerEvent.timer, hne, hu]

omit [DecidableEq ν] in
theorem keepsWorld_answering (s : TimerState ν) (values : TimerValues ν) (w : Deadlines ν) :
    KeepsWorld (s.answering values).armedTimers.compare (fun v => v = w) := fun _ _ _ hv => hv

omit [DecidableEq ν] in
theorem answering_sortTimers {s : TimerState ν}
    (hcompare : s.armedTimers.compare = timerManagerSortTimers) :
    s.answering (fun w x y => (timerManagerSortTimers w x y).1) = s := by
  have hpure : (fun w x y => ((timerManagerSortTimers w x y).1, w)) = s.armedTimers.compare := by
    rw [hcompare]
    funext w x y
    cases x <;> cases y <;> rfl
  unfold TimerState.answering
  rw [hpure]

theorem TimerLedger.Inv.answering (hI : s.Inv) (values : TimerValues ν) :
    TimerLedger.Inv { s with state := s.state.answering values } where
  wf := ⟨hI.wf.entries_le, hI.wf.capacity_le⟩
  conserved := ⟨hI.conserved.matched, hI.conserved.nodup, hI.conserved.mem_items⟩

/-- **Arming** adds one timer to the heap. -/
theorem TimerLedger.Inv.arm (hI : s.Inv) {c : LedgerArm ν} (hstep : s.arm c = some s') :
    s'.Inv ∧ s'.log = .armed c.1.timer :: s.log := by
  by_cases hpending : Pending s.log c.1.timer
  · rw [TimerLedger.arm, if_pos hpending] at hstep
    cases hstep
  rw [TimerLedger.arm, if_neg hpending, ArmCall.run_eq] at hstep
  have hwf := (hI.answering c.2).wf
  by_cases hroom : s.state.armedTimers.entries < s.state.armedTimers.capacity
  · obtain ⟨heap, w, hpush, hsame, hent, hitems, rfl⟩ := fixedHeapPush_conserves
      (keepsWorld_answering s.state c.2 (Function.update s.state.nextFiring c.1.timer c.1.deadline))
      hwf hroom rfl (some c.1.timer)
    rw [timerManagerAddTimer_eq hpush] at hstep
    simp only [afailed_aOk, Bool.false_eq_true, if_false, Option.bind_eq_bind, Option.bind_some,
      Option.some.injEq] at hstep
    subst hstep
    have hitems' : heap.items = some c.1.timer ::ₘ s.state.armedTimers.items := hitems
    have hnew : some c.1.timer ∉ s.state.armedTimers.items := by
      intro hmem
      obtain ⟨tmr, htmr, hpending'⟩ := (hI.conserved.mem_items _).1 hmem
      rw [← Option.some.inj htmr] at hpending'
      exact hpending hpending'
    refine ⟨⟨hsame.wf hwf ?_, ⟨hpending, hI.conserved.matched⟩, ?_, fun x => ?_⟩, rfl⟩
    · rw [hent]
      exact hroom
    · simp only [hitems']
      exact Multiset.nodup_cons.2 ⟨hnew, hI.conserved.nodup⟩
    · simp only [hitems', Multiset.mem_cons, hI.conserved.mem_items, pending_armed_cons]
      constructor
      · rintro (rfl | ⟨tmr, rfl, htmr⟩)
        · exact ⟨_, rfl, .inl rfl⟩
        · exact ⟨_, rfl, .inr htmr⟩
      · rintro ⟨tmr, rfl, rfl | htmr⟩
        · exact .inl rfl
        · exact .inr ⟨_, rfl, htmr⟩
  · have hpush := fixedHeapPush_full (h := (s.state.answering c.2).armedTimers)
      (Nat.le_of_not_lt hroom) (Function.update s.state.nextFiring c.1.timer c.1.deadline)
      (some c.1.timer)
    have hfull : afailed aENospc = true := afailed_aresultError _ _
    have hinval : afailed aEInval = true := afailed_aresultError _ _
    rw [timerManagerAddTimer_eq hpush] at hstep
    simp only [hfull, hinval, if_true, Option.bind_eq_bind, Option.bind_some, reduceCtorEq] at hstep

/-- **A callback** arms timers one after the other. -/
theorem TimerLedger.Inv.callback (callback : List (LedgerArm ν)) :
    ∀ s : TimerLedger ν, s.Inv → exec TimerLedger.arm s callback = some s' →
      s'.Inv ∧ s'.log = logAfter s.log callback := by
  induction callback with
  | nil =>
      intro s hI hrun
      obtain rfl : s = s' := by simpa using hrun
      exact ⟨hI, rfl⟩
  | cons c cs ih =>
      intro s hI hrun
      obtain ⟨t, hstep, hrest⟩ := exec_cons_eq_some.1 hrun
      obtain ⟨ht, hlog⟩ := hI.arm hstep
      obtain ⟨hs', hlog'⟩ := ih t ht hrest
      rw [hlog] at hlog'
      exact ⟨hs', hlog'⟩

theorem TimerLedger.Inv.peek (hI : s.Inv) (x : Option ν) :
    ((∀ tmr, ¬ Pending s.log tmr) ∧ fixedHeapPeekHead s.state.armedTimers x = some (aEEmpty, x)) ∨
      ∃ tmr, Pending s.log tmr ∧ s.state.armedTimers.heap 0 = some tmr ∧
        0 < s.state.armedTimers.entries ∧
        fixedHeapPeekHead s.state.armedTimers x = some (aOk, some tmr) := by
  by_cases hempty : s.state.armedTimers.entries = 0
  · refine .inl ⟨fun tmr hpending => ?_, if_pos hempty⟩
    have hmem := (hI.conserved.mem_items _).2 ⟨tmr, rfl, hpending⟩
    obtain ⟨k, hk, -⟩ := mem_itemsBelow.1 hmem
    omega
  · have hne := Nat.pos_of_ne_zero hempty
    obtain ⟨tmr, hhead, hpending⟩ :=
      (hI.conserved.mem_items _).1 (FixedHeap.heap_mem_items hne)
    refine .inr ⟨tmr, hpending, hhead, hne, ?_⟩
    rw [fixedHeapPeekHead_eq hI.wf hne, hhead]

theorem TimerLedger.Inv.pop (hI : s.Inv) (values : TimerValues ν) (hpending : Pending s.log tmr)
    (hhead : s.state.armedTimers.heap 0 = some tmr) (hne : 0 < s.state.armedTimers.entries)
    (x : Option ν) (entries : ListMem (TimerPtr ν)) :
    ∃ heap, fixedHeapPop (s.state.answering values).armedTimers s.state.nextFiring x =
        some (aOk, some tmr, heap, s.state.nextFiring) ∧
      TimerLedger.Inv ⟨⟨heap, s.state.nextFiring, entries⟩, .fired tmr :: s.log⟩ := by
  obtain ⟨heap, w, hpop, hsame, hent, hitems, rfl⟩ := fixedHeapPop_conserves
    (h := (s.state.answering values).armedTimers) (W := fun v => v = s.state.nextFiring)
    (keepsWorld_answering s.state values _) (hI.answering values).wf hne rfl x
  have hitems' : s.state.armedTimers.items = some tmr ::ₘ heap.items := by
    rw [← hhead]
    exact hitems
  have hnodup := hI.conserved.nodup
  rw [hitems', Multiset.nodup_cons] at hnodup
  refine ⟨heap, hhead ▸ hpop, hsame.wf (hI.answering values).wf ?_, ⟨hpending, hI.conserved.matched⟩,
    hnodup.2, fun y => ?_⟩
  · have hle := (hI.answering values).wf.entries_le
    exact (Nat.le_of_lt (hent ▸ Nat.lt_succ_self _)).trans hle
  · have hmem := hI.conserved.mem_items y
    rw [hitems', Multiset.mem_cons] at hmem
    simp only [pending_fired_cons]
    constructor
    · intro hy
      obtain ⟨u, rfl, hu⟩ := hmem.1 (.inr hy)
      refine ⟨u, rfl, fun he => hnodup.1 ?_, hu⟩
      rw [← he]
      exact hy
    · rintro ⟨u, rfl, hne', hu⟩
      rcases hmem.2 ⟨u, rfl, hu⟩ with he | hy
      · exact absurd (Option.some.inj he) hne'
      · exact hy

/-- A call that finds no timer due only reads. -/
theorem ledgerStep_idle (hI : s.Inv) {now : BitVec 64} (values : TimerValues ν)
    (callback : List (LedgerArm ν))
    (hdue : ∀ tmr, s.state.armedTimers.heap 0 = some tmr → Pending s.log tmr →
      ¬ s.state.nextFiring tmr ≤ now) :
    ledgerStep s (.fireNext now values callback) =
      some { s with state := s.state.answering values } := by
  rcases (hI.answering values).peek none with ⟨-, hpeek⟩ | ⟨tmr, hpending, hhead, -, hpeek⟩
  · simp only [ledgerStep, timerManagerFireNext_empty hpeek, Option.bind_eq_bind, Option.bind_some]
  · have hnot : ¬ (s.state.answering values).nextFiring tmr ≤ now := hdue tmr hhead hpending
    simp only [ledgerStep, timerManagerFireNext_not_due hpeek hnot, Option.bind_eq_bind,
      Option.bind_some]

/-- **A call that finds a timer due** takes it out and runs its callback. -/
theorem ledgerStep_due (hI : s.Inv) {now : BitVec 64} (values : TimerValues ν)
    (callback : List (LedgerArm ν)) (hhead : s.state.armedTimers.heap 0 = some tmr)
    (hpending : Pending s.log tmr) (hdue : s.state.nextFiring tmr ≤ now) :
    ∃ popped : TimerLedger ν, popped.Inv ∧ popped.log = .fired tmr :: s.log ∧
      popped.state.nextFiring = s.state.nextFiring ∧
      ledgerStep s (.fireNext now values callback) = exec TimerLedger.arm popped callback := by
  rcases (hI.answering values).peek none with ⟨hnone, -⟩ | ⟨tmr', hpending', hhead', hne, hpeek⟩
  · exact absurd hpending (hnone tmr)
  have htmr : tmr' = tmr := Option.some.inj (hhead'.symm.trans hhead)
  subst htmr
  obtain ⟨heap, hpop, hpopped⟩ := hI.pop values hpending hhead hne (some tmr')
    (listDel s.state.entries (.tnode tmr'))
  refine ⟨_, hpopped, rfl, rfl, ?_⟩
  simp only [ledgerStep]
  rw [timerManagerFireNext_due hpeek hdue hpop]
  change (((exec TimerLedger.arm ⟨⟨heap, s.state.nextFiring, listDel s.state.entries (.tnode tmr')⟩,
    .fired tmr' :: s.log⟩ callback).map TimerLedger.state).bind _).bind _ = _
  cases hrun : exec TimerLedger.arm ⟨⟨heap, s.state.nextFiring,
      listDel s.state.entries (.tnode tmr')⟩, .fired tmr' :: s.log⟩ callback with
  | none => rfl
  | some t =>
      obtain ⟨ht, hlog⟩ := TimerLedger.Inv.callback callback _ hpopped hrun
      simp only [Option.map_some, Option.bind_some]
      rcases ht.peek (some tmr') with ⟨-, hpeek'⟩ | ⟨next, -, -, -, hpeek'⟩
      · have hfail : afailed aEEmpty = true := afailed_aresultError _ _
        simp only [hpeek', Option.bind_some, hfail, if_true, ← hlog]
      · simp only [hpeek', Option.bind_some, afailed_aOk, Bool.false_eq_true, if_false, ← hlog]

/-- **Every call** conserves the timers. -/
theorem ledgerStep_inv (s : TimerLedger ν) (call : LedgerCall ν) (s' : TimerLedger ν) (hI : s.Inv)
    (hstep : ledgerStep s call = some s') : s'.Inv := by
  cases call with
  | arm c => exact (hI.arm hstep).1
  | fireNext now values callback =>
      by_cases hdue : ∃ tmr, s.state.armedTimers.heap 0 = some tmr ∧ Pending s.log tmr ∧
        s.state.nextFiring tmr ≤ now
      · obtain ⟨tmr, hhead, hpending, hle⟩ := hdue
        obtain ⟨popped, hpopped, -, -, heq⟩ := ledgerStep_due hI values callback hhead hpending hle
        rw [heq] at hstep
        exact (TimerLedger.Inv.callback callback popped hpopped hstep).1
      · rw [ledgerStep_idle hI values callback fun tmr hhead hpending hle =>
          hdue ⟨tmr, hhead, hpending, hle⟩] at hstep
        cases hstep
        exact hI.answering values

/-! ## Runs -/

/-- **The next calls** fire the armed timers, one each. -/
theorem firesEachOnce_of_inv (hI : s.Inv) : FiresEachOnce s := by
  unfold FiresEachOnce
  intro armed calls
  induction calls generalizing s armed with
  | nil =>
      intro _ _ hlength _
      have hnil : armed = [] := List.eq_nil_of_length_eq_zero hlength.symm
      exact ⟨s, [], rfl, rfl, by rw [hnil]⟩
  | cons c cs ih =>
      intro hnodup hmem hlength hdue
      rcases hI.peek none with ⟨hnone, -⟩ | ⟨tmr, hpending, hhead, -, -⟩
      · have hnil : armed = [] := List.eq_nil_iff_forall_not_mem.2 fun tmr htmr =>
          hnone tmr ((hmem tmr).1 htmr)
        rw [hnil] at hlength
        cases hlength
      have htmr : tmr ∈ armed := (hmem tmr).2 hpending
      obtain ⟨popped, hpopped, hlog, hfiring, heq⟩ := ledgerStep_due hI c.2 [] hhead hpending
        (hdue c List.mem_cons_self tmr htmr)
      have hmem' : ∀ u, u ∈ armed.erase tmr ↔ Pending popped.log u := by
        intro u
        rw [hnodup.mem_erase_iff, hmem, hlog, pending_fired_cons]
      have hlength' : cs.length = (armed.erase tmr).length := by
        rw [List.length_erase_of_mem htmr, ← hlength, List.length_cons, Nat.add_sub_cancel]
      have hdue' : ∀ c ∈ cs, ∀ u ∈ armed.erase tmr, popped.state.nextFiring u ≤ c.1 := by
        intro c hc u hu
        rw [hfiring]
        exact hdue c (List.mem_cons_of_mem _ hc) u (List.mem_of_mem_erase hu)
      obtain ⟨s', fired, hrun, hlog', hperm⟩ :=
        ih hpopped (armed.erase tmr) (hnodup.erase tmr) hmem' hlength' hdue'
      refine ⟨s', fired ++ [tmr], ?_, ?_, ?_⟩
      · rw [List.map_cons]
        exact exec_cons_eq_some.2 ⟨popped, heq, hrun⟩
      · rw [hlog', hlog, List.map_append, List.append_assoc]
        rfl
      · calc (fired ++ [tmr]).Perm (tmr :: fired) := List.perm_append_singleton tmr fired
          _ |>.Perm (tmr :: armed.erase tmr) := hperm.cons tmr
          _ |>.Perm armed := (List.perm_cons_erase htmr).symm

theorem ledgerInv_new {maxTimers : ℕ} {calloc : Bool × Bool} {nextFiring : Deadlines ν}
    {entries : ListMem (TimerPtr ν)} {s₀ : TimerState ν}
    (hnew : timerManagerNew maxTimers calloc nextFiring entries = (aOk, some s₀)) :
    TimerLedger.Inv ⟨s₀, []⟩ := by
  have hinit := inv_timerManagerNew hnew
  refine ⟨hinit.wf, trivial, ?_, fun x => ?_⟩
  · rw [hinit.items]
    exact Multiset.nodup_zero
  · rw [hinit.items]
    exact iff_of_false (Multiset.notMem_zero x) fun ⟨_, _, hpending⟩ => by cases hpending

/-- **Timers are neither lost nor duplicated**, in any run and whatever the comparison callback
    returns. -/
theorem timersConserved_of_run {maxTimers : ℕ} {calloc : Bool × Bool} {nextFiring : Deadlines ν}
    {entries : ListMem (TimerPtr ν)} {s₀ : TimerState ν}
    (hnew : timerManagerNew maxTimers calloc nextFiring entries = (aOk, some s₀))
    (calls : List (LedgerCall ν)) {s : TimerLedger ν}
    (hrun : exec ledgerStep ⟨s₀, []⟩ calls = some s) : Conserved s ∧ FiresEachOnce s := by
  have hinv : s.Inv := exec_invariant ledgerStep_inv (ledgerInv_new hnew) hrun
  exact ⟨hinv.conserved, firesEachOnce_of_inv hinv⟩

end Ledger

/-- Two timers under callbacks that disagree, the first of which arms itself again when it fires. -/
theorem timersConserved_of_run_two :
    ∃ s₀ s, fourTimers = (aOk, some s₀) ∧
      exec ledgerStep ⟨s₀, []⟩ [.arm (.armAt 0 9, fun _ _ _ => 1), .arm (.armAt 1 4, fun _ _ _ => -1),
        .fireNext 10 (fun _ _ _ => 1) [(.armAt 1 20, fun _ _ _ => -1)]] = some s ∧
      Conserved s ∧ FiresEachOnce s := by
  have hnew : fourTimers = (aOk, some (fourTimers.2.get rfl)) := rfl
  obtain ⟨s, hs⟩ := Option.isSome_iff_exists.1 (show (exec ledgerStep
    ⟨fourTimers.2.get rfl, []⟩ [.arm (.armAt 0 9, fun _ _ _ => 1), .arm (.armAt 1 4, fun _ _ _ => -1),
      .fireNext 10 (fun _ _ _ => 1) [(.armAt 1 20, fun _ _ _ => -1)]]).isSome = true by
        decide +kernel)
  exact ⟨_, s, hnew, hs, timersConserved_of_run hnew _ hs⟩

end Tsl
