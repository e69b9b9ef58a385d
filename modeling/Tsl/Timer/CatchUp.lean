import Tsl.Timer.Order

set_option autoImplicit false

/-! # A timer manager that is polled catches up

`timer_manager_fire_next` fires at most one timer, so one call does not serve all the timers that are
due. Whoever calls it again and again catches up all the same: each call at a time when a deadline `d`
has passed takes one timer with a deadline up to `d` out, as long as there is one. So as many calls as
there are such timers leave none, if only later deadlines are set meanwhile, and each of those timers
has been fired once. -/

namespace Tsl

open Lib

variable {ν : Type}

/-- The armed timers whose deadline is not after `d`. -/
def dueBy (nextFiring : Deadlines ν) (armed : List ν) (d : BitVec 64) : ℕ :=
  armed.countP fun tmr => nextFiring tmr ≤ d

namespace TimerRun

/-- How many armed timers have a deadline up to `d`. -/
def due (s : TimerRun ν) (d : BitVec 64) : ℕ := dueBy s.state.nextFiring s.armed d

/-- How many timers with a deadline up to `d` were fired. -/
def firedBy (s : TimerRun ν) (d : BitVec 64) : ℕ :=
  s.history.countP fun e => e.fired.any fun deadline => deadline ≤ d

end TimerRun

namespace TimerCall

/-- The manager is asked to fire a timer when `d` has passed. -/
def polls (d : BitVec 64) : TimerCall ν → Bool
  | .arm _ => false
  | .fireNext now _ => d ≤ now

/-- What is armed gets a deadline after `d`. -/
def ArmsAfter (d : BitVec 64) : TimerCall ν → Prop
  | .arm c => d < c.deadline
  | .fireNext _ callback => ∀ c ∈ callback, d < c.deadline

end TimerCall

/-- From `s` to `s'` the manager was polled so many times, and `d` had passed each time. -/
structure CatchesUp (s s' : TimerRun ν) (d : BitVec 64) (polls : ℕ) : Prop where
  due : s'.due d ≤ s.due d - polls
  /-- Each timer that is no longer due was fired, and no other. -/
  fired : s'.firedBy d + s'.due d = s.firedBy d + s.due d

/-! ## One call -/

section Calls

variable [DecidableEq ν] {s s' : TimerRun ν} {state : TimerState ν} {armed : List ν} {tmr : ν}
  {c : ArmCall ν} {d now : BitVec 64}

theorem dueBy_armed {nextFiring : Deadlines ν} {deadline : BitVec 64} (hnew : tmr ∉ armed)
    (hlate : d < deadline) :
    dueBy (Function.update nextFiring tmr deadline) (tmr :: armed) d = dueBy nextFiring armed d := by
  have hself : ¬ Function.update nextFiring tmr deadline tmr ≤ d := by
    rw [Function.update_self]
    exact BitVec.not_le.2 hlate
  unfold dueBy
  rw [List.countP_cons_of_neg (by simpa using hself)]
  refine List.countP_congr fun t ht => ?_
  have hne : t ≠ tmr := by
    rintro rfl
    exact hnew ht
  rw [Function.update_of_ne hne]

theorem notMem_of_armStep (hI : state.Inv armed) {state' : TimerState ν}
    (hstep : armStep state c = some state') : c.timer ∉ armed := by
  intro hmem
  have hheld : some c.timer ∈ state.armedTimers.items := by
    rw [hI.items, Multiset.mem_coe]
    exact List.mem_map_of_mem hmem
  rw [armStep, if_neg fun hok => hok.1 hheld] at hstep
  cases hstep

theorem dueBy_callback (callback : List (ArmCall ν)) (hlate : ∀ c ∈ callback, d < c.deadline) :
    ∀ (state : TimerState ν) (armed : List ν) (state' : TimerState ν), state.Inv armed →
      ArmsCompareRight state.nextFiring armed callback →
      exec armStep state callback = some state' →
      dueBy state'.nextFiring (armedAfter armed callback) d = dueBy state.nextFiring armed d := by
  induction callback with
  | nil =>
      intro state armed state' _ _ hrun
      obtain rfl : state = state' := Option.some.inj hrun
      rfl
  | cons c cs ih =>
      intro state armed state' hI hright hrun
      obtain ⟨state₁, hstep, hrest⟩ := exec_cons_eq_some.1 hrun
      obtain ⟨hnext, hI₁⟩ := armStep_spec hI hright.1 hstep
      have hlast := ih (fun c' hc' => hlate c' (List.mem_cons_of_mem _ hc')) state₁
        (c.timer :: armed) state' hI₁ (by rw [hnext]; exact hright.2) hrest
      rw [hnext, dueBy_armed (notMem_of_armStep hI hstep) (hlate c List.mem_cons_self)] at hlast
      exact hlast

/-- What a call of `timer_manager_fire_next` comes to. -/
inductive FireNext (s : TimerRun ν) (now : BitVec 64) (callback : List (ArmCall ν)) :
    TimerRun ν → Prop
  | idle {e : FireEvent} (later : ∀ t ∈ s.armed, now < s.state.nextFiring t) (none : e.fired = none) :
      FireNext s now callback { s with history := e :: s.history }
  | fired {tmr : ν} {heap : FixedHeap (Deadlines ν) (Option ν)} {entries : ListMem (TimerPtr ν)}
      {state : TimerState ν} {e : FireEvent} (mem : tmr ∈ s.armed)
      (first : ∀ t ∈ s.armed, s.state.nextFiring tmr ≤ s.state.nextFiring t)
      (inv : TimerState.Inv ⟨heap, s.state.nextFiring, entries⟩ (s.armed.erase tmr))
      (right : ArmsCompareRight s.state.nextFiring (s.armed.erase tmr) callback)
      (ran : exec armStep ⟨heap, s.state.nextFiring, entries⟩ callback = some state)
      (some : e.fired = some (s.state.nextFiring tmr)) :
      FireNext s now callback
        ⟨state, armedAfter (s.armed.erase tmr) callback, e :: s.history⟩

theorem fireNext_cases {callback : List (ArmCall ν)} (hI : s.state.Inv s.armed)
    (hright : CallComparesRight s (.fireNext now callback))
    (hstep : timerStep s (.fireNext now callback) = some s') : FireNext s now callback s' := by
  simp only [timerStep, Option.bind_eq_bind, Option.bind_eq_some_iff, Option.some.injEq,
    Prod.exists] at hstep
  obtain ⟨ret, pnext, fired, state, hfire, rfl⟩ := hstep
  rcases hI.peek none with ⟨hnil, hpeek⟩ | ⟨tmr, htmr, hhead, hpeek, hmin⟩
  · rw [timerManagerFireNext_empty hpeek] at hfire
    simp only [Option.some.injEq, Prod.mk.injEq] at hfire
    obtain ⟨-, rfl, rfl, rfl⟩ := hfire
    refine .idle (fun t ht => ?_) rfl
    rw [hnil] at ht
    cases ht
  · by_cases hnow : s.state.nextFiring tmr ≤ now
    · obtain ⟨heap, hpop, hI₁⟩ := hI.pop htmr hhead (some tmr)
        (listDel s.state.entries (.tnode tmr))
      rw [timerManagerFireNext_due hpeek hnow hpop] at hfire
      simp only [Option.bind_eq_some_iff, Prod.exists] at hfire
      obtain ⟨s₂, hcallback, ret₂, next, -, hfire⟩ := hfire
      have hended : fired = some tmr ∧ state = s₂ := by
        split at hfire
        · simp only [Option.some.injEq, Prod.mk.injEq] at hfire
          exact ⟨hfire.2.2.1.symm, hfire.2.2.2.symm⟩
        · obtain ⟨x, -, hfire⟩ := Option.bind_eq_some_iff.1 hfire
          simp only [Option.some.injEq, Prod.mk.injEq] at hfire
          exact ⟨hfire.2.2.1.symm, hfire.2.2.2.symm⟩
      obtain ⟨rfl, rfl⟩ := hended
      exact .fired htmr hmin hI₁ (hright tmr hhead hnow) hcallback rfl
    · rw [timerManagerFireNext_not_due hpeek hnow] at hfire
      simp only [Option.some.injEq, Prod.mk.injEq] at hfire
      obtain ⟨-, rfl, rfl, rfl⟩ := hfire
      exact .idle (fun t ht => Nat.lt_of_lt_of_le (BitVec.not_le.1 hnow) (hmin t ht)) rfl

omit [DecidableEq ν] in
/-- No armed timer has a deadline up to `d`, if they are all later than something after `d`. -/
theorem due_eq_zero (h : ∀ t ∈ s.armed, d < s.state.nextFiring t) : s.due d = 0 := by
  refine List.countP_eq_zero.2 fun t ht => ?_
  simpa using BitVec.not_le.2 (h t ht)

/-- **One call** that polls takes out a timer with a deadline up to `d`, if there is one. -/
theorem catchesUp_step {call : TimerCall ν} (hI : s.state.Inv s.armed)
    (hright : CallComparesRight s call) (hlate : call.ArmsAfter d)
    (hstep : timerStep s call = some s') :
    CatchesUp s s' d (if call.polls d then 1 else 0) := by
  cases call with
  | arm c =>
      simp only [timerStep, Option.bind_eq_bind, Option.bind_eq_some_iff, Option.some.injEq] at hstep
      obtain ⟨state, harm, rfl⟩ := hstep
      obtain ⟨hnext, -⟩ := armStep_spec hI hright.1 harm
      have hdue : dueBy state.nextFiring (c.timer :: s.armed) d = s.due d := by
        rw [hnext]
        exact dueBy_armed (notMem_of_armStep hI harm) hlate
      exact ⟨hdue.le, congrArg (s.firedBy d + ·) hdue⟩
  | fireNext now callback =>
      cases fireNext_cases hI hright hstep with
      | @idle e hlater hnone =>
          refine ⟨?_, ?_⟩
          · split
            · next hpoll =>
                have hpassed : d ≤ now := by simpa [TimerCall.polls] using hpoll
                have hzero : s.due d = 0 :=
                  due_eq_zero fun t ht => Nat.lt_of_le_of_lt hpassed (hlater t ht)
                exact hzero.le.trans (Nat.zero_le _)
            · exact Nat.le_refl _
          · have hfired : TimerRun.firedBy { s with history := e :: s.history } d = s.firedBy d :=
              List.countP_cons_of_neg (by simp [hnone])
            rw [hfired]
            rfl
      | @fired tmr heap entries state e hmem hfirst hinv hcmp hran hsome =>
          have hrest : TimerRun.due ⟨state, armedAfter (s.armed.erase tmr) callback, e :: s.history⟩ d =
              dueBy s.state.nextFiring (s.armed.erase tmr) d :=
            dueBy_callback callback hlate ⟨heap, s.state.nextFiring, entries⟩ _ state hinv hcmp hran
          have hsplit : s.due d = dueBy s.state.nextFiring (tmr :: s.armed.erase tmr) d :=
            (List.perm_cons_erase hmem).countP_eq _
          have hpolls : (if TimerCall.polls d (.fireNext now callback) then 1 else 0) ≤ 1 := by
            split <;> omega
          by_cases hdue : s.state.nextFiring tmr ≤ d
          · have hone : s.due d = dueBy s.state.nextFiring (s.armed.erase tmr) d + 1 :=
              hsplit.trans (List.countP_cons_of_pos (by simpa using hdue))
            have hfired : TimerRun.firedBy
                ⟨state, armedAfter (s.armed.erase tmr) callback, e :: s.history⟩ d =
                  s.firedBy d + 1 :=
              List.countP_cons_of_pos (by simpa [hsome] using hdue)
            exact ⟨by omega, by omega⟩
          · -- the first timer is later than `d`, and so is every other
            have hzero : s.due d = 0 := due_eq_zero fun t ht =>
              Nat.lt_of_lt_of_le (BitVec.not_le.1 hdue) (hfirst t ht)
            have hnone : s.due d = dueBy s.state.nextFiring (s.armed.erase tmr) d :=
              hsplit.trans (List.countP_cons_of_neg (by simpa using hdue))
            have hfired : TimerRun.firedBy
                ⟨state, armedAfter (s.armed.erase tmr) callback, e :: s.history⟩ d = s.firedBy d :=
              List.countP_cons_of_neg (by simpa [hsome] using hdue)
            exact ⟨by omega, by omega⟩

end Calls

/-! ## Any number of calls -/

section Runs

variable [DecidableEq ν] {s s₁ s₂ : TimerRun ν} {d : BitVec 64}

omit [DecidableEq ν] in
theorem CatchesUp.trans {polls polls' : ℕ} (h : CatchesUp s s₁ d polls)
    (h' : CatchesUp s₁ s₂ d polls') : CatchesUp s s₂ d (polls + polls') where
  due := by
    have hfirst := h.due
    have hsecond := h'.due
    omega
  fired := h'.fired.trans h.fired

/-- **A run** of calls that polls `k` times leaves `k` timers less that are due. -/
theorem catchesUp_run (calls : List (TimerCall ν)) (hlate : ∀ c ∈ calls, c.ArmsAfter d) :
    ∀ s, s.state.Inv s.armed ∧ FiresInOrder s → Meets timerStep CallComparesRight s calls →
      exec timerStep s calls = some s₁ →
        CatchesUp s s₁ d (calls.countP (TimerCall.polls d)) := by
  induction calls with
  | nil =>
      intro s _ _ hrun
      obtain rfl : s = s₁ := Option.some.inj hrun
      exact ⟨Nat.le_refl _, rfl⟩
  | cons call calls ih =>
      intro s hI hright hrun
      obtain ⟨t, hstep, hrest⟩ := exec_cons_eq_some.1 hrun
      simp only [Meets, hstep] at hright
      have hone := catchesUp_step hI.1 hright.1 (hlate call List.mem_cons_self) hstep
      have hI' := inOrder_timerStep s call t hI hright.1 hstep
      have hcalls := ih (fun c hc => hlate c (List.mem_cons_of_mem _ hc)) t hI' hright.2 hrest
      rw [List.countP_cons, Nat.add_comm]
      exact hone.trans hcalls

/-- **A timer manager catches up.** In every run in which what is armed compares right with what is
armed already, from any point on where only deadlines after `d` are set any more: every call at a time
after `d` leaves one timer less with a deadline up to `d`, each of them having been fired once, and
after as many such calls as there were such timers all armed timers are later than `d`. -/
theorem catchesUp_of_meets {maxTimers : ℕ} {calloc : Bool × Bool} {nextFiring : Deadlines ν}
    {entries : ListMem (TimerPtr ν)} {s₀ : TimerState ν}
    (hnew : timerManagerNew maxTimers calloc nextFiring entries = (aOk, some s₀))
    (before later : List (TimerCall ν))
    (hbefore : Meets timerStep CallComparesRight ⟨s₀, [], []⟩ before)
    (hrun : exec timerStep ⟨s₀, [], []⟩ before = some s₁)
    (hlater : Meets timerStep CallComparesRight s₁ later) (hlate : ∀ c ∈ later, c.ArmsAfter d)
    (hrun' : exec timerStep s₁ later = some s₂) :
    CatchesUp s₁ s₂ d (later.countP (TimerCall.polls d)) ∧
      (s₁.due d ≤ later.countP (TimerCall.polls d) →
        ∀ tmr ∈ s₂.armed, d < s₂.state.nextFiring tmr) := by
  have hinit : (TimerRun.mk s₀ [] []).state.Inv [] ∧ FiresInOrder (TimerRun.mk s₀ [] []) :=
    ⟨inv_timerManagerNew hnew, fun e he => absurd he List.not_mem_nil⟩
  have hI : s₁.state.Inv s₁.armed ∧ FiresInOrder s₁ :=
    exec_invariant_of_meets (I := fun s => s.state.Inv s.armed ∧ FiresInOrder s)
      inOrder_timerStep hinit hbefore hrun
  have hcatches := catchesUp_run later hlate s₁ hI hlater hrun'
  refine ⟨hcatches, fun hpolls tmr htmr => ?_⟩
  have hzero : s₂.due d = 0 := by
    have hdue := hcatches.due
    omega
  have hnone := List.countP_eq_zero.1 hzero tmr htmr
  exact BitVec.not_le.1 (by simpa using hnone)

/-- Two timers that are due at 9, one of which arms itself again for later, and two calls. -/
theorem catchesUp_of_meets_two :
    ∃ s₀ s₁ s₂, fourTimers = (aOk, some s₀) ∧
      exec timerStep ⟨s₀, [], []⟩ [.arm (.armAt 0 7), .arm (.armAt 1 9)] = some s₁ ∧
      exec timerStep s₁ [.fireNext 10 [.armAt 0 1000], .fireNext 11 []] = some s₂ ∧
      ∀ tmr ∈ s₂.armed, 9 < s₂.state.nextFiring tmr := by
  have hnew : fourTimers = (aOk, some (fourTimers.2.get rfl)) := rfl
  obtain ⟨s₁, hrun⟩ := Option.isSome_iff_exists.1 (show (exec timerStep
    ⟨fourTimers.2.get rfl, [], []⟩ [.arm (.armAt 0 7), .arm (.armAt 1 9)]).isSome by decide +kernel)
  have hpolled : (exec timerStep ⟨fourTimers.2.get rfl, [], []⟩
      [.arm (.armAt 0 7), .arm (.armAt 1 9)]).all fun s₁ =>
        s₁.due 9 = 2 ∧
        Meets timerStep CallComparesRight s₁ [.fireNext 10 [.armAt 0 1000], .fireNext 11 []] ∧
        (exec timerStep s₁ [.fireNext 10 [.armAt 0 1000], .fireNext 11 []]).isSome := by
    decide +kernel
  rw [hrun, Option.all_some, decide_eq_true_iff] at hpolled
  obtain ⟨hdue, hlater, hsome⟩ := hpolled
  obtain ⟨s₂, hrun'⟩ := Option.isSome_iff_exists.1 hsome
  have hcatches := catchesUp_of_meets (d := 9) hnew [.arm (.armAt 0 7), .arm (.armAt 1 9)]
    [.fireNext 10 [.armAt 0 1000], .fireNext 11 []] (by decide +kernel) hrun hlater
    (by simp [TimerCall.ArmsAfter, ArmCall.deadline]) hrun'
  exact ⟨_, s₁, s₂, hnew, hrun, hrun', hcatches.2 hdue.le⟩

end Runs

end Tsl
