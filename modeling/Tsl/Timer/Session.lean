import Tsl.Timer.Order

set_option autoImplicit false

/-! # Sessions of a timer manager

A fire callback is code of the program: it may arm and disarm timers and call
`timer_manager_fire_next` again. `timer_manager_fire_next` is therefore cut in two at the call of
`fire` (`timerManagerFireNext_eq`), and a session takes one step for each part: in between, the
callback takes any steps it likes. The callbacks that are running form a stack.

A step never fails for lack of anything in the manager: `sessionStep_cases` says what each of them
does, and in which states there is none. -/

namespace Tsl

open Lib

variable {ν : Type}

section Code

variable [DecidableEq ν]

/-- `timer_disarm`. -/
def timerDisarm (s : TimerState ν) (tmr : ν) : AResult × TimerState ν :=
  (aOk, { s with nextFiring := Function.update s.nextFiring tmr 0 })

end Code

/-- How far `timer_manager_fire_next` gets without running a callback. -/
inductive FireBegin (ν : Type) where
  /-- It returns, with the code and `*pnext`. -/
  | returns (ret : AResult) (pnext : BitVec 64)
  /-- It calls `tmr->fire(tmr)`. -/
  | fires (tmr : ν)

section Code

variable [DecidableEq ν]

/-- `timer_manager_fire_next` up to the call of `fire`. -/
def fireNextBegin (s : TimerState ν) (now : BitVec 64) :
    Option (FireBegin ν × TimerState ν) := do
  let (ret, tmr) ← fixedHeapPeekHead s.armedTimers none
  if afailed ret then
    some (.returns (if ret = aEEmpty then aOk else ret) 0, s)
  else do
    let first ← tmr
    if now ≥ s.nextFiring first then do
      let (ret, tmr, heap, nextFiring) ← fixedHeapPop s.armedTimers s.nextFiring tmr
      let s := { s with armedTimers := heap, nextFiring := nextFiring }
      if afailed ret then
        some (.returns ret 0, s)
      else do
        let expired ← tmr
        some (.fires expired, { s with entries := listDel s.entries (.tnode expired) })
    else
      some (.returns ret (s.nextFiring first), s)

/-- `timer_manager_fire_next` from the return of `fire`: the code and `*pnext`. -/
def fireNextEnd (s : TimerState ν) (tmr : ν) : Option (AResult × BitVec 64) := do
  let (ret, tmr) ← fixedHeapPeekHead s.armedTimers (some tmr)
  if afailed ret then
    some (ret, 0)
  else do
    let next ← tmr
    some (ret, s.nextFiring next)

/-- The two parts and the callback between them are the function. -/
theorem timerManagerFireNext_eq (s : TimerState ν) (now : BitVec 64)
    (fire : ν → TimerState ν → Option (TimerState ν)) :
    timerManagerFireNext s now fire =
      (fireNextBegin s now).bind fun (begun, s) =>
        match begun with
        | .returns ret pnext => some (ret, pnext, none, s)
        | .fires tmr =>
            (fire tmr s).bind fun s =>
              (fireNextEnd s tmr).map fun (ret, pnext) => (ret, pnext, some tmr, s) := by
  unfold timerManagerFireNext fireNextBegin
  cases fixedHeapPeekHead s.armedTimers none with
  | none => rfl
  | some peeked =>
      obtain ⟨ret, first⟩ := peeked
      simp only [Option.bind_eq_bind, Option.bind_some]
      by_cases hpeeked : afailed ret = true
      · rw [if_pos hpeeked, if_pos hpeeked, Option.bind_some]
      rw [if_neg hpeeked, if_neg hpeeked]
      cases first with
      | none => rfl
      | some first =>
          simp only [Option.bind_some]
          by_cases hnow : now ≥ s.nextFiring first
          · rw [if_pos hnow, if_pos hnow]
            cases fixedHeapPop s.armedTimers s.nextFiring (some first) with
            | none => rfl
            | some popped =>
                obtain ⟨ret, expired, heap, nextFiring⟩ := popped
                simp only [Option.bind_some]
                by_cases hpopped : afailed ret = true
                · rw [if_pos hpopped, if_pos hpopped, Option.bind_some]
                rw [if_neg hpopped, if_neg hpopped]
                cases expired with
                | none => rfl
                | some expired =>
                    simp only [Option.bind_some]
                    congr 1
                    funext s'
                    unfold fireNextEnd
                    cases fixedHeapPeekHead s'.armedTimers (some expired) with
                    | none => rfl
                    | some left =>
                        simp only [Option.bind_eq_bind, Option.bind_some]
                        split
                        · rfl
                        · cases left.2 <;> rfl
          · rw [if_neg hnow, if_neg hnow, Option.bind_some]

end Code

/-! ## Sessions -/

/-- What happened in a session. -/
inductive SessionEvent (ν : Type) where
  /-- An arm call for the timer returned `ret`. -/
  | armed (tmr : ν) (ret : AResult)
  | disarmed (tmr : ν)
  | fired (tmr : ν)
  /-- A call of `timer_manager_fire_next` returned `ret` and left `*pnext`. -/
  | answered (ret : AResult) (pnext : BitVec 64)
deriving DecidableEq

/-- The manager and its timers, the timers whose callbacks are running, innermost first, and what
    happened, latest first. -/
structure Session (ν : Type) where
  state : TimerState ν
  running : List ν
  log : List (SessionEvent ν)

/-- A step of a session, by the program or by a callback of its. -/
inductive SessionMove (ν : Type) where
  | arm (c : ArmCall ν)
  | disarm (tmr : ν)
  /-- `timer_manager_fire_next` is called at the clock reading `now`. -/
  | fireNext (now : BitVec 64)
  /-- The innermost callback returns, and then the call that ran it. -/
  | callbackReturns

section Machine

variable [DecidableEq ν]

/-- One step. -/
def sessionStep (s : Session ν) : SessionMove ν → Option (Session ν)
  | .arm c => do
      let (ret, state) ← c.run s.state
      some { s with state := state, log := .armed c.timer ret :: s.log }
  | .disarm tmr =>
      some { s with state := (timerDisarm s.state tmr).2, log := .disarmed tmr :: s.log }
  | .fireNext now => do
      let (begun, state) ← fireNextBegin s.state now
      match begun with
      | .returns ret pnext => some { s with state := state, log := .answered ret pnext :: s.log }
      | .fires tmr =>
          some { state := state, running := tmr :: s.running, log := .fired tmr :: s.log }
  | .callbackReturns =>
      match s.running with
      | [] => none
      | tmr :: running => do
          let (ret, pnext) ← fireNextEnd s.state tmr
          some { s with running := running, log := .answered ret pnext :: s.log }

/-- A fire callback that takes the steps `moves`. -/
def callbackOf (s : Session ν) (moves : List (SessionMove ν)) (tmr : ν) (state : TimerState ν) :
    Option (TimerState ν) :=
  (exec sessionStep
    { state := state, running := tmr :: s.running, log := .fired tmr :: s.log } moves).map
      Session.state

/-- A call in a session, from its first step to the return of its callback, is the function with
    that callback. -/
theorem timerManagerFireNext_of_session {s s₁ s₂ s₃ : Session ν} {now : BitVec 64} {tmr : ν}
    {moves : List (SessionMove ν)} (hcall : sessionStep s (.fireNext now) = some s₁)
    (hfires : s₁.running = tmr :: s.running) (hcallback : exec sessionStep s₁ moves = some s₂)
    (hinner : s₂.running = s₁.running) (hreturns : sessionStep s₂ .callbackReturns = some s₃) :
    ∃ ret pnext, s₃.log = .answered ret pnext :: s₂.log ∧ s₃.running = s.running ∧
      timerManagerFireNext s.state now (callbackOf s moves) =
        some (ret, pnext, some tmr, s₃.state) := by
  simp only [sessionStep, Option.bind_eq_bind, Option.bind_eq_some_iff, Prod.exists] at hcall
  obtain ⟨begun, state, hbegin, hcall⟩ := hcall
  cases begun with
  | returns ret pnext =>
      obtain rfl := Option.some.inj hcall
      exact absurd hfires (List.cons_ne_self _ _).symm
  | fires expired =>
      obtain rfl := Option.some.inj hcall
      obtain rfl : expired = tmr := (List.cons.inj hfires).1
      rw [hfires] at hinner
      simp only [sessionStep, hinner, Option.bind_eq_bind, Option.bind_eq_some_iff, Prod.exists,
        Option.some.injEq] at hreturns
      obtain ⟨ret, pnext, hend, rfl⟩ := hreturns
      refine ⟨ret, pnext, rfl, rfl, ?_⟩
      have hfire : callbackOf s moves expired state = some s₂.state := by
        rw [callbackOf, hcallback, Option.map_some]
      simp only [timerManagerFireNext_eq, hbegin, Option.bind_some, hfire, hend, Option.map_some]

end Machine

/-! ## What the parts do -/

/-- The timer at the head of the heap. -/
def TimerState.first (s : TimerState ν) : Option ν :=
  if s.armedTimers.entries = 0 then none else s.armedTimers.heap 0

/-- The heap is well formed and holds timers. -/
structure TimerState.Sound (s : TimerState ν) : Prop where
  compare_eq : s.armedTimers.compare = timerManagerSortTimers
  wf : s.armedTimers.Wf
  timers : none ∉ s.armedTimers.items

theorem keepsWorld_sortTimers (w : Deadlines ν) :
    KeepsWorld (timerManagerSortTimers (ν := ν)) (fun v => v = w) := by
  rintro v x y rfl
  cases x <;> cases y <;> rfl

variable {s : TimerState ν} {tmr : ν}

theorem TimerState.first_eq_none_iff (hs : s.Sound) : s.first = none ↔ s.armedTimers.items = 0 := by
  unfold TimerState.first
  split
  · next hempty =>
    refine iff_of_true rfl (Multiset.card_eq_zero.1 ?_)
    simpa [FixedHeap.items] using hempty
  · next hne =>
    have hmem := FixedHeap.heap_mem_items (Nat.pos_of_ne_zero hne)
    refine iff_of_false (fun hnone => hs.timers (hnone ▸ hmem)) fun hzero => ?_
    rw [hzero] at hmem
    exact Multiset.notMem_zero _ hmem

theorem TimerState.first_mem (hfirst : s.first = some tmr) : some tmr ∈ s.armedTimers.items := by
  unfold TimerState.first at hfirst
  split at hfirst
  · cases hfirst
  · next hne =>
    rw [← hfirst]
    exact FixedHeap.heap_mem_items (Nat.pos_of_ne_zero hne)

theorem TimerState.peek_first (hs : s.Sound) (x : Option ν) :
    fixedHeapPeekHead s.armedTimers x =
      match s.first with
      | none => some (aEEmpty, x)
      | some tmr => some (aOk, some tmr) := by
  by_cases hempty : s.armedTimers.entries = 0
  · simp only [TimerState.first, if_pos hempty]
    exact if_pos hempty
  · have hne := Nat.pos_of_ne_zero hempty
    have hmem := FixedHeap.heap_mem_items hne
    rw [fixedHeapPeekHead_eq hs.wf hne]
    simp only [TimerState.first, if_neg hempty]
    cases hhead : s.armedTimers.heap 0 with
    | none => exact absurd (hhead ▸ hmem) hs.timers
    | some tmr => rfl

theorem TimerState.pop_first (hs : s.Sound) (hfirst : s.first = some tmr) (x : Option ν)
    (entries : ListMem (TimerPtr ν)) :
    ∃ heap, fixedHeapPop s.armedTimers s.nextFiring x = some (aOk, some tmr, heap, s.nextFiring) ∧
      TimerState.Sound ⟨heap, s.nextFiring, entries⟩ ∧
      s.armedTimers.items = some tmr ::ₘ heap.items := by
  have hne : 0 < s.armedTimers.entries := by
    refine Nat.pos_of_ne_zero fun hempty => ?_
    rw [TimerState.first, if_pos hempty] at hfirst
    cases hfirst
  have hhead : s.armedTimers.heap 0 = some tmr := by
    rwa [TimerState.first, if_neg (Nat.pos_iff_ne_zero.1 hne)] at hfirst
  obtain ⟨heap, w, hpop, hsame, hent, hitems, rfl⟩ := fixedHeapPop_conserves
    (h := s.armedTimers) (W := fun v => v = s.nextFiring)
    (by rw [hs.compare_eq]; exact keepsWorld_sortTimers s.nextFiring) hs.wf hne rfl x
  rw [hhead] at hpop hitems
  have hle := hs.wf.entries_le
  refine ⟨heap, hpop, ⟨hsame.compare.trans hs.compare_eq, hsame.wf hs.wf (by omega), ?_⟩, hitems⟩
  exact fun hnone => hs.timers (hitems ▸ Multiset.mem_cons_of_mem hnone)

theorem fireNextEnd_spec (hs : s.Sound) (tmr : ν) :
    fireNextEnd s tmr =
      match s.first with
      | none => some (aEEmpty, 0)
      | some next => some (aOk, s.nextFiring next) := by
  have hpeek := TimerState.peek_first hs (some tmr)
  cases hfirst : s.first with
  | none =>
      rw [hfirst] at hpeek
      have hfail : afailed aEEmpty = true := afailed_aresultError _ _
      simp [fireNextEnd, hpeek, hfail]
  | some next =>
      rw [hfirst] at hpeek
      simp [fireNextEnd, hpeek]

section Parts

variable [DecidableEq ν]

/-- What an arm call does: the timer gets its deadline and goes on the list, and into the heap if
    there is room. -/
structure ArmCall.Effect (c : ArmCall ν) (s : TimerState ν) (ret : AResult) (s' : TimerState ν) :
    Prop where
  sound : s'.Sound
  nextFiring : s'.nextFiring = Function.update s.nextFiring c.timer c.deadline
  entries : s'.entries = listAppend s.entries .liveTimers (.tnode c.timer)
  heap :
    s.armedTimers.entries < s.armedTimers.capacity ∧ ret = aOk ∧
        s'.armedTimers.items = some c.timer ::ₘ s.armedTimers.items ∨
      s.armedTimers.capacity ≤ s.armedTimers.entries ∧ ret = aEInval ∧
        s'.armedTimers = s.armedTimers

theorem ArmCall.run_spec (hs : s.Sound) (c : ArmCall ν) :
    ∃ ret s', c.run s = some (ret, s') ∧ c.Effect s ret s' := by
  rw [ArmCall.run_eq]
  set w := Function.update s.nextFiring c.timer c.deadline with hw
  by_cases hroom : s.armedTimers.entries < s.armedTimers.capacity
  · obtain ⟨heap, w', hpush, hsame, hent, hitems, rfl⟩ := fixedHeapPush_conserves
      (h := s.armedTimers) (W := fun v => v = w) (by rw [hs.compare_eq]; exact keepsWorld_sortTimers w)
      hs.wf hroom rfl (some c.timer)
    have hadd := timerManagerAddTimer_eq (s := { s with nextFiring := w }) hpush
    refine ⟨_, _, hadd, ⟨hsame.compare.trans hs.compare_eq, hsame.wf hs.wf (by omega), ?_⟩, rfl, rfl,
      .inl ⟨hroom, rfl, hitems⟩⟩
    rw [hitems, Multiset.mem_cons, not_or]
    exact ⟨Option.some_ne_none _ |>.symm, hs.timers⟩
  · have hfull := Nat.le_of_not_lt hroom
    have hadd := timerManagerAddTimer_eq (s := { s with nextFiring := w })
      (fixedHeapPush_full hfull w (some c.timer))
    exact ⟨_, _, hadd, ⟨hs.compare_eq, hs.wf, hs.timers⟩, rfl, rfl, .inr ⟨hfull, rfl, rfl⟩⟩

/-- `timer_manager_fire_next` finds no timer, or one that is not due, or takes out one that is. -/
theorem fireNextBegin_spec (hs : s.Sound) (now : BitVec 64) :
    (s.first = none ∧ fireNextBegin s now = some (.returns aOk 0, s)) ∨
      (∃ tmr, s.first = some tmr ∧ now < s.nextFiring tmr ∧
        fireNextBegin s now = some (.returns aOk (s.nextFiring tmr), s)) ∨
      ∃ tmr s', s.first = some tmr ∧ s.nextFiring tmr ≤ now ∧
        fireNextBegin s now = some (.fires tmr, s') ∧ s'.Sound ∧ s'.nextFiring = s.nextFiring ∧
        s'.entries = listDel s.entries (.tnode tmr) ∧
        s.armedTimers.items = some tmr ::ₘ s'.armedTimers.items := by
  have hpeek := TimerState.peek_first hs none
  cases hfirst : s.first with
  | none =>
      have hfail : afailed aEEmpty = true := afailed_aresultError _ _
      refine .inl ⟨rfl, ?_⟩
      simp only [fireNextBegin, hpeek, hfirst, hfail, Option.bind_eq_bind, Option.bind_some, if_true]
  | some tmr =>
      simp only [hfirst] at hpeek
      by_cases hnow : now < s.nextFiring tmr
      · refine .inr (.inl ⟨tmr, rfl, hnow, ?_⟩)
        have hearly : ¬ now ≥ s.nextFiring tmr := BitVec.not_le.2 hnow
        simp only [fireNextBegin, hpeek, hearly, afailed_aOk, Option.bind_eq_bind, Option.bind_some,
          Bool.false_eq_true, if_false]
      · have hdue : now ≥ s.nextFiring tmr := BitVec.not_lt.1 hnow
        obtain ⟨heap, hpop, hsound, hitems⟩ := TimerState.pop_first hs hfirst (some tmr)
          (listDel s.entries (.tnode tmr))
        refine .inr (.inr ⟨tmr, _, rfl, hdue, ?_, hsound, rfl, rfl, hitems⟩)
        simp only [fireNextBegin, hpeek, hdue, hpop, afailed_aOk, Option.bind_eq_bind,
          Option.bind_some, Bool.false_eq_true, if_false, if_true]

end Parts

/-! ## What a step does -/

section Steps

variable [DecidableEq ν]

/-- The steps of a session whose heap is sound. -/
inductive SessionStep : Session ν → SessionMove ν → Session ν → Prop where
  | arm {s : Session ν} {c : ArmCall ν} {ret : AResult} {state : TimerState ν}
      (effect : c.Effect s.state ret state) :
      SessionStep s (.arm c) { s with state := state, log := .armed c.timer ret :: s.log }
  | disarm (s : Session ν) (tmr : ν) :
      SessionStep s (.disarm tmr)
        { s with state := (timerDisarm s.state tmr).2, log := .disarmed tmr :: s.log }
  /-- No timer. -/
  | idle {s : Session ν} (now : BitVec 64) (hfirst : s.state.first = none) :
      SessionStep s (.fireNext now) { s with log := .answered aOk 0 :: s.log }
  /-- No timer that is due. -/
  | early {s : Session ν} {now : BitVec 64} {tmr : ν} (hfirst : s.state.first = some tmr)
      (hnow : now < s.state.nextFiring tmr) :
      SessionStep s (.fireNext now)
        { s with log := .answered aOk (s.state.nextFiring tmr) :: s.log }
  | fires {s : Session ν} {now : BitVec 64} {tmr : ν} {state : TimerState ν}
      (hfirst : s.state.first = some tmr) (hnow : s.state.nextFiring tmr ≤ now)
      (sound : state.Sound) (nextFiring : state.nextFiring = s.state.nextFiring)
      (entries : state.entries = listDel s.state.entries (.tnode tmr))
      (items : s.state.armedTimers.items = some tmr ::ₘ state.armedTimers.items) :
      SessionStep s (.fireNext now)
        { state := state, running := tmr :: s.running, log := .fired tmr :: s.log }
  /-- No timer is left after the callback. -/
  | runsOut {s : Session ν} {tmr : ν} {running : List ν} (hrunning : s.running = tmr :: running)
      (hfirst : s.state.first = none) :
      SessionStep s .callbackReturns
        { s with running := running, log := .answered aEEmpty 0 :: s.log }
  | leaves {s : Session ν} {tmr next : ν} {running : List ν} (hrunning : s.running = tmr :: running)
      (hfirst : s.state.first = some next) :
      SessionStep s .callbackReturns
        { s with running := running, log := .answered aOk (s.state.nextFiring next) :: s.log }

variable {s s' : Session ν} {m : SessionMove ν}

/-- A session can take every step, except that a callback returns when none is running. -/
theorem sessionStep_total (hs : s.state.Sound) (hm : m = .callbackReturns → s.running ≠ []) :
    ∃ s', sessionStep s m = some s' ∧ SessionStep s m s' := by
  cases m with
  | arm c =>
      obtain ⟨ret, state, hrun, heffect⟩ := c.run_spec hs
      refine ⟨_, ?_, .arm heffect⟩
      simp [sessionStep, hrun]
  | disarm tmr => exact ⟨_, rfl, .disarm s tmr⟩
  | fireNext now =>
      rcases fireNextBegin_spec hs now with ⟨hfirst, hbegin⟩ | ⟨tmr, hfirst, hnow, hbegin⟩ |
        ⟨tmr, state, hfirst, hnow, hbegin, hsound, hnext, hentries, hitems⟩
      · refine ⟨_, ?_, .idle now hfirst⟩
        simp [sessionStep, hbegin]
      · refine ⟨_, ?_, .early hfirst hnow⟩
        simp [sessionStep, hbegin]
      · refine ⟨_, ?_, .fires hfirst hnow hsound hnext hentries hitems⟩
        simp [sessionStep, hbegin]
  | callbackReturns =>
      obtain ⟨tmr, running, hrunning⟩ := List.exists_cons_of_ne_nil (hm rfl)
      have hend := fireNextEnd_spec hs tmr
      cases hfirst : s.state.first with
      | none =>
          rw [hfirst] at hend
          refine ⟨_, ?_, .runsOut hrunning hfirst⟩
          simp [sessionStep, hrunning, hend]
      | some next =>
          rw [hfirst] at hend
          refine ⟨_, ?_, .leaves hrunning hfirst⟩
          simp [sessionStep, hrunning, hend]

theorem eq_callbackReturns_of_stuck (hs : s.state.Sound) (hnone : sessionStep s m = none) :
    m = .callbackReturns ∧ s.running = [] := by
  by_contra hcan
  obtain ⟨s', hstep, -⟩ := sessionStep_total hs (m := m) (by tauto)
  rw [hnone] at hstep
  cases hstep

theorem sessionStep_cases (hs : s.state.Sound) (hstep : sessionStep s m = some s') :
    SessionStep s m s' := by
  have hm : m = .callbackReturns → s.running ≠ [] := by
    rintro rfl hnil
    simp [sessionStep, hnil] at hstep
  obtain ⟨t, ht, hcases⟩ := sessionStep_total hs hm
  obtain rfl : t = s' := Option.some.inj (ht.symm.trans hstep)
  exact hcases

theorem SessionStep.sound (hstep : SessionStep s m s') (hs : s.state.Sound) : s'.state.Sound := by
  cases hstep with
  | arm heffect => exact heffect.sound
  | disarm tmr => exact ⟨hs.compare_eq, hs.wf, hs.timers⟩
  | idle | early | runsOut | leaves => exact hs
  | fires hfirst hnow hsound => exact hsound

theorem sound_sessionStep (s : Session ν) (m : SessionMove ν) (s' : Session ν)
    (hs : s.state.Sound) (hstep : sessionStep s m = some s') : s'.state.Sound :=
  (sessionStep_cases hs hstep).sound hs

end Steps

/-! ## A new manager -/

section New

variable [DecidableEq ν] {maxTimers : ℕ} {calloc : Bool × Bool} {nextFiring : Deadlines ν}
  {entries : ListMem (TimerPtr ν)} {s₀ : TimerState ν}

theorem timerManagerNew_eq
    (hnew : timerManagerNew maxTimers calloc nextFiring entries = (aOk, some s₀)) :
    s₀.nextFiring = nextFiring ∧ s₀.entries = listInit entries .liveTimers := by
  unfold timerManagerNew at hnew
  split at hnew
  · simp at hnew
  split at hnew
  · simp at hnew
  split at hnew
  · simp at hnew
  · simp only [Prod.mk.injEq, Option.some.injEq, true_and] at hnew
    subst hnew
    exact ⟨rfl, rfl⟩

theorem sound_timerManagerNew
    (hnew : timerManagerNew maxTimers calloc nextFiring entries = (aOk, some s₀)) : s₀.Sound := by
  have hinit := inv_timerManagerNew hnew
  refine ⟨hinit.compare_eq, hinit.wf, ?_⟩
  rw [hinit.items]
  exact Multiset.notMem_zero _

end New

end Tsl
