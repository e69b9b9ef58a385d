import Tsl.Timer.Session

set_option autoImplicit false

/-! # How early a timer fires

`timer_arm` promises that the timer fires `usecs` microseconds after the clock reading, or later. The
deadline it stores is the 64-bit sum of the reading and the 64-bit product `usecs * 1000`, and either
wraps: a timer with a long enough timeout can fire at once.

The sessions below keep, beside the manager, what was promised. No timer fires early in a session in
which every deadline that is stored for a timer keeps the promises made for it
(`neverEarly_of_meets`). -/

namespace Tsl

open Lib

variable {ν : Type}

/-- The first moment at which a timer may fire by what the call promises: for `timer_arm` the clock
    reading and the timeout in nanoseconds, added exactly. `timer_arm_at` gives its deadline itself. -/
def ArmCall.promise : ArmCall ν → Option ℕ
  | .arm _ now usecs => some (now.toNat + 1000 * usecs.toNat)
  | .armAt _ _ => none

/-- A promise of 64 bits is the deadline. -/
theorem ArmCall.promise_le_deadline {c : ArmCall ν} {d : ℕ} (hd : d ∈ c.promise)
    (hlt : d < 2 ^ 64) : d ≤ c.deadline.toNat := by
  cases c with
  | armAt tmr deadline => cases hd
  | arm tmr now usecs =>
      obtain rfl : now.toNat + 1000 * usecs.toNat = d := Option.some.inj hd
      simp only [ArmCall.deadline, BitVec.toNat_add, BitVec.toNat_mul, BitVec.reduceToNat]
      omega

/-- A call of a fire callback: the timer, the clock reading, and the promises for the timer. -/
structure Firing (ν : Type) where
  tmr : ν
  now : BitVec 64
  promised : List ℕ
deriving DecidableEq

/-- A session, what is promised for each timer that is armed, and the firings, latest first. -/
structure PromiseRun (ν : Type) where
  session : Session ν
  promised : ν → List ℕ
  firings : List (Firing ν)

namespace PromiseRun

/-- A manager with which nothing was done. -/
def new (s₀ : TimerState ν) : PromiseRun ν where
  session := ⟨s₀, [], []⟩
  promised := fun _ => []
  firings := []

variable [DecidableEq ν]

/-- What a step that led to `session` did to the promises. An accepted call of `timer_arm` makes one, and
    those for a timer end when it fires and is armed no more. -/
def observe (s : PromiseRun ν) (session : Session ν) : SessionMove ν → PromiseRun ν
  | .arm c =>
      if session.log.head? = some (.armed c.timer aOk) then
        let promised := c.promise.toList ++ s.promised c.timer
        { s with session := session, promised := Function.update s.promised c.timer promised }
      else
        { s with session := session }
  | .fireNext now =>
      match session.log.head? with
      | some (.fired tmr) =>
          let promised := if some tmr ∈ session.state.armedTimers.items then s.promised tmr else []
          { session := session
            promised := Function.update s.promised tmr promised
            firings := ⟨tmr, now, s.promised tmr⟩ :: s.firings }
      | _ => { s with session := session }
  | .disarm _ => { s with session := session }
  | .callbackReturns => { s with session := session }

/-- A step of the session. -/
def step (s : PromiseRun ν) (m : SessionMove ν) : Option (PromiseRun ν) :=
  (sessionStep s.session m).map fun session => s.observe session m

/-- How often the timer has fired. -/
def timesFired (s : PromiseRun ν) (tmr : ν) : ℕ := s.firings.countP fun f => f.tmr = tmr

end PromiseRun

/-- No timer has fired at a clock reading before what was promised. -/
def NeverEarly (s : PromiseRun ν) : Prop := ∀ f ∈ s.firings, ∀ d ∈ f.promised, d ≤ f.now.toNat

/-- The heap has room for a timer, so that an arm call is accepted. -/
def HasRoom (s : TimerState ν) : Prop := s.armedTimers.entries < s.armedTimers.capacity

instance (s : TimerState ν) : Decidable (HasRoom s) := inferInstanceAs (Decidable (_ < _))

/-- The deadline that the step stores for a timer is not before any promise for it: an arm call stores
    none that is before an earlier promise, nor makes one that 64 bits do not hold, and no timer is
    disarmed while there is a promise for it. -/
def KeepsPromises (s : PromiseRun ν) : SessionMove ν → Prop
  | .arm c => (∀ d ∈ s.promised c.timer, d ≤ c.deadline.toNat) ∧
      (HasRoom s.session.state → ∀ d ∈ c.promise, d < 2 ^ 64)
  | .disarm tmr => s.promised tmr = []
  | .fireNext _ => True
  | .callbackReturns => True

instance [DecidableEq ν] (s : PromiseRun ν) : ∀ m, Decidable (KeepsPromises s m)
  | .arm c => inferInstanceAs (Decidable ((∀ d ∈ s.promised c.timer, d ≤ c.deadline.toNat) ∧ _))
  | .disarm tmr => inferInstanceAs (Decidable (s.promised tmr = []))
  | .fireNext _ | .callbackReturns => inferInstanceAs (Decidable True)

/-- No timer's deadline is before a promise for it. -/
structure PromiseRun.Inv (s : PromiseRun ν) : Prop where
  sound : s.session.state.Sound
  promised : ∀ tmr, ∀ d ∈ s.promised tmr, d ≤ (s.session.state.nextFiring tmr).toNat
  neverEarly : NeverEarly s

section Steps

variable [DecidableEq ν] {s s' : PromiseRun ν} {m : SessionMove ν}

theorem ArmCall.Effect.hasRoom {c : ArmCall ν} {ret : AResult} {t t' : TimerState ν}
    (heffect : c.Effect t ret t') (hret : ret = aOk) : HasRoom t := by
  rcases heffect.heap with ⟨hroom, -, -⟩ | ⟨-, hfull, -⟩
  · exact hroom
  · exact absurd (hfull.symm.trans hret) (aresultError_ne_aOk _ _)

theorem PromiseRun.inv_arm {c : ArmCall ν} {ret : AResult} {state : TimerState ν}
    {log : List (SessionEvent ν)} {promised : ν → List ℕ} (h : s.Inv) (hG : KeepsPromises s (.arm c))
    (heffect : c.Effect s.session.state ret state)
    (hpromised : ∀ tmr, ∀ d ∈ promised tmr,
      d ∈ s.promised tmr ∨ ret = aOk ∧ tmr = c.timer ∧ d ∈ c.promise) :
    PromiseRun.Inv
      { s with session := { s.session with state := state, log := log }, promised := promised } where
  sound := heffect.sound
  neverEarly := h.neverEarly
  promised := by
    intro tmr d hd
    simp only [heffect.nextFiring]
    by_cases htmr : tmr = c.timer
    · subst htmr
      rw [Function.update_self]
      rcases hpromised _ d hd with hold | ⟨hret, -, hnew⟩
      · exact hG.1 d hold
      · exact ArmCall.promise_le_deadline hnew (hG.2 (heffect.hasRoom hret) d hnew)
    · rw [Function.update_of_ne htmr]
      rcases hpromised _ d hd with hold | ⟨-, heq, -⟩
      · exact h.promised tmr d hold
      · exact absurd heq htmr

theorem PromiseRun.inv_step (h : s.Inv) (hG : KeepsPromises s m) (hstep : s.step m = some s') :
    s'.Inv := by
  obtain ⟨session, hsession, rfl⟩ := Option.map_eq_some_iff.1 hstep
  cases sessionStep_cases h.sound hsession with
  | @arm c ret state heffect =>
      simp only [PromiseRun.observe, List.head?_cons, Option.some.injEq, SessionEvent.armed.injEq,
        true_and]
      split
      · next hret =>
        refine PromiseRun.inv_arm h hG heffect fun tmr d hd => ?_
        by_cases htmr : tmr = c.timer
        · subst htmr
          rw [Function.update_self, List.mem_append, Option.mem_toList] at hd
          exact hd.symm.imp_right fun hnew => ⟨hret, rfl, hnew⟩
        · rw [Function.update_of_ne htmr] at hd
          exact .inl hd
      · exact PromiseRun.inv_arm h hG heffect fun tmr d hd => .inl hd
  | disarm tmr =>
      refine ⟨⟨h.sound.compare_eq, h.sound.wf, h.sound.timers⟩, fun u d hd => ?_, h.neverEarly⟩
      have hne : u ≠ tmr := by
        rintro rfl
        have hnone : s.promised u = [] := hG
        simp [PromiseRun.observe, hnone] at hd
      simp only [PromiseRun.observe, timerDisarm, Function.update_of_ne hne]
      exact h.promised u d hd
  | @fires now tmr state hfirst hnow hsound hnext hentries hitems =>
      refine ⟨hsound, fun u d hd => ?_, ?_⟩
      · simp only [PromiseRun.observe, List.head?_cons, hnext]
        refine h.promised u d ?_
        by_cases hu : u = tmr
        · subst hu
          simp only [PromiseRun.observe, List.head?_cons, Function.update_self] at hd
          split at hd
          · exact hd
          · cases hd
        · simpa only [PromiseRun.observe, List.head?_cons, Function.update_of_ne hu] using hd
      · -- the deadline of the timer that fires has passed, so every promise for it has
        refine List.forall_mem_cons.2 ⟨fun d hd => ?_, h.neverEarly⟩
        exact (h.promised tmr d hd).trans (BitVec.le_def.1 hnow)
  | idle | early | runsOut | leaves => exact ⟨h.sound, h.promised, h.neverEarly⟩

/-! ## Promises that 64 bits do not hold -/

theorem PromiseRun.firings_subset (hstep : s.step m = some s') : s.firings ⊆ s'.firings := by
  obtain ⟨session, -, rfl⟩ := Option.map_eq_some_iff.1 hstep
  cases m with
  | arm c =>
      simp only [PromiseRun.observe]
      split <;> exact List.Subset.refl _
  | fireNext now =>
      simp only [PromiseRun.observe]
      split
      · exact List.subset_cons_self _ _
      · exact List.Subset.refl _
  | disarm _ | callbackReturns => exact List.Subset.refl _

theorem PromiseRun.step_promised {tmr : ν} {d : ℕ} (hd : d ∈ s.promised tmr)
    (hstep : s.step m = some s') :
    (∃ f ∈ s'.firings, d ∈ f.promised) ∨
      d ∈ s'.promised tmr ∧ s'.timesFired tmr = s.timesFired tmr := by
  obtain ⟨session, -, rfl⟩ := Option.map_eq_some_iff.1 hstep
  cases m with
  | arm c =>
      simp only [PromiseRun.observe]
      split
      · refine .inr ⟨?_, rfl⟩
        by_cases htmr : tmr = c.timer
        · subst htmr
          simp only [Function.update_self]
          exact List.mem_append_right _ hd
        · simpa only [Function.update_of_ne htmr] using hd
      · exact .inr ⟨hd, rfl⟩
  | fireNext now =>
      simp only [PromiseRun.observe]
      split
      · next expired _ =>
        by_cases htmr : expired = tmr
        · subst htmr
          exact .inl ⟨_, List.mem_cons_self, hd⟩
        · refine .inr ⟨?_, ?_⟩
          · simpa only [Function.update_of_ne (Ne.symm htmr)] using hd
          · simp [PromiseRun.timesFired, htmr]
      · exact .inr ⟨hd, rfl⟩
  | disarm _ | callbackReturns => exact .inr ⟨hd, rfl⟩

/-- Where the sum and the product do not fit in 64 bits, the promise is after every clock reading: the
    timer fires early if it fires at all. -/
theorem PromiseRun.early_of_beyond {tmr : ν} {d : ℕ} (hd : d ∈ s.promised tmr)
    (hbeyond : 2 ^ 64 ≤ d) {moves : List (SessionMove ν)}
    (hrun : exec PromiseRun.step s moves = some s') (hfired : s.timesFired tmr < s'.timesFired tmr) :
    ¬ NeverEarly s' := by
  have hpromise : (∃ f ∈ s'.firings, d ∈ f.promised) ∨
      d ∈ s'.promised tmr ∧ s'.timesFired tmr = s.timesFired tmr := by
    refine exec_invariant (I := fun t => (∃ f ∈ t.firings, d ∈ f.promised) ∨
      d ∈ t.promised tmr ∧ t.timesFired tmr = s.timesFired tmr) (fun t m t' ht hstep => ?_)
      (.inr ⟨hd, rfl⟩) hrun
    rcases ht with ⟨f, hf, hpromised⟩ | ⟨hkept, hcount⟩
    · exact .inl ⟨f, PromiseRun.firings_subset hstep hf, hpromised⟩
    · rw [← hcount]
      exact PromiseRun.step_promised hkept hstep
  rcases hpromise with ⟨f, hf, hpromised⟩ | ⟨-, hcount⟩
  · intro h
    have hle := h f hf d hpromised
    have hlt := f.now.isLt
    omega
  · exact absurd hcount (Nat.ne_of_gt hfired)

end Steps

section Runs

variable [DecidableEq ν] {maxTimers : ℕ} {calloc : Bool × Bool} {nextFiring : Deadlines ν}
  {entries : ListMem (TimerPtr ν)} {s₀ : TimerState ν}

/-- **No timer fires early** in a session of a new manager whose steps all keep the promises made. -/
theorem neverEarly_of_meets
    (hnew : timerManagerNew maxTimers calloc nextFiring entries = (aOk, some s₀))
    (moves : List (SessionMove ν)) (hmoves : Meets PromiseRun.step KeepsPromises (.new s₀) moves) :
    Throughout PromiseRun.step NeverEarly (.new s₀) moves := by
  refine throughout_of_meets (fun s m s' h hG hstep => PromiseRun.inv_step h hG hstep)
    (fun s h => h.neverEarly) moves _ ?_ hmoves
  refine ⟨sound_timerManagerNew hnew, fun tmr d hd => ?_, fun f hf => ?_⟩
  · cases hd
  · cases hf

end Runs

/-- Two timers, one of which is armed again by its own callback. -/
theorem neverEarly_of_meets_two :
    ∃ s₀, fourTimers = (aOk, some s₀) ∧
      Throughout PromiseRun.step NeverEarly (.new s₀)
        [.arm (.arm 0 5 2), .arm (.arm 1 6 1), .fireNext 1006, .arm (.arm 1 1006 3), .callbackReturns,
          .fireNext 2004, .fireNext 2005, .callbackReturns] := by
  have hnew : fourTimers = (aOk, some (fourTimers.2.get rfl)) := rfl
  refine ⟨_, hnew, neverEarly_of_meets hnew _ ?_⟩
  decide +kernel

/-- The timeout is more than 584942 years; the timer fires after 384 nanoseconds. -/
theorem neverEarly_fails :
    ∃ s₀, fourTimers = (aOk, some s₀) ∧
      ¬ Throughout PromiseRun.step NeverEarly (.new s₀)
        [.arm (.arm 0 5 18446744073709552), .fireNext 389] := by
  have hnew : fourTimers = (aOk, some (fourTimers.2.get rfl)) := rfl
  refine ⟨_, hnew, fun h => ?_⟩
  have hfired : (exec PromiseRun.step (.new (fourTimers.2.get rfl))
      [.arm (.arm 0 5 18446744073709552), .fireNext 389]).map PromiseRun.firings =
      some [⟨0, 389, [18446744073709552005]⟩] := by decide +kernel
  obtain ⟨s, hrun, hs⟩ := Option.map_eq_some_iff.1 hfired
  have hlast := h.last hrun
  rw [NeverEarly, hs] at hlast
  simp at hlast

end Tsl
