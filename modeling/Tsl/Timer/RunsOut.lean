import Tsl.Timer.Session

set_option autoImplicit false

/-! # When no timer is left

An event loop calls `timer_manager_fire_next` again and again; running out of timers should not look
like an error to it. `timer_manager_fire_next` peeks at the heap twice. It turns the `A_E_EMPTY` of the
first look into `A_OK`, and returns that of the second: a call that fires the last timer fails. And it
answers 0 for a timer whose deadline is 0 as it does where there is none.

A timer that was disarmed stays in the heap, so there are two ways to count the timers that are left:
those in the heap, and those of them that are not disarmed. `answersQuietly_iff_meets` says for both in
which runs every call answers as it should. -/

namespace Tsl

open Lib

variable {ν : Type}

/-- The timer is in the heap. -/
def TimerState.Heaped (s : TimerState ν) (tmr : ν) : Prop := some tmr ∈ s.armedTimers.items

/-- The timer is in the heap, and its deadline is not `TIMER_STATE_DISARMED`. -/
def TimerState.Live (s : TimerState ν) (tmr : ν) : Prop := s.Heaped tmr ∧ s.nextFiring tmr ≠ 0

/-- Where `timer_manager_fire_next` has just returned, it returned `A_OK`, and `*pnext` is 0 exactly
    when no timer is left. -/
def AnswersQuietly (left : TimerState ν → ν → Prop) (s : Session ν) : Prop :=
  ∀ ret pnext, s.log.head? = some (.answered ret pnext) →
    ret = aOk ∧ (pnext = 0 ↔ ∀ tmr, ¬ left s.state tmr)

/-- The condition on a step, where the timers in the heap count: a callback returns while the heap
    holds a timer, and the first one's deadline is not 0. -/
def LeavesHeaped (s : Session ν) : SessionMove ν → Prop
  | .callbackReturns => s.running ≠ [] → ∃ tmr ∈ s.state.first, s.state.nextFiring tmr ≠ 0
  | _ => True

/-- The condition where disarmed timers do not count: a callback returns while the heap holds a timer,
    and if the first one's deadline is 0, so are all others. -/
def LeavesLive (s : Session ν) : SessionMove ν → Prop
  | .callbackReturns => s.running ≠ [] → ∃ tmr ∈ s.state.first, s.state.nextFiring tmr = 0 →
      ∀ u, s.state.Heaped u → s.state.nextFiring u = 0
  | _ => True

variable [DecidableEq ν]

instance (s : Session ν) : (m : SessionMove ν) → Decidable (LeavesHeaped s m)
  | .callbackReturns => inferInstanceAs (Decidable
      (s.running ≠ [] → ∃ tmr ∈ s.state.first, s.state.nextFiring tmr ≠ 0))
  | .arm _ | .disarm _ | .fireNext _ => inferInstanceAs (Decidable True)

/-- A call of `timer_manager_fire_next`, and the return of a running callback, come to an answer or to
    another callback. -/
def Proceeds (s : Session ν) : Prop :=
  (∀ now, (sessionStep s (.fireNext now)).isSome) ∧
    (s.running ≠ [] → (sessionStep s .callbackReturns).isSome)

theorem proceeds_of_sound {s : Session ν} (hs : s.state.Sound) : Proceeds s := by
  constructor
  · intro now
    obtain ⟨s', hstep, -⟩ := sessionStep_total (m := .fireNext now) hs (by simp)
    rw [hstep, Option.isSome_some]
  · intro hrunning
    obtain ⟨s', hstep, -⟩ := sessionStep_total hs fun _ => hrunning
    rw [hstep, Option.isSome_some]

/-! ## One step -/

section Steps

variable {left : TimerState ν → ν → Prop} {s s' : Session ν} {m : SessionMove ν}

/-- A first look at the heap answers as it should, however the timers that are left are counted; what
    a second one answers is the deadline of the first timer. -/
theorem answersQuietly_sessionStep (hheaped : ∀ s tmr, left s tmr → s.Heaped tmr)
    (hleft : ∀ s tmr, s.Live tmr → left s tmr) (hs : s.state.Sound)
    (hstep : sessionStep s m = some s') :
    AnswersQuietly left s' ↔
      (m = .callbackReturns →
        ∃ tmr ∈ s.state.first, (s.state.nextFiring tmr = 0 ↔ ∀ u, ¬ left s.state u)) := by
  have hnone : s.state.first = none → ∀ u, ¬ left s.state u := by
    intro hfirst u hu
    have hin := hheaped _ u hu
    rw [TimerState.Heaped, (TimerState.first_eq_none_iff hs).1 hfirst] at hin
    exact Multiset.notMem_zero _ hin
  cases sessionStep_cases hs hstep with
  | arm | disarm | fires =>
      exact iff_of_true (fun ret pnext hhead => by simp at hhead) fun hm => by cases hm
  | idle now hfirst =>
      refine iff_of_true ?_ fun hm => by cases hm
      intro ret pnext hhead
      obtain ⟨rfl, rfl⟩ : aOk = ret ∧ 0 = pnext := by simpa using hhead
      exact ⟨rfl, iff_of_true rfl (hnone hfirst)⟩
  | @early now tmr hfirst hnow =>
      refine iff_of_true ?_ fun hm => by cases hm
      intro ret pnext hhead
      obtain ⟨rfl, rfl⟩ : aOk = ret ∧ s.state.nextFiring tmr = pnext := by simpa using hhead
      have hne : s.state.nextFiring tmr ≠ 0 := by
        intro hzero
        rw [hzero] at hnow
        exact absurd hnow (BitVec.not_lt_zero)
      exact ⟨rfl, iff_of_false hne fun hall =>
        hall tmr (hleft _ tmr ⟨TimerState.first_mem hfirst, hne⟩)⟩
  | runsOut hrunning hfirst =>
      refine iff_of_false (fun h => ?_) fun h => ?_
      · exact absurd (h aEEmpty 0 rfl).1 (aresultError_ne_aOk _ _)
      · obtain ⟨tmr, htmr, -⟩ := h rfl
        rw [hfirst] at htmr
        cases htmr
  | @leaves tmr next running hrunning hfirst =>
      constructor
      · intro h _
        exact ⟨next, hfirst, (h aOk (s.state.nextFiring next) rfl).2⟩
      · intro h ret pnext hhead
        obtain ⟨rfl, rfl⟩ : aOk = ret ∧ s.state.nextFiring next = pnext := by simpa using hhead
        obtain ⟨u, hu, hiff⟩ := h rfl
        obtain rfl := Option.some.inj (hfirst.symm.trans hu)
        exact ⟨rfl, hiff⟩

theorem running_of_sessionStep (hstep : sessionStep s .callbackReturns = some s') :
    s.running ≠ [] := by
  intro hnil
  simp [sessionStep, hnil] at hstep

theorem answersQuietly_heaped (hs : s.state.Sound) (hstep : sessionStep s m = some s') :
    AnswersQuietly TimerState.Heaped s' ↔ LeavesHeaped s m := by
  rw [answersQuietly_sessionStep (fun _ _ h => h) (fun _ _ h => h.1) hs hstep]
  cases m with
  | arm | disarm | fireNext => simp [LeavesHeaped]
  | callbackReturns =>
      have hrunning := running_of_sessionStep hstep
      simp only [LeavesHeaped, forall_const, hrunning, ne_eq, not_false_eq_true]
      refine exists_congr fun tmr => and_congr_right fun htmr => ?_
      have hin : ¬ ∀ u, ¬ s.state.Heaped u := fun hall => hall tmr (TimerState.first_mem htmr)
      simp only [hin, iff_false]

theorem answersQuietly_live (hs : s.state.Sound) (hstep : sessionStep s m = some s') :
    AnswersQuietly TimerState.Live s' ↔ LeavesLive s m := by
  rw [answersQuietly_sessionStep (fun _ _ h => h.1) (fun _ _ h => h) hs hstep]
  cases m with
  | arm | disarm | fireNext => simp [LeavesLive]
  | callbackReturns =>
      have hrunning := running_of_sessionStep hstep
      simp only [LeavesLive, forall_const, hrunning, ne_eq, not_false_eq_true]
      refine exists_congr fun tmr => and_congr_right fun htmr => ?_
      simp only [TimerState.Live, not_and, not_not]
      constructor
      · exact fun h => h.1
      · exact fun h => ⟨h, fun hall => hall tmr (TimerState.first_mem htmr)⟩

end Steps

/-! ## Runs -/

section Runs

variable {maxTimers : ℕ} {calloc : Bool × Bool} {nextFiring : Deadlines ν}
  {entries : ListMem (TimerPtr ν)} {s₀ : TimerState ν}

/-- **Running out of timers.** `timer_manager_fire_next` always answers. It answers `A_OK`, and 0
    exactly when no timer is left, in exactly the runs in which the heap is not empty, nor its first
    deadline 0, where a callback returns; if disarmed timers do not count as left, the first deadline
    may be 0 where all are. -/
theorem answersQuietly_iff_meets
    (hnew : timerManagerNew maxTimers calloc nextFiring entries = (aOk, some s₀))
    (moves : List (SessionMove ν)) :
    Throughout sessionStep Proceeds ⟨s₀, [], []⟩ moves ∧
      (Throughout sessionStep (AnswersQuietly TimerState.Heaped) ⟨s₀, [], []⟩ moves ↔
        Meets sessionStep LeavesHeaped ⟨s₀, [], []⟩ moves) ∧
      (Throughout sessionStep (AnswersQuietly TimerState.Live) ⟨s₀, [], []⟩ moves ↔
        Meets sessionStep LeavesLive ⟨s₀, [], []⟩ moves) := by
  have hsound := sound_timerManagerNew hnew
  have hstart : ∀ left, AnswersQuietly left (Session.mk s₀ [] []) := by
    intro left ret pnext hhead
    cases hhead
  refine ⟨?_, ?_, ?_⟩
  · exact throughout_of_invariant (I := fun s => s.state.Sound) sound_sessionStep
      (fun s hs => proceeds_of_sound hs) moves _ hsound
  · refine throughout_iff_meets (I := fun s => s.state.Sound) sound_sessionStep
      (fun s m s' hs _ hstep => answersQuietly_heaped hs hstep) ?_ moves _ hsound (hstart _)
    intro s m hs _ hnone
    obtain ⟨rfl, hnil⟩ := eq_callbackReturns_of_stuck hs hnone
    exact fun hrunning => absurd hnil hrunning
  · refine throughout_iff_meets (I := fun s => s.state.Sound) sound_sessionStep
      (fun s m s' hs _ hstep => answersQuietly_live hs hstep) ?_ moves _ hsound (hstart _)
    intro s m hs _ hnone
    obtain ⟨rfl, hnil⟩ := eq_callbackReturns_of_stuck hs hnone
    exact fun hrunning => absurd hnil hrunning

end Runs

/-- The first of two timers arms itself again from its callback. -/
theorem answersQuietly_iff_meets_again :
    ∃ s₀, fourTimers = (aOk, some s₀) ∧
      Throughout sessionStep (AnswersQuietly TimerState.Heaped) ⟨s₀, [], []⟩
        [.fireNext 1, .arm (.armAt 0 5), .arm (.armAt 1 7), .fireNext 6, .arm (.arm 0 6 1),
          .callbackReturns, .fireNext 8, .callbackReturns] := by
  have hnew : fourTimers = (aOk, some (fourTimers.2.get rfl)) := rfl
  exact ⟨_, hnew, (answersQuietly_iff_meets hnew _).2.1.2 (by decide +kernel)⟩

/-- The only timer fires. -/
theorem answersQuietly_fails :
    ∃ s₀ s, fourTimers = (aOk, some s₀) ∧
      exec sessionStep ⟨s₀, [], []⟩ [.arm (.armAt 0 5), .fireNext 9, .callbackReturns] = some s ∧
      s.log.head? = some (.answered aEEmpty 0) ∧ ¬ AnswersQuietly TimerState.Heaped s ∧
      ¬ AnswersQuietly TimerState.Live s := by
  have hnew : fourTimers = (aOk, some (fourTimers.2.get rfl)) := rfl
  have hrun : (exec sessionStep ⟨fourTimers.2.get rfl, [], []⟩
      [.arm (.armAt 0 5), .fireNext 9, .callbackReturns]).map (fun s => s.log.head?) =
      some (some (.answered aEEmpty 0)) := by decide +kernel
  obtain ⟨s, hs, hlog⟩ := Option.map_eq_some_iff.1 hrun
  have hfails : ∀ left, ¬ AnswersQuietly left s := fun left h =>
    absurd (h aEEmpty 0 hlog).1 (aresultError_ne_aOk _ _)
  exact ⟨_, s, hnew, hs, hlog, hfails _, hfails _⟩

end Tsl
