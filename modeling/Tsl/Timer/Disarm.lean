import Tsl.Timer.Session

set_option autoImplicit false

/-! # Disarmed timers

`timer_disarm` sets the deadline of its timer to `TIMER_STATE_DISARMED`, which is zero, and leaves the
timer where it is. To the heap, and to `timer_manager_fire_next`, zero is a deadline like any other,
and one that has always passed: a disarmed timer fires as soon as it is the first of the heap
(`staysDisarmed_fails`). `staysDisarmed_iff_meets` says that this is the only way: no disarmed timer
is fired in a run exactly when none is first in the heap, and due, at a call of
`timer_manager_fire_next`. That is so where timers are disarmed only while they are not in the heap
(`staysDisarmed_of_unheaped`). -/

namespace Tsl

open Lib

variable {ν : Type} [DecidableEq ν]

/-- The timer has been disarmed, and no arm call for it has succeeded since. -/
def Disarmed (tmr : ν) : List (SessionEvent ν) → Prop
  | [] => False
  | .armed u ret :: log => ¬ (u = tmr ∧ ret = aOk) ∧ Disarmed tmr log
  | .disarmed u :: log => u = tmr ∨ Disarmed tmr log
  | .fired _ :: log => Disarmed tmr log
  | .answered _ _ :: log => Disarmed tmr log

instance Disarmed.decidable (tmr : ν) : ∀ log, Decidable (Disarmed tmr log)
  | [] => inferInstanceAs (Decidable False)
  | .armed u ret :: log =>
      have := Disarmed.decidable tmr log
      inferInstanceAs (Decidable (¬ (u = tmr ∧ ret = aOk) ∧ Disarmed tmr log))
  | .disarmed u :: log =>
      have := Disarmed.decidable tmr log
      inferInstanceAs (Decidable (u = tmr ∨ Disarmed tmr log))
  | .fired _ :: log => Disarmed.decidable tmr log
  | .answered _ _ :: log => Disarmed.decidable tmr log

/-- No timer was fired while it was disarmed. -/
def NoneFiredDisarmed : List (SessionEvent ν) → Prop
  | [] => True
  | .fired tmr :: log => ¬ Disarmed tmr log ∧ NoneFiredDisarmed log
  | .armed _ _ :: log => NoneFiredDisarmed log
  | .disarmed _ :: log => NoneFiredDisarmed log
  | .answered _ _ :: log => NoneFiredDisarmed log

/-- What `timer_disarm` promises, of everything that has happened. -/
def StaysDisarmed (s : Session ν) : Prop := NoneFiredDisarmed s.log

/-- The condition on a step: where `timer_manager_fire_next` is called, the first timer of the heap
    is not due, or it is not disarmed. -/
def FirstNotDisarmed (s : Session ν) : SessionMove ν → Prop
  | .fireNext now => ∀ tmr ∈ s.state.first, s.state.nextFiring tmr ≤ now → ¬ Disarmed tmr s.log
  | _ => True

instance (s : Session ν) : (m : SessionMove ν) → Decidable (FirstNotDisarmed s m)
  | .fireNext now => inferInstanceAs (Decidable
      (∀ tmr ∈ s.state.first, s.state.nextFiring tmr ≤ now → ¬ Disarmed tmr s.log))
  | .arm _ | .disarm _ | .callbackReturns => inferInstanceAs (Decidable True)

theorem staysDisarmed_sessionStep {s s' : Session ν} {m : SessionMove ν} (hs : s.state.Sound)
    (hkept : StaysDisarmed s) (hstep : sessionStep s m = some s') :
    StaysDisarmed s' ↔ FirstNotDisarmed s m := by
  unfold StaysDisarmed at hkept
  cases sessionStep_cases hs hstep with
  | arm | disarm | runsOut | leaves => exact iff_of_true hkept trivial
  | idle now hfirst =>
      refine iff_of_true hkept fun tmr htmr => ?_
      rw [hfirst] at htmr
      cases htmr
  | early hfirst hnow =>
      refine iff_of_true hkept fun tmr htmr hdue => ?_
      obtain rfl := Option.some.inj (hfirst.symm.trans htmr)
      exact absurd hdue (BitVec.not_le.2 hnow)
  | @fires now tmr state hfirst hnow =>
      constructor
      · intro h u hu hdue
        obtain rfl := Option.some.inj (hfirst.symm.trans hu)
        exact h.1
      · intro h
        exact ⟨h tmr hfirst hnow, hkept⟩

/-! ## Runs -/

section Runs

variable {maxTimers : ℕ} {calloc : Bool × Bool} {nextFiring : Deadlines ν}
  {entries : ListMem (TimerPtr ν)} {s₀ : TimerState ν}

/-- **A disarmed timer stays disarmed** in exactly the runs in which no disarmed timer is due and
    first in the heap at a call of `timer_manager_fire_next`. -/
theorem staysDisarmed_iff_meets
    (hnew : timerManagerNew maxTimers calloc nextFiring entries = (aOk, some s₀))
    (moves : List (SessionMove ν)) :
    Throughout sessionStep StaysDisarmed ⟨s₀, [], []⟩ moves ↔
      Meets sessionStep FirstNotDisarmed ⟨s₀, [], []⟩ moves := by
  refine throughout_iff_meets (I := fun s => s.state.Sound) sound_sessionStep
    (fun s m s' hs hkept => staysDisarmed_sessionStep hs hkept) ?_ moves _
    (sound_timerManagerNew hnew) trivial
  intro s m hs _ hnone
  obtain ⟨rfl, -⟩ := eq_callbackReturns_of_stuck hs hnone
  trivial

/-- The condition that a timer is disarmed only while it is not in the heap. -/
def DisarmsUnheaped (s : Session ν) : SessionMove ν → Prop
  | .disarm tmr => some tmr ∉ s.state.armedTimers.items
  | _ => True

theorem sessionStep_unheaped {s s' : Session ν} {m : SessionMove ν} (hs : s.state.Sound)
    (hheap : ∀ tmr, some tmr ∈ s.state.armedTimers.items → ¬ Disarmed tmr s.log)
    (hm : DisarmsUnheaped s m) (hstep : sessionStep s m = some s') :
    ∀ tmr, some tmr ∈ s'.state.armedTimers.items → ¬ Disarmed tmr s'.log := by
  cases sessionStep_cases hs hstep with
  | @arm c ret state heffect =>
      intro tmr htmr hdisarmed
      rcases heffect.heap with ⟨-, hret, hitems⟩ | ⟨-, -, hheap'⟩
      · rw [hitems, Multiset.mem_cons] at htmr
        rcases htmr with htmr | htmr
        · exact hdisarmed.1 ⟨(Option.some.inj htmr).symm, hret⟩
        · exact hheap tmr htmr hdisarmed.2
      · rw [hheap'] at htmr
        exact hheap tmr htmr hdisarmed.2
  | disarm u =>
      rintro tmr htmr (rfl | hdisarmed)
      · exact hm htmr
      · exact hheap tmr htmr hdisarmed
  | idle | early | runsOut | leaves => exact hheap
  | fires hfirst hnow hsound hnext hentries hitems =>
      intro tmr htmr
      exact hheap tmr (hitems ▸ Multiset.mem_cons_of_mem htmr)

/-- Timers that are not in the heap can be disarmed. -/
theorem staysDisarmed_of_unheaped
    (hnew : timerManagerNew maxTimers calloc nextFiring entries = (aOk, some s₀))
    (moves : List (SessionMove ν)) (hunheaped : Meets sessionStep DisarmsUnheaped ⟨s₀, [], []⟩ moves) :
    Throughout sessionStep StaysDisarmed ⟨s₀, [], []⟩ moves := by
  refine throughout_of_meets (G := DisarmsUnheaped)
    (I := fun s => s.state.Sound ∧ StaysDisarmed s ∧
      ∀ tmr, some tmr ∈ s.state.armedTimers.items → ¬ Disarmed tmr s.log)
    ?_ (fun s hs => hs.2.1) moves _ ⟨sound_timerManagerNew hnew, trivial, ?_⟩ hunheaped
  · rintro s m s' ⟨hs, hkept, hheap⟩ hm hstep
    refine ⟨sound_sessionStep s m s' hs hstep, (staysDisarmed_sessionStep hs hkept hstep).2 ?_,
      sessionStep_unheaped hs hheap hm hstep⟩
    cases m with
    | fireNext now => exact fun tmr htmr _ => hheap tmr (TimerState.first_mem htmr)
    | arm | disarm | callbackReturns => trivial
  · exact fun tmr _ hdisarmed => hdisarmed

end Runs

/-- A timer is disarmed before it is armed, and fires. -/
theorem staysDisarmed_iff_meets_rearmed :
    ∃ s₀, fourTimers = (aOk, some s₀) ∧
      Throughout sessionStep StaysDisarmed ⟨s₀, [], []⟩
        [.disarm 0, .arm (.armAt 0 5), .fireNext 9, .arm (.arm 1 9 1), .callbackReturns] := by
  have hnew : fourTimers = (aOk, some (fourTimers.2.get rfl)) := rfl
  exact ⟨_, hnew, (staysDisarmed_iff_meets hnew _).2 (by decide +kernel)⟩

/-- A timer is armed, disarmed before its deadline, and fires at once. -/
theorem staysDisarmed_fails :
    ∃ s₀, fourTimers = (aOk, some s₀) ∧
      ¬ Throughout sessionStep StaysDisarmed ⟨s₀, [], []⟩
        [.arm (.armAt 0 1000), .disarm 0, .fireNext 5] := by
  have hnew : fourTimers = (aOk, some (fourTimers.2.get rfl)) := rfl
  refine ⟨_, hnew, fun h => ?_⟩
  have hlog : (exec sessionStep ⟨fourTimers.2.get rfl, [], []⟩
      [.arm (.armAt 0 1000), .disarm 0, .fireNext 5]).map Session.log =
      some [.fired 0, .disarmed 0, .armed 0 aOk] := by decide +kernel
  obtain ⟨s, hrun, hs⟩ := Option.map_eq_some_iff.1 hlog
  have hlast := h.last hrun
  rw [StaysDisarmed, hs] at hlast
  exact hlast.1 (.inl rfl)

end Tsl
