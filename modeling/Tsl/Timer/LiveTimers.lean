import Tsl.Timer.Session

set_option autoImplicit false

/-! # The list and the heap of a timer manager

A manager links the timers it is given into `live_timers` and stores them in `armed_timers`, and
`timer_manager_fire_next` takes a timer out of both. The two should hold the same timers
(`LinkedAsArmed`). `__timer_manager_add_timer` links its timer before it knows whether the heap has
room, and does not take it off the list where `fixed_heap_push` refuses it; so they do in exactly the
runs in which timers are only armed below capacity (`linkedAsArmed_iff_meets`).
`linkedAsArmed_fails` is the shortest run of the other kind. -/

namespace Tsl

open Lib

variable {ν : Type}

/-- The timers on `live_timers` are those in the heap. -/
def LinkedAsArmed (s : TimerState ν) : Prop :=
  ∃ xs : List ν, IsList s.entries .liveTimers (xs.map .tnode) ∧
    ∀ tmr, tmr ∈ xs ↔ some tmr ∈ s.armedTimers.items

variable [DecidableEq ν]

/-- The steps of a program that arms only timers that are not in the heap. -/
def freshStep (s : Session ν) : SessionMove ν → Option (Session ν)
  | .arm c =>
      if some c.timer ∈ s.state.armedTimers.items then none else sessionStep s (.arm c)
  | m => sessionStep s m

/-- The condition on a step: a timer that is not in the heap is armed below capacity. -/
def ArmsBelowCapacity (s : Session ν) : SessionMove ν → Prop
  | .arm c => some c.timer ∉ s.state.armedTimers.items →
      s.state.armedTimers.entries < s.state.armedTimers.capacity
  | _ => True

instance (s : Session ν) : (m : SessionMove ν) → Decidable (ArmsBelowCapacity s m)
  | .arm _ => inferInstanceAs (Decidable (_ ∉ _ → _ < _))
  | .disarm _ | .fireNext _ | .callbackReturns => inferInstanceAs (Decidable True)

/-! ## One call -/

section Calls

variable {s s' : TimerState ν} {tmr : ν} {xs ys : List ν}

omit [DecidableEq ν] in
theorem tnode_notMem (hnew : tmr ∉ xs) :
    TimerPtr.tnode tmr ∉ TimerPtr.liveTimers :: xs.map TimerPtr.tnode := by
  simp [hnew]

theorem LinkedAsArmed.armed (hlinked : LinkedAsArmed s) (hnew : some tmr ∉ s.armedTimers.items)
    (hentries : s'.entries = listAppend s.entries .liveTimers (.tnode tmr))
    (hitems : s'.armedTimers.items = some tmr ::ₘ s.armedTimers.items) : LinkedAsArmed s' := by
  obtain ⟨xs, hlist, hmem⟩ := hlinked
  have hout : tmr ∉ xs := fun h => hnew ((hmem tmr).1 h)
  refine ⟨xs ++ [tmr], ?_, fun u => ?_⟩
  · rw [hentries, List.map_append]
    exact isList_listAppend hlist (tnode_notMem hout)
  · rw [hitems, Multiset.mem_cons, List.mem_append, List.mem_singleton, hmem, Option.some.injEq]
    exact or_comm

/-- An arm call that the heap refuses adds its timer to the list. -/
theorem LinkedAsArmed.refused (hlinked : LinkedAsArmed s) (hnew : some tmr ∉ s.armedTimers.items)
    (hentries : s'.entries = listAppend s.entries .liveTimers (.tnode tmr))
    (hitems : s'.armedTimers = s.armedTimers) : ¬ LinkedAsArmed s' := by
  obtain ⟨xs, hlist, hmem⟩ := hlinked
  rintro ⟨ys, hlist', hmem'⟩
  have hout : tmr ∉ xs := fun h => hnew ((hmem tmr).1 h)
  have happended := isList_listAppend hlist (tnode_notMem hout)
  rw [← hentries] at happended
  have hys : ys.map TimerPtr.tnode = xs.map TimerPtr.tnode ++ [.tnode tmr] := hlist'.unique happended
  have hin : TimerPtr.tnode tmr ∈ ys.map TimerPtr.tnode := by
    rw [hys]
    exact List.mem_append_right _ (List.mem_singleton_self _)
  obtain ⟨u, hu, he⟩ := List.mem_map.1 hin
  obtain rfl := TimerPtr.tnode.inj he
  rw [hmem', hitems] at hu
  exact hnew hu

theorem LinkedAsArmed.fired (hlinked : LinkedAsArmed s) (hnodup : s.armedTimers.items.Nodup)
    (hentries : s'.entries = listDel s.entries (.tnode tmr))
    (hitems : s.armedTimers.items = some tmr ::ₘ s'.armedTimers.items) : LinkedAsArmed s' := by
  obtain ⟨xs, hlist, hmem⟩ := hlinked
  have htmr : tmr ∈ xs := by
    rw [hmem, hitems]
    exact Multiset.mem_cons_self _ _
  obtain ⟨as, bs, rfl⟩ := List.append_of_mem htmr
  rw [List.map_append, List.map_cons] at hlist
  have hsplit : tmr ∉ as ∧ tmr ∉ bs := by
    have hnd := hlist.nodup.of_cons
    rw [← List.map_cons, ← List.map_append] at hnd
    have := List.nodup_middle.1 hnd.of_map
    simpa using (List.nodup_cons.1 this).1
  refine ⟨as ++ bs, ?_, fun u => ?_⟩
  · rw [hentries, List.map_append]
    exact isList_listDel hlist
  · have hu := hmem u
    rw [hitems, Multiset.nodup_cons] at hnodup
    rw [hitems, Multiset.mem_cons, Option.some.injEq, List.mem_append, List.mem_cons] at hu
    rw [List.mem_append]
    constructor
    · intro hin
      have hne : u ≠ tmr := by
        rintro rfl
        exact hin.elim hsplit.1 hsplit.2
      exact (hu.1 (hin.imp_right .inr)).resolve_left hne
    · intro hin
      have hne : u ≠ tmr := by
        rintro rfl
        exact hnodup.1 hin
      exact (hu.2 (.inr hin)).imp_right fun h => h.resolve_left hne

end Calls

/-! ## Runs -/

/-- The heap is sound and holds no timer twice. -/
structure Session.Distinct (s : Session ν) : Prop where
  sound : s.state.Sound
  nodup : s.state.armedTimers.items.Nodup

/-- A step of such a program is a step of a session, and arms a timer that is not in the heap. -/
theorem freshStep_cases {s s' : Session ν} {m : SessionMove ν} (hs : s.state.Sound)
    (hstep : freshStep s m = some s') :
    SessionStep s m s' ∧ ∀ c, m = .arm c → some c.timer ∉ s.state.armedTimers.items := by
  cases m with
  | arm c =>
      simp only [freshStep] at hstep
      split at hstep
      · cases hstep
      · next hnew =>
        refine ⟨sessionStep_cases hs hstep, fun c' he => ?_⟩
        obtain rfl := SessionMove.arm.inj he
        exact hnew
  | disarm | fireNext | callbackReturns =>
      exact ⟨sessionStep_cases hs hstep, fun c he => by cases he⟩

theorem distinct_freshStep (s : Session ν) (m : SessionMove ν) (s' : Session ν) (hs : s.Distinct)
    (hstep : freshStep s m = some s') : s'.Distinct := by
  obtain ⟨hcases, hnew⟩ := freshStep_cases hs.sound hstep
  refine ⟨hcases.sound hs.sound, ?_⟩
  cases hcases with
  | @arm c ret state heffect =>
      rcases heffect.heap with ⟨-, -, hitems⟩ | ⟨-, -, hheap⟩
      · simp only [hitems]
        exact Multiset.nodup_cons.2 ⟨hnew c rfl, hs.nodup⟩
      · simp only [hheap]
        exact hs.nodup
  | disarm | idle | early | runsOut | leaves => exact hs.nodup
  | fires hfirst hnow hsound hnext hentries hitems =>
      have hnodup := hs.nodup
      rw [hitems] at hnodup
      exact (Multiset.nodup_cons.1 hnodup).2

theorem linkedAsArmed_freshStep {s s' : Session ν} {m : SessionMove ν} (hs : s.Distinct)
    (hlinked : LinkedAsArmed s.state) (hstep : freshStep s m = some s') :
    LinkedAsArmed s'.state ↔ ArmsBelowCapacity s m := by
  obtain ⟨hcases, hnew⟩ := freshStep_cases hs.sound hstep
  cases hcases with
  | @arm c ret state heffect =>
      rcases heffect.heap with ⟨hroom, -, hitems⟩ | ⟨hfull, -, hheap⟩
      · exact iff_of_true (hlinked.armed (hnew c rfl) heffect.entries hitems) fun _ => hroom
      · exact iff_of_false (hlinked.refused (hnew c rfl) heffect.entries hheap)
          fun h => absurd (h (hnew c rfl)) (Nat.not_lt.2 hfull)
  | disarm | idle | early | runsOut | leaves => exact iff_of_true hlinked trivial
  | fires hfirst hnow hsound hnext hentries hitems =>
      exact iff_of_true (hlinked.fired hs.nodup hentries hitems) trivial

section New

variable {maxTimers : ℕ} {calloc : Bool × Bool} {nextFiring : Deadlines ν}
  {entries : ListMem (TimerPtr ν)} {s₀ : TimerState ν}

theorem linkedAsArmed_timerManagerNew
    (hnew : timerManagerNew maxTimers calloc nextFiring entries = (aOk, some s₀)) :
    LinkedAsArmed s₀ := by
  have hitems := (inv_timerManagerNew hnew).items
  refine ⟨[], ?_, fun tmr => ?_⟩
  · rw [(timerManagerNew_eq hnew).2]
    exact isList_listInit _ _
  · rw [hitems]
    exact iff_of_false List.not_mem_nil (Multiset.notMem_zero _)

/-- **The live timers are the armed ones** in exactly the runs in which timers are only armed below
    capacity. -/
theorem linkedAsArmed_iff_meets
    (hnew : timerManagerNew maxTimers calloc nextFiring entries = (aOk, some s₀))
    (moves : List (SessionMove ν)) :
    Throughout freshStep (fun s => LinkedAsArmed s.state) ⟨s₀, [], []⟩ moves ↔
      Meets freshStep ArmsBelowCapacity ⟨s₀, [], []⟩ moves := by
  refine throughout_iff_meets (I := Session.Distinct) distinct_freshStep
    (fun s m s' hs hlinked => linkedAsArmed_freshStep hs hlinked) ?_ moves _
    ⟨sound_timerManagerNew hnew, ?_⟩ (linkedAsArmed_timerManagerNew hnew)
  · intro s m hs _ hnone
    cases m with
    | arm c =>
        intro hout
        rw [freshStep, if_neg hout] at hnone
        exact absurd (eq_callbackReturns_of_stuck hs.sound hnone).1 (by simp)
    | disarm | fireNext | callbackReturns => trivial
  · rw [show (Session.mk s₀ [] []).state = s₀ from rfl, (inv_timerManagerNew hnew).items]
    exact Multiset.nodup_zero

end New

/-- The second of two timers arms itself again when it fires. -/
theorem linkedAsArmed_iff_meets_two :
    ∃ s₀, fourTimers = (aOk, some s₀) ∧
      Throughout freshStep (fun s => LinkedAsArmed s.state) ⟨s₀, [], []⟩
        [.arm (.armAt 0 9), .arm (.armAt 1 5), .fireNext 6, .arm (.arm 1 6 2), .callbackReturns] := by
  have hnew : fourTimers = (aOk, some (fourTimers.2.get rfl)) := rfl
  exact ⟨_, hnew, (linkedAsArmed_iff_meets hnew _).2 (by decide +kernel)⟩

/-- A manager of one timer. -/
def oneTimer : AResult × Option (TimerState ℕ) :=
  timerManagerNew 1 (true, true) (fun _ => 0) fun a => ⟨a, a⟩

/-- The second of two timers is refused, and stays on the list behind the first. -/
theorem linkedAsArmed_fails :
    ∃ s₀ s, oneTimer = (aOk, some s₀) ∧
      exec freshStep ⟨s₀, [], []⟩ [.arm (.armAt 0 9), .arm (.armAt 1 5)] = some s ∧
      s.log.head? = some (.armed 1 aEInval) ∧ ¬ LinkedAsArmed s.state := by
  have hnew : oneTimer = (aOk, some (oneTimer.2.get rfl)) := rfl
  have hrun : (exec freshStep ⟨oneTimer.2.get rfl, [], []⟩
      [.arm (.armAt 0 9), .arm (.armAt 1 5)]).map (fun s =>
        (s.log.head?, (s.state.entries .liveTimers).next, (s.state.entries (.tnode 0)).next,
          decide (some 1 ∈ s.state.armedTimers.items))) =
      some (some (.armed 1 aEInval), .tnode 0, .tnode 1, false) := by decide +kernel
  obtain ⟨s, hs, hread⟩ := Option.map_eq_some_iff.1 hrun
  simp only [Prod.mk.injEq, decide_eq_false_iff_not] at hread
  obtain ⟨hlog, hfirst, hsecond, hout⟩ := hread
  refine ⟨_, s, hnew, hs, hlog, ?_⟩
  rintro ⟨xs, hlist, hmem⟩
  have hhead := hlist.next_eq_headD
  rw [hfirst] at hhead
  cases xs with
  | nil => cases hhead
  | cons x xs =>
      obtain rfl : 0 = x := by simpa using hhead
      have hring : IsList s.state.entries .liveTimers ([] ++ .tnode 0 :: xs.map .tnode) := hlist
      have hnext := hring.next_eq_headD_split
      rw [hsecond] at hnext
      cases xs with
      | nil => cases hnext
      | cons y xs =>
          obtain rfl : 1 = y := by simpa using hnext
          exact hout ((hmem 1).1 (by simp))

end Tsl
