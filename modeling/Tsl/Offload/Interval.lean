import Tsl.Offload.Worker

set_option autoImplicit false

/-! # The time between two polls

The poll function of an endpoint stores how many milliseconds to wait until it is polled again.
`work_endpoint_poll` turns them into nanoseconds in 32 bits and adds them to the clock in 64, so that a
wait of 4295 milliseconds or more comes out short (`pollEndpoint_nextPoll_iff`).

The machine below is the work thread with its clock, which never goes back, and the polls that were
made. The requested waits are honoured in a run in which each of them fits in 32 bits of nanoseconds
(`honoured_of_meets`). -/

namespace Tsl

open Lib

variable {ρ ε : Type*}

/-- A poll of an endpoint that has a poll function: the clock readings before and after it, and the
    wait it stored. -/
structure EndpointPoll (ε : Type*) where
  ep : ε
  now : BitVec 64
  wait : BitVec 32
  later : BitVec 64
deriving DecidableEq

/-- When the endpoint may be polled again, computed exactly. -/
def EndpointPoll.due (p : EndpointPoll ε) : ℕ := p.later.toNat + p.wait.toNat * 1000000

/-- The endpoint that the next step of the worker function polls, if it polls one at `now`. -/
def Worker.polled (w : Worker ρ ε) (now : BitVec 64) : Option ε :=
  match w.pc with
  | .poll (.wnode e) _ => if w.nextPoll e > now then none else some e
  | _ => none

/-- The endpoint of a poll. -/
def EndpointEvent.pollOf : EndpointEvent ε → Option ε
  | .poll ep => some ep
  | _ => none

/-- The calls of `work_endpoint_poll`. -/
def Worker.pollsMade (w : Worker ρ ε) : List ε := w.events.filterMap EndpointEvent.pollOf

/-- A work thread, the last reading of the clock, and the polls that were made, latest first. -/
structure TimedWorker (ρ ε : Type*) where
  worker : Worker ρ ε
  clock : BitVec 64
  polls : List (EndpointPoll ε)

namespace TimedWorker

/-- The polls after a step of the worker function. -/
def pollsAfter (hasPoll : ε → Bool) (s : TimedWorker ρ ε) (env : PollEnv) : List (EndpointPoll ε) :=
  match s.worker.polled env.now with
  | none => s.polls
  | some ep =>
      if hasPoll ep then { ep := ep, now := env.now, wait := env.wait, later := env.later } :: s.polls
      else s.polls

variable [DecidableEq ε]

/-- One step, with a clock that does not go back and has values below `2^63`. -/
def step (ck : CkRing ρ ε) (hasPoll : ε → Bool) (s : TimedWorker ρ ε) :
    WorkerInput ε → Option (TimedWorker ρ ε)
  | .work env =>
      if s.clock ≤ env.now ∧ env.now ≤ env.later ∧ env.later.toNat < 2 ^ 63 then
        (s.worker.step ck hasPoll (.work env)).map fun worker =>
          { worker := worker, clock := env.later, polls := s.pollsAfter hasPoll env }
      else none
  | input => (s.worker.step ck hasPoll input).map fun worker => { s with worker := worker }

end TimedWorker

/-- No endpoint was polled again before it had waited as long as its poll asked. -/
def WaitsHonoured (s : TimedWorker ρ ε) : Prop :=
  s.polls.Pairwise fun next p => next.ep = p.ep → p.due ≤ next.now.toNat

/-- A wait that a poll function stores in this step has less than `2^32` nanoseconds. -/
def WaitFits (hasPoll : ε → Bool) (s : TimedWorker ρ ε) : WorkerInput ε → Prop
  | .work env => ∀ ep ∈ s.worker.polled env.now, hasPoll ep → env.wait.toNat * 1000000 < 2 ^ 32
  | _ => True

instance (hasPoll : ε → Bool) (s : TimedWorker ρ ε) : ∀ i, Decidable (WaitFits hasPoll s i)
  | .work env => inferInstanceAs (Decidable (∀ ep ∈ s.worker.polled env.now, _))
  | .add _ | .signal _ => inferInstanceAs (Decidable True)

/-- What was requested is stored. -/
structure TimedWorker.Inv (s : TimedWorker ρ ε) : Prop where
  stored : ∀ p ∈ s.polls, p.due ≤ (s.worker.nextPoll p.ep).toNat
  honoured : WaitsHonoured s

section Steps

variable [DecidableEq ε] {ck : CkRing ρ ε} {hasPoll : ε → Bool} {w w' : Worker ρ ε} {env : PollEnv}
  {e : ε}

/-- `work_endpoint_poll` stores the time that was requested exactly if that fits in 32 bits. -/
theorem pollEndpoint_nextPoll_iff (hpoll : hasPoll e = true) (hlater : env.later.toNat < 2 ^ 63) :
    ((w.pollEndpoint hasPoll e env).2.nextPoll e).toNat = env.later.toNat + env.wait.toNat * 1000000 ↔
      env.wait.toNat * 1000000 < 2 ^ 32 := by
  have hscaled : ((env.wait * 1000000#32).setWidth 64).toNat = env.wait.toNat * 1000000 % 2 ^ 32 := by
    rw [BitVec.toNat_setWidth, BitVec.toNat_mul]
    exact Nat.mod_eq_of_lt ((Nat.mod_lt _ (by decide)).trans (by decide))
  have hlt : env.wait.toNat * 1000000 % 2 ^ 32 < 2 ^ 32 := Nat.mod_lt _ (by decide)
  simp only [Worker.pollEndpoint, hpoll, if_true, Function.update_self]
  rw [BitVec.toNat_add, hscaled, Nat.mod_eq_of_lt (by omega)]
  omega

theorem pollEndpoint_nextPoll_of_ne {ep : ε} (hne : ep ≠ e) :
    (w.pollEndpoint hasPoll e env).2.nextPoll ep = w.nextPoll ep := by
  unfold Worker.pollEndpoint
  split
  · exact Function.update_of_ne hne _ _
  · rfl

theorem pollEndpoint_nextPoll_of_not_hasPoll (hpoll : hasPoll e = false) :
    (w.pollEndpoint hasPoll e env).2.nextPoll = w.nextPoll := by
  simp [Worker.pollEndpoint, hpoll]

theorem pollsMade_start : (w.start e).pollsMade = w.pollsMade := by
  simp [Worker.pollsMade, Worker.start, EndpointEvent.pollOf]

theorem pollsMade_stop : (w.stop e).pollsMade = w.pollsMade := by
  simp [Worker.pollsMade, Worker.stop, EndpointEvent.pollOf]

theorem pollsMade_pollEndpoint :
    (w.pollEndpoint hasPoll e env).2.pollsMade = w.pollsMade ++ [e] := by
  simp only [Worker.pollEndpoint]
  split <;> simp [Worker.pollsMade, EndpointEvent.pollOf]

theorem collect_polls (ck : CkRing ρ ε) (w : Worker ρ ε) (i : ℕ) (ep : Option ε) :
    (w.collect ck i ep).pollsMade = w.pollsMade ∧ (w.collect ck i ep).nextPoll = w.nextPoll := by
  simp only [Worker.collect]
  split
  · exact ⟨rfl, rfl⟩
  · split
    · exact ⟨pollsMade_start, rfl⟩
    · exact ⟨rfl, rfl⟩

omit [DecidableEq ε] in
/-- An endpoint is polled when its time has come. -/
theorem le_of_polled {now : BitVec 64} (hpolled : w.polled now = some e) : w.nextPoll e ≤ now := by
  unfold Worker.polled at hpolled
  split at hpolled
  · split at hpolled
    · cases hpolled
    · next hnot =>
      obtain rfl := Option.some.inj hpolled
      exact BitVec.not_lt.1 hnot
  · cases hpolled

/-- A step of the worker function polls the endpoint that `polled` names, or none. -/
theorem work_polled (hwork : w.work ck hasPoll env = some w') :
    w'.pollsMade = w.pollsMade ++ (w.polled env.now).toList ∧
      w'.nextPoll = match w.polled env.now with
        | none => w.nextPoll
        | some e => (w.pollEndpoint hasPoll e env).2.nextPoll := by
  unfold Worker.work at hwork
  unfold Worker.polled
  cases hpc : w.pc with
  | test =>
      simp only [hpc] at hwork
      split at hwork <;> obtain rfl := Option.some.inj hwork <;>
        exact ⟨(List.append_nil _).symm, rfl⟩
  | collect i ep =>
      simp only [hpc, Option.some.injEq] at hwork
      subst hwork
      obtain ⟨hpolls, hnext⟩ := collect_polls ck w i ep
      exact ⟨hpolls.trans (List.append_nil _).symm, hnext⟩
  | poll ep temp =>
      simp only [hpc] at hwork
      cases ep with
      | head =>
          obtain rfl := Option.some.inj hwork
          exact ⟨(List.append_nil _).symm, rfl⟩
      | wnode e =>
          by_cases hearly : w.nextPoll e > env.now
          · simp only [if_pos hearly] at hwork ⊢
            obtain rfl := Option.some.inj hwork
            exact ⟨(List.append_nil _).symm, rfl⟩
          · simp only [if_neg hearly] at hwork ⊢
            obtain rfl := Option.some.inj hwork
            simp only [Worker.advance, Option.toList_some]
            split
            · exact ⟨pollsMade_stop.trans pollsMade_pollEndpoint, rfl⟩
            · exact ⟨pollsMade_pollEndpoint, rfl⟩
      | poisonNext | poisonPrev => cases hwork
  | teardown ep temp =>
      simp only [hpc] at hwork
      cases ep with
      | head =>
          obtain rfl := Option.some.inj hwork
          exact ⟨(List.append_nil _).symm, rfl⟩
      | wnode e =>
          obtain rfl := Option.some.inj hwork
          exact ⟨pollsMade_stop.trans (List.append_nil _).symm, rfl⟩
      | poisonNext | poisonPrev => cases hwork
  | returned =>
      simp only [hpc] at hwork
      cases hwork

theorem TimedWorker.Inv.work {s s' : TimedWorker ρ ε} (h : s.Inv)
    (hG : WaitFits hasPoll s (.work env)) (hstep : s.step ck hasPoll (.work env) = some s') :
    s'.Inv := by
  simp only [TimedWorker.step, Option.ite_none_right_eq_some, Option.map_eq_some_iff] at hstep
  obtain ⟨⟨-, hlater, hlimit⟩, worker, hwork, rfl⟩ := hstep
  obtain ⟨-, hnext⟩ := work_polled hwork
  cases hpolled : s.worker.polled env.now with
  | none =>
      simp only [hpolled] at hnext
      simp only [TimedWorker.pollsAfter, hpolled]
      refine ⟨fun p hp => ?_, h.honoured⟩
      simp only [hnext]
      exact h.stored p hp
  | some e =>
      simp only [hpolled] at hnext
      have hdue : s.worker.nextPoll e ≤ env.now := le_of_polled hpolled
      cases hpoll : hasPoll e with
      | false =>
          rw [pollEndpoint_nextPoll_of_not_hasPoll hpoll] at hnext
          simp only [TimedWorker.pollsAfter, hpolled, hpoll, Bool.false_eq_true, if_false]
          refine ⟨fun p hp => ?_, h.honoured⟩
          simp only [hnext]
          exact h.stored p hp
      | true =>
          simp only [TimedWorker.pollsAfter, hpolled, hpoll, if_true]
          have hstored := (pollEndpoint_nextPoll_iff (w := s.worker) hpoll hlimit).2
            (hG e (by rw [hpolled]; rfl) hpoll)
          -- what earlier polls of the endpoint asked for is over
          have hover : ∀ p ∈ s.polls, p.ep = e → p.due ≤ env.now.toNat := by
            rintro p hp rfl
            exact (h.stored p hp).trans hdue
          refine ⟨fun p hp => ?_, List.pairwise_cons.2 ⟨fun p hp heq => hover p hp heq.symm, h.honoured⟩⟩
          simp only [hnext]
          rcases List.mem_cons.1 hp with rfl | hp
          · exact hstored.ge
          · by_cases hep : p.ep = e
            · rw [hep, hstored]
              have hle := hover p hp hep
              have hnow : env.now.toNat ≤ env.later.toNat := hlater
              omega
            · rw [pollEndpoint_nextPoll_of_ne hep]
              exact h.stored p hp

theorem TimedWorker.Inv.step {s s' : TimedWorker ρ ε} {i : WorkerInput ε} (h : s.Inv)
    (hG : WaitFits hasPoll s i) (hstep : s.step ck hasPoll i = some s') : s'.Inv := by
  cases i with
  | work env => exact h.work hG hstep
  | add ep =>
      simp only [TimedWorker.step, Worker.step, Option.map_eq_some_iff] at hstep
      obtain ⟨worker, hadd, rfl⟩ := hstep
      split at hadd
      · cases hadd
      · obtain rfl := Option.some.inj hadd
        exact ⟨h.stored, h.honoured⟩
  | signal val =>
      obtain rfl := Option.some.inj hstep
      exact ⟨h.stored, h.honoured⟩

end Steps

variable [DecidableEq ε]

/-- **Requested waits are honoured** in every run in which none of them is beyond 32 bits of
nanoseconds. -/
theorem waitsHonoured_of_meets (ck : CkRing ρ ε) (hasPoll : ε → Bool) (w : Worker ρ ε)
    (clock : BitVec 64) (inputs : List (WorkerInput ε))
    (hfits : Meets (TimedWorker.step ck hasPoll) (WaitFits hasPoll) ⟨w, clock, []⟩ inputs) :
    Throughout (TimedWorker.step ck hasPoll) WaitsHonoured ⟨w, clock, []⟩ inputs := by
  refine throughout_of_meets (fun s i s' h hG hstep => TimedWorker.Inv.step h hG hstep)
    (fun s h => h.honoured) inputs _ ⟨fun p hp => ?_, List.Pairwise.nil⟩ hfits
  cases hp

/-- An endpoint comes, is polled and asks to wait; the worker passes by twice more, at `early` and at
    `now`. -/
def threePasses (wait : BitVec 32) (early now : BitVec 64) : List (WorkerInput ℕ) :=
  [.add 4] ++ List.replicate 3 (.work ⟨0, 0, 0, 0⟩) ++
    [.work ⟨10, 0, wait, 20⟩] ++ List.replicate 3 (.work ⟨20, 0, 0, 20⟩) ++
    [.work ⟨early, 0, wait, early⟩] ++ List.replicate 3 (.work ⟨early, 0, 0, early⟩) ++
    [.work ⟨now, 0, wait, now⟩]

/-- A wait of 5 milliseconds: the second pass is too early, and the third polls again. -/
theorem waitsHonoured_of_meets_threePasses :
    Throughout (TimedWorker.step listRing fun _ => true) WaitsHonoured
      ⟨.new ⟨([], 31), 32, true⟩ noList fun _ => 0, 0, []⟩ (threePasses 5 5000019 5000020) :=
  waitsHonoured_of_meets listRing _ _ _ _ (by decide +kernel)

/-- A wait of 4295 milliseconds: the endpoint is polled again after less than a millisecond. -/
theorem waitsHonoured_fails :
    ¬ Throughout (TimedWorker.step listRing fun _ => true) WaitsHonoured
      ⟨.new ⟨([], 31), 32, true⟩ noList fun _ => 0, 0, []⟩ (threePasses 4295 32724 32725) := by
  intro h
  have hpolls : (exec (TimedWorker.step listRing fun _ => true)
      ⟨.new ⟨([], 31), 32, true⟩ noList fun _ => 0, 0, []⟩ (threePasses 4295 32724 32725)).map
      TimedWorker.polls = some [⟨4, 32724, 4295, 32724⟩, ⟨4, 10, 4295, 20⟩] := by
    decide +kernel
  obtain ⟨s, hrun, hs⟩ := Option.map_eq_some_iff.1 hpolls
  have hlast := h.last hrun
  rw [WaitsHonoured, hs] at hlast
  simp [EndpointPoll.due] at hlast

end Tsl
