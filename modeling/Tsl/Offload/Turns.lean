import Mathlib.Data.List.Rotate
import Tsl.Offload.Ends
import Tsl.Offload.Interval

set_option autoImplicit false

/-! # The turns of the endpoints

A work thread is shared by its endpoints: `__work_thread_worker_func` comes to one after the other, and
polls those whose time has come. From wherever it is, the next turns are those of the endpoints on the
list, in the order of the list from the cursor on and then from its head, before any of them has a
second one; new endpoints come behind them (`PassStep.round_prefix`). They have all had their turn
after a number of steps that is the number of endpoints and a constant (`takesTurns_of_run`). -/

namespace Tsl

open Lib

variable {ρ ε : Type*}

/-- A turn of an endpoint: the walk that polls is at it, and its time has come or not. -/
structure Turn (ε : Type*) where
  ep : ε
  due : Bool
deriving DecidableEq

/-- The turn that comes in a step. -/
def Worker.turn (w : Worker ρ ε) : WorkerInput ε → Option (Turn ε)
  | .work env =>
      match w.pc with
      | .poll (.wnode e) _ => some ⟨e, w.nextPoll e ≤ env.now⟩
      | _ => none
  | _ => none

/-- The turns in a run. -/
def Worker.turns [DecidableEq ε] (ck : CkRing ρ ε) (hasPoll : ε → Bool) :
    Worker ρ ε → List (WorkerInput ε) → List (Turn ε)
  | _, [] => []
  | w, i :: is =>
      (w.turn i).toList ++
        match w.step ck hasPoll i with
        | some w' => w'.turns ck hasPoll is
        | none => []

/-- A step of the worker function. -/
def WorkerInput.isWork : WorkerInput ε → Bool
  | .work _ => true
  | _ => false

/-- The thread is not told to die. -/
def WorkerInput.Spares : WorkerInput ε → Prop
  | .signal val => val = workThreadAlive
  | _ => True

/-- How the endpoints on the list of `w` take turns in the run `is`, which leads to `w'`. -/
structure TakesTurns [DecidableEq ε] (ck : CkRing ρ ε) (hasPoll : ε → Bool) (w : Worker ρ ε)
    (is : List (WorkerInput ε)) (w' : Worker ρ ε) : Prop where
  /-- One after the other from some endpoint on, and each before any has a second turn; and all of
      them if the thread makes enough steps. -/
  inTurn : ∃ (eps : List ε) (k : ℕ), IsList w.list .head (eps.map .wnode) ∧
    (∀ ep, ep ∈ eps ↔ .startup ep ∈ w.events ∧ .shutdown ep ∉ w.events) ∧
    ((w.turns ck hasPoll is).map Turn.ep <+: eps.rotate k ∨
      eps.rotate k <+: (w.turns ck hasPoll is).map Turn.ep) ∧
    (eps.length + 18 ≤ is.countP WorkerInput.isWork →
      eps.rotate k <+: (w.turns ck hasPoll is).map Turn.ep)
  /-- Those whose time has come are polled in their turn, and no others are. -/
  polled : w'.pollsMade = w.pollsMade ++ ((w.turns ck hasPoll is).filter Turn.due).map Turn.ep

/-! ## A pass -/

namespace Pass

/-- The endpoints in the order in which they come next. -/
def round : Pass ε → List ε
  | .test eps => eps
  | .collect _ eps => eps
  | .poll walked rest => rest ++ walked
  | .teardown _ => []
  | .returned => []

/-- The endpoint whose turn it is. -/
def next : Pass ε → Option ε
  | .poll _ (e :: _) => some e
  | _ => none

def InLoop : Pass ε → Prop
  | .teardown _ => False
  | .returned => False
  | _ => True

/-- The steps until there have been `k` turns, where no more than all endpoints have theirs. -/
def stepsTo (k : ℕ) : Pass ε → ℕ
  | .test _ => k + workThreadMaxQueuedEndpoints / 2 + 1
  | .collect i _ => k + max i 1
  | .poll _ rest => if k ≤ rest.length then k else k + workThreadMaxQueuedEndpoints / 2 + 2
  | .teardown _ => 0
  | .returned => 0

end Pass

section Passes

variable {alive : Prop} {p p' : Pass ε}

theorem PassStep.inLoop (h : PassStep alive p p') (halive : alive) (hin : p.InLoop) : p'.InLoop := by
  cases h with
  | stop hdead => exact hdead halive
  | teardown => exact hin
  | done => exact hin
  | _ => trivial

/-- **A step keeps the order**, and the endpoint whose turn it was comes first. -/
theorem PassStep.round_prefix (h : PassStep alive p p') (halive : alive) (hin : p.InLoop) :
    p.round <+: p.next.toList ++ p'.round := by
  cases h with
  | begin => exact List.prefix_rfl
  | stop hdead => exact absurd halive hdead
  | start e => exact List.prefix_append _ _
  | walk => simp [Pass.round, Pass.next]
  | keep => simp [Pass.round, Pass.next]
  | drop => simp [Pass.round, Pass.next]
  | again => simp [Pass.round, Pass.next]
  | teardown => exact hin.elim
  | done => exact hin.elim

/-- **A step brings the turns nearer.** -/
theorem PassStep.stepsTo_lt (h : PassStep alive p p') (halive : alive) (hin : p.InLoop) {j k : ℕ}
    (hj : k = j + p.next.toList.length) (hpos : 0 < k) (hk : k ≤ p.round.length) :
    p'.stepsTo j < p.stepsTo k := by
  have hhalf : workThreadMaxQueuedEndpoints / 2 = 16 := rfl
  cases h with
  | begin =>
      obtain rfl : k = j := hj
      simp only [Pass.stepsTo, hhalf]
      omega
  | stop hdead => exact absurd halive hdead
  | start e hmore =>
      obtain rfl : k = j := hj
      simp only [Pass.stepsTo]
      omega
  | walk =>
      obtain rfl : k = j := hj
      simp only [Pass.round] at hk
      simp only [Pass.stepsTo, if_pos hk]
      omega
  | keep | drop =>
      obtain rfl : k = j + 1 := hj
      simp only [Pass.stepsTo, List.length_cons]
      split_ifs <;> omega
  | again =>
      obtain rfl : k = j := hj
      have hnone : ¬ k ≤ ([] : List ε).length := Nat.not_le.2 hpos
      simp only [Pass.stepsTo, if_neg hnone]
      omega
  | teardown => exact hin.elim
  | done => exact hin.elim

theorem Pass.stepsTo_le {p : Pass ε} {w : Worker ρ ε} (hat : p.At w.pc) (hcount : CountsDown w) :
    p.stepsTo p.endpoints.length ≤ p.endpoints.length + 18 := by
  have hhalf : workThreadMaxQueuedEndpoints / 2 = 16 := rfl
  cases p with
  | test eps =>
      simp only [Pass.stepsTo, Pass.endpoints, hhalf]
      omega
  | collect i eps =>
      cases hpc : w.pc with
      | collect i' ep =>
          rw [hpc] at hat
          obtain rfl : i = i' := hat
          have hi := hcount i ep hpc
          simp only [Pass.stepsTo, Pass.endpoints]
          omega
      | _ =>
          rw [hpc] at hat
          exact hat.elim
  | poll walked rest =>
      simp only [Pass.stepsTo, hhalf]
      split_ifs <;> omega
  | teardown eps => exact Nat.zero_le _
  | returned => exact Nat.zero_le _

theorem Pass.exists_rotate (hin : p.InLoop) : ∃ k, p.round = p.endpoints.rotate k := by
  cases p with
  | test eps => exact ⟨0, (List.rotate_zero _).symm⟩
  | collect i eps => exact ⟨0, (List.rotate_zero _).symm⟩
  | poll walked rest => exact ⟨walked.length, (List.rotate_append_length_eq _ _).symm⟩
  | teardown eps => exact hin.elim
  | returned => exact hin.elim

end Passes

/-! ## A run -/

section Runs

variable [DecidableEq ε] {ck : CkRing ρ ε} {contents : ρ → List (Option ε)} {room : ρ → ℕ}
  {hasPoll : ε → Bool} {w w' : Worker ρ ε} {p : Pass ε} {is : List (WorkerInput ε)}

/-- The worker function goes round, and is at `p`. -/
structure GoesRound (contents : ρ → List (Option ε)) (w : Worker ρ ε) (p : Pass ε) : Prop where
  ok : ∃ queued, WorkerOk contents w p.endpoints queued
  place : p.At w.pc
  inLoop : p.InLoop
  alive : w.signalDeath = workThreadAlive
  counts : CountsDown w

omit [DecidableEq ε] in
theorem turn_work (hat : p.At w.pc) (env : PollEnv) :
    (w.turn (.work env)).toList.map Turn.ep = p.next.toList := by
  cases hpc : w.pc with
  | poll ep temp =>
      rw [hpc] at hat
      cases p with
      | poll walked rest =>
          cases rest with
          | nil =>
              obtain rfl : ep = .head := hat
              simp [Worker.turn, hpc, Pass.next]
          | cons e rest =>
              obtain ⟨rfl, rfl⟩ := hat
              simp [Worker.turn, hpc, Pass.next]
      | _ => exact hat.elim
  | _ =>
      rw [hpc] at hat
      cases p with
      | poll walked rest => exact hat.elim
      | _ => simp [Worker.turn, hpc, Pass.next]

theorem add_frame {ep : ε} (hstep : w.step ck hasPoll (.add ep) = some w') :
    w'.pc = w.pc ∧ w'.signalDeath = w.signalDeath ∧ w'.events = w.events := by
  simp only [Worker.step] at hstep
  split at hstep
  · cases hstep
  · cases hstep
    exact ⟨rfl, rfl, rfl⟩

/-- **One step**: the order is kept, and the turns come nearer in each step of the worker function. -/
theorem GoesRound.step (hck : ck.BoundedFifo contents room) (h : GoesRound contents w p)
    {i : WorkerInput ε} (hspares : i.Spares) (hstep : w.step ck hasPoll i = some w') :
    ∃ p', GoesRound contents w' p' ∧ p.round <+: (w.turn i).toList.map Turn.ep ++ p'.round ∧
      ∀ j k, k = j + (w.turn i).toList.length → 0 < k → k ≤ p.round.length →
        p'.stepsTo j + (if i.isWork then 1 else 0) ≤ p.stepsTo k := by
  obtain ⟨queued, hok⟩ := h.ok
  cases i with
  | add ep =>
      obtain ⟨hpc, hsignal, -⟩ := add_frame hstep
      have hnew : ep ∉ w.arrived := by
        intro hold
        rw [Worker.step, if_pos hold] at hstep
        cases hstep
      obtain ⟨-, queued', hok'⟩ := hok.add hck hnew hstep
      refine ⟨p, ⟨⟨queued', hok'⟩, hpc ▸ h.place, h.inLoop, hsignal.trans h.alive, ?_⟩,
        List.prefix_rfl, ?_⟩
      · exact fun i ep hcollect => h.counts i ep (hpc ▸ hcollect)
      · rintro j k rfl - -
        exact le_rfl
  | signal val =>
      cases hstep
      refine ⟨p, ⟨⟨queued, ?_⟩, h.place, h.inLoop, hspares, h.counts⟩, List.prefix_rfl, ?_⟩
      · exact ⟨hok.buffer, hok.listed, hok.active, hok.queue, hok.distinct, hok.fresh, hok.started,
          hok.allowed⟩
      · rintro j k rfl - -
        exact le_rfl
  | work env =>
      obtain ⟨p', queued', hmove, hok', hat'⟩ := work_pass hck hok h.place hstep
      obtain ⟨hcounts, hsignal, -⟩ := work_frame hstep h.counts
      have hturn := turn_work h.place env
      have hlength := congrArg List.length hturn
      rw [List.length_map] at hlength
      refine ⟨p', ⟨⟨queued', hok'⟩, hat', hmove.inLoop h.alive h.inLoop, hsignal.trans h.alive,
        hcounts⟩, ?_, ?_⟩
      · rw [hturn]
        exact hmove.round_prefix h.alive h.inLoop
      · intro j k hj hpos hk
        rw [hlength] at hj
        exact hmove.stepsTo_lt h.alive h.inLoop hj hpos hk

/-- **A run**: the endpoints come in the order of `p`, and as many as the steps are enough for. -/
theorem GoesRound.run (hck : ck.BoundedFifo contents room) (h : GoesRound contents w p)
    (hspares : ∀ i ∈ is, i.Spares) (hrun : exec (Worker.step ck hasPoll) w is = some w') :
    (∃ after, p.round <+: (w.turns ck hasPoll is).map Turn.ep ++ after) ∧
      ∀ k ≤ p.round.length, p.stepsTo k ≤ is.countP WorkerInput.isWork →
        k ≤ (w.turns ck hasPoll is).length := by
  induction is generalizing w p with
  | nil =>
      refine ⟨⟨p.round, List.prefix_rfl⟩, fun k hk hsteps => ?_⟩
      -- without a step there is no turn
      cases p with
      | test eps => simp [Pass.stepsTo] at hsteps
      | collect i eps =>
          simp only [Pass.stepsTo, List.countP_nil] at hsteps
          omega
      | poll walked rest =>
          simp only [Pass.stepsTo, List.countP_nil] at hsteps
          split_ifs at hsteps <;> omega
      | teardown eps => exact h.inLoop.elim
      | returned => exact h.inLoop.elim
  | cons i is ih =>
      obtain ⟨u, hstep, hrest⟩ := exec_cons_eq_some.1 hrun
      obtain ⟨p', h', hprefix, hnearer⟩ := h.step hck (hspares i List.mem_cons_self) hstep
      obtain ⟨⟨after, hafter⟩, henough⟩ :=
        ih h' (fun j hj => hspares j (List.mem_cons_of_mem _ hj)) hrest
      simp only [Worker.turns, hstep]
      refine ⟨⟨after, ?_⟩, fun k hk hsteps => ?_⟩
      · rw [List.map_append, List.append_assoc]
        exact hprefix.trans ((List.prefix_append_right_inj _).2 hafter)
      · rw [List.length_append]
        by_cases hnow : k ≤ (w.turn i).toList.length
        · omega
        · have hle := hprefix.length_le
          rw [List.length_append, List.length_map] at hle
          have hpos : 0 < k := by omega
          have hdone := hnearer (k - (w.turn i).toList.length) k (by omega) hpos hk
          rw [List.countP_cons] at hsteps
          have hlater := henough (k - (w.turn i).toList.length) (by omega) (by omega)
          omega

omit [DecidableEq ε] in
theorem polled_eq_turn (w : Worker ρ ε) (env : PollEnv) :
    (w.polled env.now).toList = ((w.turn (.work env)).toList.filter Turn.due).map Turn.ep := by
  cases hpc : w.pc with
  | poll ep temp =>
      cases ep with
      | wnode e =>
          by_cases hearly : w.nextPoll e > env.now
          · simp [Worker.polled, Worker.turn, hpc, hearly]
          · simp [Worker.polled, Worker.turn, hpc, hearly, BitVec.not_lt.1 hearly]
      | _ => simp [Worker.polled, Worker.turn, hpc]
  | _ => simp [Worker.polled, Worker.turn, hpc]

theorem step_polled {i : WorkerInput ε} (hstep : w.step ck hasPoll i = some w') :
    w'.pollsMade = w.pollsMade ++ ((w.turn i).toList.filter Turn.due).map Turn.ep := by
  cases i with
  | add ep =>
      rw [Worker.pollsMade, (add_frame hstep).2.2]
      simp [Worker.turn, Worker.pollsMade]
  | signal val =>
      cases hstep
      simp [Worker.turn, Worker.pollsMade]
  | work env =>
      rw [(work_polled hstep).1, polled_eq_turn]

theorem run_polled (hrun : exec (Worker.step ck hasPoll) w is = some w') :
    w'.pollsMade = w.pollsMade ++ ((w.turns ck hasPoll is).filter Turn.due).map Turn.ep := by
  induction is generalizing w with
  | nil =>
      cases hrun
      simp [Worker.turns]
  | cons i is ih =>
      obtain ⟨u, hstep, hrest⟩ := exec_cons_eq_some.1 hrun
      rw [ih hrest, step_polled hstep]
      simp only [Worker.turns, hstep, List.filter_append, List.map_append, List.append_assoc]

theorem GoesRound.takesTurns (hck : ck.BoundedFifo contents room) (h : GoesRound contents w p)
    (hspares : ∀ i ∈ is, i.Spares) (hrun : exec (Worker.step ck hasPoll) w is = some w') :
    TakesTurns ck hasPoll w is w' where
  inTurn := by
    obtain ⟨queued, hok⟩ := h.ok
    obtain ⟨k, hround⟩ := Pass.exists_rotate h.inLoop
    obtain ⟨⟨after, hafter⟩, henough⟩ := h.run hck hspares hrun
    have horder := List.prefix_or_prefix_of_prefix (List.prefix_append _ after) hafter
    refine ⟨p.endpoints, k, hok.listed, hok.active, hround ▸ horder, fun hsteps => hround ▸ ?_⟩
    have hlength : p.round.length = p.endpoints.length := by rw [hround, List.length_rotate]
    have hall := henough p.endpoints.length hlength.ge
      ((Pass.stepsTo_le h.place h.counts).trans hsteps)
    -- there are as many turns as endpoints at least
    rcases horder with hfew | hmany
    · exact (hfew.eq_of_length_le (by rw [List.length_map, hlength]; exact hall)) ▸ List.prefix_rfl
    · exact hmany
  polled := run_polled hrun

end Runs

/-- **The endpoints take turns** from every state on that a work thread comes to, until it is told to
die. -/
theorem takesTurns_of_run [DecidableEq ε] {ck : CkRing ρ ε} {contents : ρ → List (Option ε)}
    {room : ρ → ℕ} (hck : ck.BoundedFifo contents room) {q : WorkQueue ρ}
    (hq : workQueueNew ck workThreadMaxQueuedEndpoints true = (aOk, some q))
    (list : ListMem (WorkNode ε)) (nextPoll : ε → BitVec 64) (hasPoll : ε → Bool)
    (before is : List (WorkerInput ε)) (hspares : ∀ i ∈ before ++ is, i.Spares) {w w' : Worker ρ ε}
    (hbefore : exec (Worker.step ck hasPoll) (.new q list nextPoll) before = some w)
    (hrun : exec (Worker.step ck hasPoll) w is = some w') : TakesTurns ck hasPoll w is w' := by
  obtain ⟨hspared, hspares⟩ := List.forall_mem_append.1 hspares
  have hnew : GoesRound contents (.new q list nextPoll) (.test []) :=
    ⟨⟨[], workerOk_new hck hq list nextPoll⟩, trivial, trivial, rfl, fun _ _ h => by cases h⟩
  have hstep : ∀ (u : Worker ρ ε) i u', (∃ p, GoesRound contents u p) → i.Spares →
      u.step ck hasPoll i = some u' → ∃ p, GoesRound contents u' p := by
    rintro u i u' ⟨p, h⟩ hi hstep
    obtain ⟨p', h', -⟩ := h.step hck hi hstep
    exact ⟨p', h'⟩
  obtain ⟨p, h⟩ := exec_invariant_of_meets hstep ⟨_, hnew⟩ (meets_of_forall hspared _) hbefore
  exact h.takesTurns hck hspares hrun

/-- Two endpoints are on the list, and the first one has asked to wait. -/
def twoPolled : List (WorkerInput ℕ) :=
  [.add 4, .add 7] ++ List.replicate 4 (.work ⟨0, 0, 0, 0⟩) ++ [.work ⟨0, aOk, 5, 9⟩]

/-- The thread goes on for three passes, and its wait is over in the last; another endpoint comes. -/
def threeRounds : List (WorkerInput ℕ) :=
  List.replicate 7 (.work ⟨10, 0, 0, 10⟩) ++ [.add 8] ++ List.replicate 6 (.work ⟨11, 0, 0, 11⟩) ++
    List.replicate 7 (.work ⟨5000010, 0, 0, 5000010⟩)

theorem takesTurns_of_run_threeRounds : ∃ w w',
    exec (Worker.step listRing fun _ => true) (.new ⟨([], 31), 32, true⟩ noList fun _ => 0) twoPolled =
        some w ∧
      exec (Worker.step listRing fun _ => true) w threeRounds = some w' ∧
      w.turns listRing (fun _ => true) threeRounds =
        [⟨7, true⟩, ⟨4, false⟩, ⟨7, true⟩, ⟨4, false⟩, ⟨7, true⟩, ⟨8, true⟩, ⟨4, true⟩, ⟨7, true⟩,
          ⟨8, true⟩] ∧
      TakesTurns listRing (fun _ => true) w threeRounds w' := by
  have hruns : ((exec (Worker.step listRing fun _ => true)
      (.new ⟨([], 31), 32, true⟩ noList fun _ => 0) twoPolled).bind fun w =>
        (exec (Worker.step listRing fun _ => true) w threeRounds).map fun _ =>
          w.turns listRing (fun _ => true) threeRounds) =
      some [⟨7, true⟩, ⟨4, false⟩, ⟨7, true⟩, ⟨4, false⟩, ⟨7, true⟩, ⟨8, true⟩, ⟨4, true⟩, ⟨7, true⟩,
        ⟨8, true⟩] := by
    decide +kernel
  obtain ⟨w, hw, hrest⟩ := Option.bind_eq_some_iff.1 hruns
  obtain ⟨w', hw', hturns⟩ := Option.map_eq_some_iff.1 hrest
  have hspares : ∀ i ∈ twoPolled ++ threeRounds, i.Spares := by
    intro i hi
    simp only [twoPolled, threeRounds, List.mem_append, List.mem_cons, List.mem_replicate,
      List.not_mem_nil, or_false] at hi
    cases i with
    | signal val => simp at hi
    | _ => trivial
  exact ⟨w, w', hw, hw', hturns, takesTurns_of_run listRing_boundedFifo rfl noList (fun _ => 0)
    (fun _ => true) twoPolled threeRounds hspares hw hw'⟩

end Tsl
