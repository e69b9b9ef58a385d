import Tsl.Offload.Pass

set_option autoImplicit false

/-! # The end of a work thread

Once `signal_death` of a work thread is set, `__work_thread_worker_func` comes to its end in a bounded
number of steps of its own, however many endpoints are queued meanwhile: a pass collects 15 of them at
most, polls what is on the list once, and then finds that it is to die (`work_left`).

It also collects endpoints in the order in which they were queued (`InOrder`). -/

namespace Tsl

open Lib

variable {ρ ε : Type*}

/-- The steps that are left to a worker function that is to die, with the endpoints `eps` on the
    list. -/
def StepsLeft (eps : List ε) (n : ℕ) : WorkerPlace ε → Prop
  | .test => n = eps.length + 2
  | .collect i _ => n = 3 * i + 2 * eps.length + 4
  | .poll ep temp => ∃ walked rest, eps = walked ++ rest ∧ CursorAt rest ep temp ∧
      n = rest.length + eps.length + 3
  | .teardown ep temp => CursorAt eps ep temp ∧ n = eps.length + 1
  | .returned => eps = [] ∧ n = 0

/-- A pass that collects starts with half the size of the queue. -/
def CountsDown (w : Worker ρ ε) : Prop :=
  ∀ i ep, w.pc = .collect i ep → i ≤ workThreadMaxQueuedEndpoints / 2

/-- The endpoints started and then those queued came in this order. -/
def InOrder (contents : ρ → List (Option ε)) (w : Worker ρ ε) : Prop :=
  ∃ queued, contents w.epQueue.fifo = queued.map some ∧
    (w.events.filterMap EndpointEvent.startupOf ++ queued).Sublist w.arrived.reverse

section Ends

variable {eps : List ε} {n : ℕ}

theorem PlaceOk.stepsLeft {pc : WorkerPlace ε} (h : PlaceOk eps pc) : ∃ n, StepsLeft eps n pc := by
  cases pc with
  | test => exact ⟨_, rfl⟩
  | collect i ep => exact ⟨_, rfl⟩
  | poll ep temp =>
      obtain ⟨walked, rest, heps, hcursor⟩ := h
      exact ⟨_, walked, rest, heps, hcursor, rfl⟩
  | teardown ep temp => exact ⟨_, h, rfl⟩
  | returned => exact ⟨_, h, rfl⟩

theorem StepsLeft.le {w : Worker ρ ε} (h : StepsLeft eps n w.pc) (hcount : CountsDown w) :
    n ≤ 2 * eps.length + 52 := by
  cases hpc : w.pc with
  | test =>
      rw [hpc] at h
      change n = eps.length + 2 at h
      omega
  | collect i ep =>
      have hi : i ≤ 16 := hcount i ep hpc
      rw [hpc] at h
      change n = 3 * i + 2 * eps.length + 4 at h
      omega
  | poll ep temp =>
      rw [hpc] at h
      obtain ⟨walked, rest, rfl, -, rfl⟩ := h
      rw [List.length_append]
      omega
  | teardown ep temp =>
      rw [hpc] at h
      obtain ⟨-, rfl⟩ := h
      omega
  | returned =>
      rw [hpc] at h
      obtain ⟨-, rfl⟩ := h
      omega

/-- The steps that a pass leaves. -/
def Pass.left : Pass ε → ℕ
  | .test eps => eps.length + 2
  | .collect i eps => 3 * i + 2 * eps.length + 4
  | .poll walked rest => rest.length + (walked ++ rest).length + 3
  | .teardown eps => eps.length + 1
  | .returned => 0

theorem Pass.stepsLeft (p : Pass ε) {pc : WorkerPlace ε} (hat : p.At pc) :
    StepsLeft p.endpoints p.left pc := by
  cases p <;> cases pc <;> try exact hat.elim
  case test => rfl
  case collect i eps i' ep =>
      obtain rfl : i = i' := hat
      rfl
  case poll walked rest ep temp => exact ⟨walked, rest, rfl, hat, rfl⟩
  case teardown eps ep temp => exact ⟨hat, rfl⟩
  case returned => exact ⟨rfl, rfl⟩

theorem StepsLeft.exists_pass {pc : WorkerPlace ε} (h : StepsLeft eps n pc) :
    ∃ p : Pass ε, p.endpoints = eps ∧ p.At pc ∧ n = p.left := by
  cases pc with
  | test => exact ⟨.test eps, rfl, trivial, h⟩
  | collect i ep => exact ⟨.collect i eps, rfl, rfl, h⟩
  | poll ep temp =>
      obtain ⟨walked, rest, rfl, hcursor, hn⟩ := h
      exact ⟨.poll walked rest, rfl, hcursor, hn⟩
  | teardown ep temp => exact ⟨.teardown eps, rfl, h.1, h.2⟩
  | returned => exact ⟨.returned, h.1.symm, trivial, h.2⟩

/-- In a thread that is to die every step leaves less. -/
theorem PassStep.left_lt {alive : Prop} {p p' : Pass ε} (h : PassStep alive p p') (hdead : ¬ alive) :
    p'.left < p.left := by
  cases h with
  | begin halive => exact absurd halive hdead
  | _ => simp only [Pass.left, List.length_append, List.length_cons, List.length_nil]; omega

variable [DecidableEq ε] {ck : CkRing ρ ε} {contents : ρ → List (Option ε)} {room : ρ → ℕ}
  {hasPoll : ε → Bool} {w w' : Worker ρ ε} {queued : List ε}

/-- **One step of a worker function that is to die** leaves less. -/
theorem work_left (hck : ck.BoundedFifo contents room) {env : PollEnv}
    (h : WorkerOk contents w eps queued) (hleft : StepsLeft eps n w.pc)
    (hdead : w.signalDeath ≠ workThreadAlive) (hwork : w.work ck hasPoll env = some w') :
    ∃ eps' queued', WorkerOk contents w' eps' queued' ∧ ∃ n' < n, StepsLeft eps' n' w'.pc := by
  obtain ⟨p, rfl, hat, rfl⟩ := hleft.exists_pass
  obtain ⟨p', queued', hstep, h', hat'⟩ := work_pass hck h hat hwork
  exact ⟨p'.endpoints, queued', h', p'.left, hstep.left_lt hdead, p'.stepsLeft hat'⟩

theorem work_frame {env : PollEnv} (hwork : w.work ck hasPoll env = some w') (hcount : CountsDown w) :
    CountsDown w' ∧ w'.signalDeath = w.signalDeath ∧ w'.arrived = w.arrived := by
  have hplace : ∀ {w'' : Worker ρ ε}, (∀ i ep, w''.pc ≠ .collect i ep) → CountsDown w'' :=
    fun hne i ep hpc => absurd hpc (hne i ep)
  have hpoll : ∀ e, (w.pollEndpoint hasPoll e env).2.signalDeath = w.signalDeath ∧
      (w.pollEndpoint hasPoll e env).2.arrived = w.arrived := by
    intro e
    unfold Worker.pollEndpoint
    split <;> exact ⟨rfl, rfl⟩
  unfold Worker.work at hwork
  split at hwork
  · split at hwork
    · cases hwork
      refine ⟨fun i ep hpc => ?_, rfl, rfl⟩
      cases hpc
      exact Nat.le_refl _
    · cases hwork
      exact ⟨hplace (fun _ _ h => by cases h), rfl, rfl⟩
  · next i ep hpc =>
    cases hwork
    have hi := hcount i ep hpc
    simp only [Worker.collect]
    split
    · exact ⟨hplace (fun _ _ h => by cases h), rfl, rfl⟩
    · split
      · refine ⟨fun i' ep' hpc' => ?_, rfl, rfl⟩
        cases hpc'
        exact Nat.le_trans (Nat.sub_le _ _) hi
      · exact ⟨hplace (fun _ _ h => by cases h), rfl, rfl⟩
  · split at hwork
    · cases hwork
      exact ⟨hplace (fun _ _ h => by cases h), rfl, rfl⟩
    · split at hwork
      · cases hwork
        exact ⟨hplace (fun _ _ h => by cases h), rfl, rfl⟩
      · cases hwork
        refine ⟨hplace (fun _ _ h => by cases h), ?_⟩
        split
        · exact hpoll _
        · exact hpoll _
    · cases hwork
  · split at hwork
    · cases hwork
      exact ⟨hplace (fun _ _ h => by cases h), rfl, rfl⟩
    · cases hwork
      exact ⟨hplace (fun _ _ h => by cases h), rfl, rfl⟩
    · cases hwork
  · cases hwork

/-- A step that is not one that collects starts nothing, and leaves the queue alone. -/
theorem work_quiet {env : PollEnv} (hwork : w.work ck hasPoll env = some w')
    (hpc : ∀ i ep, w.pc ≠ .collect i ep) : w'.epQueue = w.epQueue ∧
      w'.events.filterMap EndpointEvent.startupOf = w.events.filterMap EndpointEvent.startupOf := by
  have hstop : ∀ (w : Worker ρ ε) e, (w.stop e).events.filterMap EndpointEvent.startupOf =
      w.events.filterMap EndpointEvent.startupOf := fun w e => by
    simp [Worker.stop, EndpointEvent.startupOf]
  have hpoll : ∀ e, (w.pollEndpoint hasPoll e env).2.epQueue = w.epQueue ∧
      (w.pollEndpoint hasPoll e env).2.events.filterMap EndpointEvent.startupOf =
        w.events.filterMap EndpointEvent.startupOf := by
    intro e
    unfold Worker.pollEndpoint
    split <;> exact ⟨rfl, by simp [EndpointEvent.startupOf]⟩
  unfold Worker.work at hwork
  split at hwork
  · split at hwork <;> cases hwork <;> exact ⟨rfl, rfl⟩
  · next i ep hcollect => exact absurd hcollect (hpc i ep)
  · split at hwork
    · cases hwork
      exact ⟨rfl, rfl⟩
    · split at hwork
      · cases hwork
        exact ⟨rfl, rfl⟩
      · cases hwork
        obtain ⟨hqueue, hevents⟩ := hpoll _
        split
        · exact ⟨hqueue, (hstop _ _).trans hevents⟩
        · exact ⟨hqueue, hevents⟩
    · cases hwork
  · split at hwork
    · cases hwork
      exact ⟨rfl, rfl⟩
    · cases hwork
      exact ⟨rfl, hstop _ _⟩
    · cases hwork
  · cases hwork

/-- Endpoints are started in the order of the queue, whether or not one is dropped. -/
theorem InOrder.collect (hck : ck.BoundedFifo contents room) (hbuffer : w.epQueue.buffer = true)
    (h : InOrder contents w) (i : ℕ) (ep : Option ε) : InOrder contents (w.collect ck i ep) := by
  obtain ⟨queued, hqueue, hsub⟩ := h
  obtain ⟨fifo, -, ⟨hnil, hnil', hpop⟩ | ⟨x, hcons, hpop⟩⟩ := workQueuePop_cases hck hbuffer ep
  · simp only [Worker.collect, hpop]
    refine ⟨[], hnil', ?_⟩
    rw [List.append_nil]
    exact (List.sublist_append_left _ queued).trans hsub
  · cases queued with
    | nil =>
        rw [hqueue] at hcons
        cases hcons
    | cons e queued =>
        rw [hqueue, List.map_cons, List.cons.injEq] at hcons
        obtain ⟨rfl, hrest⟩ := hcons
        simp only [Worker.collect, hpop]
        split
        · refine ⟨queued, hrest.symm, ?_⟩
          simpa [Worker.start, EndpointEvent.startupOf] using hsub
        · refine ⟨queued, hrest.symm, List.Sublist.trans ?_ hsub⟩
          exact (List.append_sublist_append_left _).2 (List.sublist_cons_self e queued)

theorem InOrder.work (hck : ck.BoundedFifo contents room) (hbuffer : w.epQueue.buffer = true)
    (hcount : CountsDown w) (h : InOrder contents w) {env : PollEnv} (hwork : w.work ck hasPoll env = some w') :
    InOrder contents w' := by
  by_cases hpc : ∃ i ep, w.pc = .collect i ep
  · obtain ⟨i, ep, hpc⟩ := hpc
    simp only [Worker.work, hpc, Option.some.injEq] at hwork
    exact hwork ▸ h.collect hck hbuffer i ep
  · push Not at hpc
    obtain ⟨hqueue, hevents⟩ := work_quiet hwork hpc
    obtain ⟨queued, hcontents, hsub⟩ := h
    refine ⟨queued, by rw [hqueue]; exact hcontents, ?_⟩
    rw [hevents, (work_frame hwork hcount).2.2]
    exact hsub

end Ends

end Tsl
