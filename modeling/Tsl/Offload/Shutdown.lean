import Mathlib.Logic.Function.Basic
import Tsl.Offload.Thread

set_option autoImplicit false

/-! # Shutting down a work thread

`work_thread_shutdown` of `tsl/offload/thread.c` signals a work thread to leave its poll loop, but only
if `thread_running` of `tsl/threading.c` reports it to be running. That is what `__thread_wrapper_func`
writes in the new thread, after it has applied the affinity mask; a shutdown that comes earlier
returns `A_OK` and does nothing.

The machine below starts where `work_thread_start` has created the thread, and runs any number of
threads that shut it down. One step is one access to `state` or `signal_death`; what the thread does
between two tests of its loop is one step too. A call that does not signal returns with its check. -/

namespace Tsl

open Lib

/-- `enum thread_state`. -/
inductive ThreadState where
  | idle
  | running
  | terminated
deriving DecidableEq, Repr

/-- `WORK_THREAD_DEAD`. -/
def workThreadDead : BitVec 32 := 1

/-- `thread_running`: the result code and `*val`. -/
def threadRunning (state : ThreadState) : AResult × ℕ :=
  (aOk, if state = .running then 1 else 0)

/-- Where the new thread is. -/
inductive WorkThreadPc where
  /-- `cpu_mask_apply(thread->mask)`. -/
  | apply
  /-- `thread->state = THREAD_STATE_RUNNING`. -/
  | setRunning
  /-- The test of the loop of `__work_thread_worker_func`. -/
  | test
  /-- The body of that loop. -/
  | body
  /-- What comes after it. -/
  | leave
  /-- `thread->state = THREAD_STATE_TERMINATED`. -/
  | terminate (ret : AResult)
  | exited (ret : AResult)
deriving DecidableEq, Repr

/-- `__work_thread_worker_func` is not called yet. -/
def WorkThreadPc.starting : WorkThreadPc → Bool
  | .apply | .setRunning => true
  | _ => false

/-- `__work_thread_worker_func` has returned, or will not be called any more. -/
def WorkThreadPc.finished : WorkThreadPc → Bool
  | .terminate _ | .exited _ => true
  | _ => false

/-- Where a thread is in `work_thread_shutdown`. -/
inductive ShutdownPc where
  | idle
  /-- `thread_running(thread->thread, &val)`. -/
  | check
  /-- `__work_thread_signal_to_die(thread)`. -/
  | signal
deriving DecidableEq, Repr

/-- A work thread and those who shut it down; `returned` has what their calls returned. -/
structure ShutdownRun (τ : Type*) where
  state : ThreadState
  signalDeath : BitVec 32
  thread : WorkThreadPc
  pc : τ → ShutdownPc
  returned : List AResult

/-- What can happen: the work thread makes its next step; a thread calls `work_thread_shutdown`, or
    makes the next step in it. -/
inductive ShutdownStep (τ : Type*) where
  | thread
  | shutdown (t : τ)
  | run (t : τ)

namespace ShutdownRun

variable {τ : Type*}

/-- A work thread that was just started. -/
def new : ShutdownRun τ where
  state := .idle
  signalDeath := workThreadAlive
  thread := .apply
  pc := fun _ => .idle
  returned := []

/-- The next step of `__thread_wrapper_func`, with `__work_thread_worker_func` in it; `applied` is what
    `cpu_mask_apply` returns. -/
def work (applied : AResult) (s : ShutdownRun τ) : Option (ShutdownRun τ) :=
  match s.thread with
  | .apply => some { s with thread := if applied ≠ aOk then .terminate applied else .setRunning }
  | .setRunning => some { s with state := .running, thread := .test }
  | .test => some { s with thread := if s.signalDeath = workThreadAlive then .body else .leave }
  | .body => some { s with thread := .test }
  | .leave => some { s with thread := .terminate aOk }
  | .terminate ret => some { s with state := .terminated, thread := .exited ret }
  | .exited _ => none

variable [DecidableEq τ]

def goto (s : ShutdownRun τ) (t : τ) (pc : ShutdownPc) : ShutdownRun τ :=
  { s with pc := Function.update s.pc t pc }

def ret (s : ShutdownRun τ) (t : τ) (result : AResult) : ShutdownRun τ :=
  { s with pc := Function.update s.pc t .idle, returned := result :: s.returned }

/-- The next step of a thread in `work_thread_shutdown`. -/
def shutdown (s : ShutdownRun τ) (t : τ) : Option (ShutdownRun τ) :=
  match s.pc t with
  | .idle => none
  | .check =>
      let (ret, val) := threadRunning s.state
      some (if val = 0 ∨ afailed ret = true then s.ret t ret else s.goto t .signal)
  | .signal => some (ShutdownRun.ret { s with signalDeath := workThreadDead } t aOk)

/-- One step of the machine. -/
def step (applied : AResult) (s : ShutdownRun τ) : ShutdownStep τ → Option (ShutdownRun τ)
  | .thread => s.work applied
  | .shutdown t => if s.pc t = .idle then some (s.goto t .check) else none
  | .run t => s.shutdown t

end ShutdownRun

/-! ## Shutdowns that are lost -/

variable {τ : Type*} [DecidableEq τ]

/-- A shutdown that returned `A_OK` is not lost: the next test of the loop ends it, or the worker
    function has finished, or it will never start. -/
def NoLostShutdown (applied : AResult) (s : ShutdownRun τ) : Prop :=
  aOk ∈ s.returned →
    s.signalDeath ≠ workThreadAlive ∨ s.thread.finished = true ∨ applied ≠ aOk

/-- No shutdown checks the state of a thread that is about to start its worker function. -/
def ChecksStarted (applied : AResult) (s : ShutdownRun τ) : ShutdownStep τ → Prop
  | .run t => s.pc t = .check → s.thread.starting = true → applied ≠ aOk
  | _ => True

/-- What is known of the fields in every state. -/
structure ShutdownOk (applied : AResult) (s : ShutdownRun τ) : Prop where
  starting : s.thread.starting = true → s.state = .idle ∧ s.signalDeath = workThreadAlive ∧
    ∀ t, s.pc t ≠ .signal
  running : s.thread.starting = false → s.thread.finished = false → s.state = .running

section Shutdowns

variable {applied : AResult} {s s' : ShutdownRun τ} {i : ShutdownStep τ} {t : τ}

/-- A call that goes on, to a signal only where the thread is running. -/
theorem ShutdownOk.goto (h : ShutdownOk applied s) (t : τ) {pc : ShutdownPc}
    (hpc : pc = .signal → s.state = .running) : ShutdownOk applied (s.goto t pc) where
  running := h.running
  starting := by
    intro hstart
    obtain ⟨hidle, halive, hsignal⟩ := h.starting hstart
    refine ⟨hidle, halive, fun u => ?_⟩
    by_cases hu : u = t
    · subst hu
      simp only [ShutdownRun.goto, Function.update_self]
      rintro rfl
      have hrunning := hpc rfl
      have hidle' : s.state = .idle := hidle
      rw [hidle'] at hrunning
      cases hrunning
    · simp only [ShutdownRun.goto, Function.update_of_ne hu]
      exact hsignal u

theorem ShutdownOk.ret (h : ShutdownOk applied s) (t : τ) (result : AResult) :
    ShutdownOk applied (s.ret t result) := by
  have hgoto : ShutdownOk applied (s.goto t .idle) := h.goto t fun heq => by cases heq
  exact ⟨hgoto.starting, hgoto.running⟩

theorem shutdown_check (hpc : s.pc t = .check) :
    s.shutdown t = some (if s.state = .running then s.goto t .signal else s.ret t aOk) := by
  simp only [ShutdownRun.shutdown, hpc, threadRunning]
  by_cases hrunning : s.state = .running
  · simp [hrunning]
  · simp [hrunning]

omit [DecidableEq τ] in
theorem ShutdownOk.work (h : ShutdownOk applied s) (hwork : s.work applied = some s') :
    ShutdownOk applied s' := by
  unfold ShutdownRun.work at hwork
  cases hw : s.thread with
  | apply =>
      simp only [hw, Option.some.injEq] at hwork
      subst hwork
      have hstarting := h.starting (by rw [hw]; rfl)
      split
      · exact ⟨fun hstart => (by cases hstart), fun _ hfin => by cases hfin⟩
      · exact ⟨fun _ => hstarting, fun hstart => by cases hstart⟩
  | setRunning =>
      simp only [hw, Option.some.injEq] at hwork
      subst hwork
      exact ⟨fun hstart => (by cases hstart), fun _ _ => rfl⟩
  | test =>
      simp only [hw, Option.some.injEq] at hwork
      subst hwork
      have hrunning := h.running (by rw [hw]; rfl) (by rw [hw]; rfl)
      split
      · exact ⟨fun hstart => (by cases hstart), fun _ _ => hrunning⟩
      · exact ⟨fun hstart => (by cases hstart), fun _ _ => hrunning⟩
  | body =>
      simp only [hw, Option.some.injEq] at hwork
      subst hwork
      have hrunning := h.running (by rw [hw]; rfl) (by rw [hw]; rfl)
      exact ⟨fun hstart => (by cases hstart), fun _ _ => hrunning⟩
  | leave =>
      simp only [hw, Option.some.injEq] at hwork
      subst hwork
      exact ⟨fun hstart => (by cases hstart), fun _ hfin => by cases hfin⟩
  | terminate ret =>
      simp only [hw, Option.some.injEq] at hwork
      subst hwork
      exact ⟨fun hstart => (by cases hstart), fun _ hfin => by cases hfin⟩
  | exited ret => simp only [hw, reduceCtorEq] at hwork

theorem ShutdownOk.shutdown (h : ShutdownOk applied s) (hrun : s.shutdown t = some s') :
    ShutdownOk applied s' := by
  cases hpc : s.pc t with
  | idle => simp only [ShutdownRun.shutdown, hpc, reduceCtorEq] at hrun
  | check =>
      rw [shutdown_check hpc, Option.some.injEq] at hrun
      subst hrun
      split
      · next hrunning => exact h.goto t fun _ => hrunning
      · exact h.ret t aOk
  | signal =>
      simp only [ShutdownRun.shutdown, hpc, Option.some.injEq] at hrun
      subst hrun
      have hsignalled : ShutdownOk applied { s with signalDeath := workThreadDead } := by
        refine ⟨fun hstart => ?_, h.running⟩
        exact absurd hpc ((h.starting hstart).2.2 t)
      exact hsignalled.ret t aOk

theorem shutdownOk_step (h : ShutdownOk applied s) (hstep : s.step applied i = some s') :
    ShutdownOk applied s' := by
  cases i with
  | thread => exact h.work hstep
  | shutdown t =>
      simp only [ShutdownRun.step] at hstep
      split at hstep
      · cases hstep
        exact h.goto t fun heq => by cases heq
      · cases hstep
  | run t => exact h.shutdown hstep

omit [DecidableEq τ] in
theorem NoLostShutdown.work (h : NoLostShutdown applied s) (hstep : s.work applied = some s') :
    NoLostShutdown applied s' := by
  have hkeep : s'.signalDeath = s.signalDeath ∧ s'.returned = s.returned ∧
      (s.thread.finished = true → s'.thread.finished = true) := by
    cases hw : s.thread with
    | exited ret => simp only [ShutdownRun.work, hw, reduceCtorEq] at hstep
    | _ =>
        simp only [ShutdownRun.work, hw, Option.some.injEq] at hstep
        subst hstep
        exact ⟨rfl, rfl, by simp [WorkThreadPc.finished]⟩
  obtain ⟨hsignal, hreturned, hfinished⟩ := hkeep
  intro hmem
  rw [hreturned] at hmem
  rw [hsignal]
  exact (h hmem).imp_right (Or.imp_left hfinished)

/-- **One step** loses no shutdown exactly if it is not a check that comes too early. -/
theorem noLostShutdown_step_iff (hok : ShutdownOk applied s) (h : NoLostShutdown applied s)
    (hstep : s.step applied i = some s') : NoLostShutdown applied s' ↔ ChecksStarted applied s i := by
  cases i with
  | thread =>
      simp only [ShutdownRun.step] at hstep
      exact iff_of_true (h.work hstep) trivial
  | shutdown t =>
      simp only [ShutdownRun.step] at hstep
      split at hstep
      · cases hstep
        exact iff_of_true h trivial
      · cases hstep
  | run t =>
      simp only [ShutdownRun.step] at hstep
      cases hpc : s.pc t with
      | idle => simp only [ShutdownRun.shutdown, hpc, reduceCtorEq] at hstep
      | check =>
          rw [shutdown_check hpc, Option.some.injEq] at hstep
          subst hstep
          simp only [ChecksStarted, hpc, forall_const]
          split
          · next hrunning =>
              -- the thread is past its start, and will be signalled
              refine iff_of_true h fun hstart => ?_
              have hidle := (hok.starting hstart).1
              rw [hidle] at hrunning
              cases hrunning
          · next hnot =>
              constructor
              · intro h' hstart
                obtain ⟨-, halive, -⟩ := hok.starting hstart
                rcases h' List.mem_cons_self with hsignal | hfinished | hfailed
                · exact absurd halive hsignal
                · have hfinished' : s.thread.finished = true := hfinished
                  cases hw : s.thread <;> simp_all [WorkThreadPc.starting, WorkThreadPc.finished]
                · exact hfailed
              · intro hchecks _
                cases hstart : s.thread.starting with
                | true => exact .inr (.inr (hchecks hstart))
                | false =>
                    refine .inr (.inl ?_)
                    cases hfinished : s.thread.finished with
                    | true => exact hfinished
                    | false => exact absurd (hok.running hstart hfinished) hnot
      | signal =>
          simp only [ShutdownRun.shutdown, hpc, Option.some.injEq] at hstep
          subst hstep
          have hdead : workThreadDead ≠ workThreadAlive := by decide
          refine iff_of_true (fun _ => .inl hdead) ?_
          simp [ChecksStarted, hpc]

/-- **A run loses no shutdown** exactly if none of them checks the state before the thread has set
it. -/
theorem noLostShutdown_throughout_iff (applied : AResult) (steps : List (ShutdownStep τ)) :
    Throughout (ShutdownRun.step applied) (NoLostShutdown applied) .new steps ↔
      Meets (ShutdownRun.step applied) (ChecksStarted applied) .new steps := by
  refine throughout_iff_meets (fun _ _ _ hok hstep => shutdownOk_step hok hstep)
    (fun _ _ _ hok h hstep => noLostShutdown_step_iff hok h hstep) (fun s i _ _ hnone => ?_)
    steps _ ?_ ?_
  · cases i with
    | thread => trivial
    | shutdown t => trivial
    | run t =>
        intro hpc
        rw [ShutdownRun.step, shutdown_check hpc] at hnone
        cases hnone
  · exact ⟨fun _ => ⟨rfl, rfl, fun _ hpc => by cases hpc⟩, fun hstart => by cases hstart⟩
  · exact fun hmem => by cases hmem

end Shutdowns

/-- A shutdown right after the start. -/
def earlyShutdown : List (ShutdownStep ℕ) :=
  [.shutdown 0, .run 0, .thread, .thread, .thread, .thread]

/-- It returns `A_OK`, and the thread is in its loop with nothing to end it. -/
theorem earlyShutdown_lost :
    ∃ s, exec (ShutdownRun.step aOk) .new earlyShutdown = some s ∧ s.returned = [aOk] ∧
      s.thread = .test ∧ s.signalDeath = workThreadAlive ∧ ¬ NoLostShutdown aOk s := by
  refine ⟨_, rfl, rfl, rfl, rfl, fun h => ?_⟩
  rcases h List.mem_cons_self with hsignal | hfinished | hfailed
  · exact hsignal rfl
  · cases hfinished
  · exact hfailed rfl

end Tsl
