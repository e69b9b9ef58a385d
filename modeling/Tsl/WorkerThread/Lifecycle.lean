import Tsl.Offload.System
import Tsl.WorkerThread

set_option autoImplicit false

/-! # From the start of a worker thread to its end

`tsl/worker_thread.c` over `tsl/threading.c`. `worker_thread_new_mask` makes a `struct thread` and starts
a thread in it, which runs `__thread_wrapper_func`, and in that `__worker_thread_function`. Any number
of threads request a shutdown. The owner calls `worker_thread_delete`, which answers `A_E_BUSY` until the
thread is stopped, and then joins it and frees the `struct thread`.

The machine puts the steps of all of them in any order, one access to shared state at a time. The
`struct thread` is written by both the thread and the owner, and is gone after the join: `fault` is set by
an access to it after that, by a second free and by a second join. -/

namespace Tsl

open Lib

/-! ## The code -/

/-- Where the owner is in `worker_thread_delete`. -/
inductive DeletePc where
  | idle
  /-- `state = ck_pr_load_int(&thr->st)`. -/
  | load
  /-- `thread_join` loads `thread->state`. -/
  | joinLoad
  /-- `pthread_join(thread->hdl, &res)`. -/
  | join
  /-- `thread->state = THREAD_STATE_IDLE`. -/
  | setIdle
  /-- `thread_destroy(&thr->thr)`. -/
  | destroy
deriving DecidableEq, Repr

/-- What a call of `worker_thread_delete` returned, and what there was then: where the worker was when
    each request returned, and where it was now. -/
structure DeleteAnswer where
  ret : AResult
  returned : List WorkerPc
  worker : WorkerPc
deriving DecidableEq

/-- A worker thread, its `struct thread` and its owner. `thread` is where the thread is in its wrapper,
    if there is one; `thr` is whether `thr->thr` is not `NULL`. -/
structure WorkerLife (τ : Type*) where
  run : WorkerRun τ
  thread : Option WrapperPlace
  state : ThreadState
  thr : Bool
  allocated : Bool
  joined : Bool
  owner : DeletePc
  answers : List DeleteAnswer
  fault : Bool

/-- What the thread meets in a step: the answer of `cpu_mask_apply`, and that of the work function. -/
structure WorkerEnv where
  applied : AResult
  ret : AResult

/-- What can happen: the thread makes its next step; someone calls `worker_thread_request_shutdown`, or
    makes the next step in it; the owner calls `worker_thread_delete`, or makes the next step in it. -/
inductive LifeStep (τ : Type*) where
  | thread (env : WorkerEnv)
  | request (t : τ)
  | run (t : τ)
  | delete
  | owner

/-- `worker_thread_new_mask`: the result code, whether `*pmsk` becomes `NULL`, and the worker. -/
def workerThreadNewMask (τ : Type*) (calloc pthreadCreate : Bool) :
    AResult × Bool × WorkerLife τ :=
  let s : WorkerLife τ :=
    { run := .new, thread := none, state := .idle, thr := false, allocated := false, joined := false,
      owner := .idle, answers := [], fault := false }
  if afailed (threadCreate calloc) then (threadCreate calloc, false, s)
  -- `thread_destroy` frees what `thread_create` has made
  else if pthreadCreate = false then (aENothread, false, s)
  else (aOk, true, { s with thread := some .apply, thr := true, allocated := true })

namespace WorkerLife

variable {τ : Type*}

/-- An access to the `struct thread`. -/
def access (s : WorkerLife τ) : WorkerLife τ := { s with fault := s.fault || !s.allocated }

/-- `worker_thread_delete` returns. -/
def answer (s : WorkerLife τ) (ret : AResult) : WorkerLife τ :=
  { s with owner := .idle, answers := ⟨ret, s.run.returned, s.run.worker⟩ :: s.answers }

/-- The next step of the thread, in `__thread_wrapper_func`. -/
def threadStep (ck : CkPrInt) (s : WorkerLife τ) (env : WorkerEnv) : Option (WorkerLife τ) :=
  match s.thread with
  | none => none
  | some .apply =>
      some { s.access with
        thread := some (if env.applied ≠ aOk then .terminate env.applied else .setRunning) }
  | some .setRunning => some { s.access with state := .running, thread := some .func }
  | some .func =>
      match s.run.worker with
      | .done ret => some { s with thread := some (.terminate ret) }
      | _ => (s.run.work ck env.ret).map fun run => { s with run := run }
  | some (.terminate ret) => some { s.access with state := .terminated, thread := some (.exited ret) }
  | some (.exited _) => none

/-- The next step of the owner, in `worker_thread_delete`. -/
def ownerStep (s : WorkerLife τ) : Option (WorkerLife τ) :=
  match s.owner with
  | .idle => none
  | .load =>
      if ¬ (s.run.st = .shutdown ∨ s.run.st = .shutdownRequested) then some (s.answer aEBusy)
      else if s.thr then some { s with owner := .joinLoad }
      else some (s.answer aOk)
  | .joinLoad => some { s.access with owner := .join }
  | .join =>
      -- the call does not return before the thread has ended
      match s.thread with
      | some (.exited _) =>
          some { s.access with owner := .setIdle, joined := true, fault := s.access.fault || s.joined }
      | _ => none
  | .setIdle => some { s.access with state := .idle, owner := .destroy }
  | .destroy =>
      if threadDestroy s.state = aOk then
        some ({ s.access with allocated := false, thr := false }.answer aOk)
      else some (s.access.answer aOk)

variable [DecidableEq τ]

/-- One step of the machine. -/
def step (ck : CkPrInt) (s : WorkerLife τ) : LifeStep τ → Option (WorkerLife τ)
  | .thread env => s.threadStep ck env
  | .request t => (s.run.step ck (.request t)).map fun run => { s with run := run }
  | .run t => (s.run.step ck (.run t)).map fun run => { s with run := run }
  | .delete => if s.owner = .idle then some { s with owner := .load } else none
  | .owner => s.ownerStep

end WorkerLife

/-! ## What it should do -/

section Spec

variable {τ : Type*} [DecidableEq τ]

/-- The thread has ended or was never made, and its `struct thread` is free. -/
def WorkerLife.Reaped (s : WorkerLife τ) : Prop :=
  (s.thread = none ∨ ∃ ret, s.thread = some (.exited ret)) ∧ s.allocated = false ∧ s.thr = false

/-- The life of a worker thread is in order. -/
structure LivesWell (ck : CkPrInt) (s : WorkerLife τ) : Prop where
  /-- The `struct thread` was not used after it was freed, nor freed or joined twice. -/
  sound : s.fault = false
  /-- A successful `worker_thread_delete` has reaped the thread. -/
  reaped : ∀ a ∈ s.answers, a.ret = aOk → s.Reaped
  /-- A refused one found a worker whose function had not returned, and no request had returned. -/
  refused : ∀ a ∈ s.answers, a.ret ≠ aOk →
    a.ret = aEBusy ∧ a.returned = [] ∧ ∀ ret, a.worker ≠ .done ret
  /-- A request that has returned stops the worker. -/
  stopped : StopSticks s.run
  /-- `worker_thread_delete` goes on, or it waits for a thread that goes on. -/
  proceeds : s.owner ≠ .idle → (∃ s', s.step ck .owner = some s') ∨
    ∀ env, ∃ s', s.step ck (.thread env) = some s'

end Spec

/-! ## What every step keeps -/

/-- A worker that has ended was stopped. -/
def StoppedAtEnd {τ : Type*} (s : WorkerRun τ) : Prop :=
  ∀ ret, s.worker = .done ret → s.st = .shutdown ∨ s.st = .shutdownRequested

/-- What each place of the owner needs. -/
def WorkerLife.OwnerOk {τ : Type*} (s : WorkerLife τ) : DeletePc → Prop
  | .idle | .load => s.thr = true → s.joined = false
  | .joinLoad | .join => s.thr = true ∧ s.joined = false
  | .setIdle => s.thr = true ∧ ∃ ret, s.thread = some (.exited ret)
  | .destroy => s.thr = true ∧ (∃ ret, s.thread = some (.exited ret)) ∧ s.state = .idle

/-- What holds of the life of a worker thread in between. -/
structure LifeOk {τ : Type*} (s : WorkerLife τ) : Prop where
  sound : s.fault = false
  stopping : Stopping s.run
  atEnd : StoppedAtEnd s.run
  allocated : s.allocated = s.thr
  noThread : s.thread = none → s.thr = false
  held : ∀ place, s.thread = some place → (∀ ret, place ≠ .exited ret) → s.thr = true
  owner : s.OwnerOk s.owner
  reaped : ∀ a ∈ s.answers, a.ret = aOk → s.thr = false
  refused : ∀ a ∈ s.answers, a.ret ≠ aOk →
    a.ret = aEBusy ∧ a.returned = [] ∧ ∀ ret, a.worker ≠ .done ret

section Steps

variable {τ : Type*} [DecidableEq τ] {ck : CkPrInt} {s s' : WorkerLife τ} {run run' : WorkerRun τ}
  {i : WorkerStep τ} {env : WorkerEnv}

theorem stoppedAtEnd_step (hck : ck.Documented) (h : StoppedAtEnd run)
    (hstep : run.step ck i = some run') : StoppedAtEnd run' := by
  cases workerMove_of_step hck hstep with
  | start _ _ => exact fun _ hw => by cases hw
  | refuse _ _ => exact fun _ hw => by cases hw
  | finish _ => exact fun _ hw => by cases hw
  | exit _ => exact fun _ _ => .inl rfl
  | request _ => exact h
  | load _ _ => exact h
  | late _ _ => exact h
  | store _ => exact fun _ _ => .inr rfl

omit [DecidableEq τ] in
theorem work_total (hdone : ∀ ret, run.worker ≠ .done ret) (ret : AResult) :
    ∃ run', run.work ck ret = some run' := by
  unfold WorkerRun.work
  cases hw : run.worker with
  | start =>
      simp only
      split
      · exact ⟨_, rfl⟩
      · exact ⟨_, rfl⟩
  | work => exact ⟨_, rfl⟩
  | exit r => exact ⟨_, rfl⟩
  | done r => exact absurd hw (hdone r)

namespace LifeOk

omit [DecidableEq τ] in
theorem access (h : LifeOk s) (hthr : s.thr = true) : s.access = s := by
  have hfault : (s.fault || !s.allocated) = s.fault := by
    rw [h.allocated, hthr, Bool.not_true, Bool.or_false]
  rw [WorkerLife.access, hfault]

theorem ofRun (hck : ck.Documented) (h : LifeOk s) (hstep : s.run.step ck i = some run) :
    LifeOk { s with run := run } where
  sound := h.sound
  stopping := stopping_step hck h.stopping hstep
  atEnd := stoppedAtEnd_step hck h.atEnd hstep
  allocated := h.allocated
  noThread := h.noThread
  held := h.held
  owner := by
    have howner := h.owner
    change WorkerLife.OwnerOk { s with run := run } s.owner
    cases hpc : s.owner <;> rw [hpc] at howner <;> exact howner
  reaped := h.reaped
  refused := h.refused

omit [DecidableEq τ] in
theorem goto (h : LifeOk s) {old new : WrapperPlace} (hold : s.thread = some old)
    (hrunning : ∀ ret, old ≠ .exited ret) (state : ThreadState) :
    LifeOk { s with thread := some new, state := state } where
  sound := h.sound
  stopping := h.stopping
  atEnd := h.atEnd
  allocated := h.allocated
  noThread := fun hnone => by cases hnone
  held := fun _ _ _ => h.held old hold hrunning
  owner := by
    have howner := h.owner
    change WorkerLife.OwnerOk { s with thread := some new, state := state } s.owner
    -- the owner is not past its join, as the thread has not ended
    cases hpc : s.owner <;> rw [hpc] at howner
    case idle => exact howner
    case load => exact howner
    case joinLoad => exact howner
    case join => exact howner
    case setIdle =>
      obtain ⟨-, ret, hexited⟩ := howner
      exact absurd (Option.some.inj (hold.symm.trans hexited)) (hrunning ret)
    case destroy =>
      obtain ⟨-, ⟨ret, hexited⟩, -⟩ := howner
      exact absurd (Option.some.inj (hold.symm.trans hexited)) (hrunning ret)
  reaped := h.reaped
  refused := h.refused

/-- **The thread** keeps it. -/
theorem threadStep (hck : ck.Documented) (h : LifeOk s) (hstep : s.threadStep ck env = some s') :
    LifeOk s' := by
  unfold WorkerLife.threadStep at hstep
  cases hplace : s.thread with
  | none => simp only [hplace, reduceCtorEq] at hstep
  | some place =>
      simp only [hplace] at hstep
      cases place with
      | apply =>
          rw [h.access (h.held _ hplace fun _ => by simp)] at hstep
          rw [← Option.some.inj hstep]
          exact h.goto hplace (fun _ => by simp) s.state
      | setRunning =>
          rw [h.access (h.held _ hplace fun _ => by simp)] at hstep
          rw [← Option.some.inj hstep]
          exact h.goto hplace (fun _ => by simp) .running
      | func =>
          simp only at hstep
          split at hstep
          · rw [← Option.some.inj hstep]
            exact h.goto hplace (fun _ => by simp) s.state
          · obtain ⟨run, hwork, rfl⟩ := Option.map_eq_some_iff.1 hstep
            have hrun := h.ofRun hck (i := .worker env.ret) hwork
            rwa [hplace] at hrun
      | terminate ret =>
          rw [h.access (h.held _ hplace fun _ => by simp)] at hstep
          rw [← Option.some.inj hstep]
          exact h.goto hplace (fun _ => by simp) .terminated
      | exited ret => simp only [reduceCtorEq] at hstep

omit [DecidableEq τ] in
theorem answer (h : LifeOk s) (hjoined : s.thr = true → s.joined = false) {ret : AResult}
    (hok : ret = aOk → s.thr = false)
    (hfail : ret ≠ aOk → ret = aEBusy ∧ s.run.returned = [] ∧ ∀ r, s.run.worker ≠ .done r) :
    LifeOk (s.answer ret) where
  sound := h.sound
  stopping := h.stopping
  atEnd := h.atEnd
  allocated := h.allocated
  noThread := h.noThread
  held := h.held
  owner := hjoined
  reaped := by
    intro a ha
    rcases List.mem_cons.1 ha with rfl | ha
    · exact hok
    · exact h.reaped a ha
  refused := by
    intro a ha
    rcases List.mem_cons.1 ha with rfl | ha
    · exact hfail
    · exact h.refused a ha

omit [DecidableEq τ] in
/-- The owner goes on in `worker_thread_delete`, having written the state of the thread. -/
theorem goOn (h : LifeOk s) {pc : DeletePc} {state : ThreadState} {joined : Bool}
    (howner : WorkerLife.OwnerOk { s with state := state, joined := joined } pc) :
    LifeOk { s with state := state, joined := joined, owner := pc } where
  sound := h.sound
  stopping := h.stopping
  atEnd := h.atEnd
  allocated := h.allocated
  noThread := h.noThread
  held := h.held
  owner := by
    change WorkerLife.OwnerOk { s with state := state, joined := joined, owner := pc } pc
    cases pc <;> exact howner
  reaped := h.reaped
  refused := h.refused

omit [DecidableEq τ] in
theorem free (h : LifeOk s) {ret : AResult} (hexited : s.thread = some (.exited ret)) :
    LifeOk ({ s with allocated := false, thr := false }.answer aOk) := by
  have hfreed : LifeOk { s with allocated := false, thr := false, owner := .idle } :=
    { sound := h.sound
      stopping := h.stopping
      atEnd := h.atEnd
      allocated := rfl
      noThread := fun _ => rfl
      held := fun place hplace hne =>
        absurd (Option.some.inj (hplace.symm.trans hexited)) (hne ret)
      owner := fun hthr => by cases hthr
      reaped := fun _ _ _ => rfl
      refused := h.refused }
  exact hfreed.answer (fun hthr => by cases hthr) (fun _ => rfl) fun hne => absurd rfl hne

omit [DecidableEq τ] in
/-- **The owner** keeps it. -/
theorem ownerStep (h : LifeOk s) (hstep : s.ownerStep = some s') : LifeOk s' := by
  have howner := h.owner
  unfold WorkerLife.ownerStep at hstep
  cases hpc : s.owner with
  | idle => simp only [hpc, reduceCtorEq] at hstep
  | load =>
      rw [hpc] at howner
      simp only [hpc] at hstep
      split at hstep
      · next hrunning =>
          -- neither a request nor the end of the worker has been seen
          rw [← Option.some.inj hstep]
          refine h.answer howner (fun heq => by cases heq) fun _ => ⟨rfl, ?_, fun r hdone => ?_⟩
          · by_contra hne
            exact hrunning (h.stopping.stopped hne).symm
          · exact hrunning (h.atEnd r hdone)
      · split at hstep
        · next hthr =>
            rw [← Option.some.inj hstep]
            exact h.goOn ⟨hthr, howner hthr⟩
        · next hthr =>
            rw [← Option.some.inj hstep]
            exact h.answer howner (fun _ => Bool.eq_false_of_not_eq_true hthr)
              fun hne => absurd rfl hne
  | joinLoad =>
      rw [hpc] at howner
      simp only [hpc, h.access howner.1] at hstep
      rw [← Option.some.inj hstep]
      exact h.goOn howner
  | join =>
      rw [hpc] at howner
      simp only [hpc, h.access howner.1, howner.2, Bool.or_false] at hstep
      split at hstep
      · next ret hexited =>
          rw [← Option.some.inj hstep]
          exact h.goOn ⟨howner.1, ret, hexited⟩
      · cases hstep
  | setIdle =>
      rw [hpc] at howner
      simp only [hpc, h.access howner.1] at hstep
      rw [← Option.some.inj hstep]
      exact h.goOn ⟨howner.1, howner.2, rfl⟩
  | destroy =>
      rw [hpc] at howner
      obtain ⟨hthr, ⟨ret, hexited⟩, hidle⟩ := howner
      have hdestroy : threadDestroy s.state = aOk := by
        rw [hidle]
        rfl
      simp only [hpc, h.access hthr, hdestroy, if_true] at hstep
      rw [← Option.some.inj hstep]
      exact h.free hexited

end LifeOk

/-- **One step** keeps it. -/
theorem lifeOk_step (hck : ck.Documented) (i : LifeStep τ) (h : LifeOk s)
    (hstep : s.step ck i = some s') : LifeOk s' := by
  cases i with
  | thread env => exact h.threadStep hck hstep
  | request t =>
      obtain ⟨run, hrun, rfl⟩ := Option.map_eq_some_iff.1 hstep
      exact h.ofRun hck hrun
  | run t =>
      obtain ⟨run, hrun, rfl⟩ := Option.map_eq_some_iff.1 hstep
      exact h.ofRun hck hrun
  | delete =>
      simp only [WorkerLife.step] at hstep
      split at hstep
      · next hidle =>
          rw [← Option.some.inj hstep]
          have howner := h.owner
          rw [hidle] at howner
          exact h.goOn howner
      · cases hstep
  | owner => exact h.ownerStep hstep

omit [DecidableEq τ] in
theorem lifeOk_new (calloc pthreadCreate : Bool) :
    LifeOk (workerThreadNewMask τ calloc pthreadCreate).2.2 := by
  have hnever : StoppedAtEnd (.new : WorkerRun τ) := fun _ hw => by cases hw
  have hfail : LifeOk (⟨.new, none, .idle, false, false, false, .idle, [], false⟩ : WorkerLife τ) :=
    { sound := rfl
      stopping := stopping_new
      atEnd := hnever
      allocated := rfl
      noThread := fun _ => rfl
      held := fun _ hplace _ => by cases hplace
      owner := fun hthr => by cases hthr
      reaped := fun _ ha => by cases ha
      refused := fun _ ha => by cases ha }
  unfold workerThreadNewMask
  split
  · exact hfail
  · split
    · exact hfail
    · exact
        { sound := rfl
          stopping := stopping_new
          atEnd := hnever
          allocated := rfl
          noThread := fun hnone => by cases hnone
          held := fun _ _ _ => rfl
          owner := fun _ => rfl
          reaped := fun _ ha => by cases ha
          refused := fun _ ha => by cases ha }

/-! ## After every run -/

omit [DecidableEq τ] in
theorem LifeOk.reapedAll (h : LifeOk s) : ∀ a ∈ s.answers, a.ret = aOk → s.Reaped := by
  intro a ha hok
  have hthr := h.reaped a ha hok
  refine ⟨?_, h.allocated.trans hthr, hthr⟩
  cases hthread : s.thread with
  | none => exact .inl rfl
  | some place =>
      by_cases hexited : ∃ ret, place = .exited ret
      · obtain ⟨ret, rfl⟩ := hexited
        exact .inr ⟨ret, rfl⟩
      · have hheld := h.held place hthread fun ret heq => hexited ⟨ret, heq⟩
        rw [hthr] at hheld
        cases hheld

omit [DecidableEq τ] in
/-- The thread makes steps until it has ended. -/
theorem threadStep_total {place : WrapperPlace} (hplace : s.thread = some place)
    (hrunning : ∀ ret, place ≠ .exited ret) (env : WorkerEnv) :
    ∃ s', s.threadStep ck env = some s' := by
  unfold WorkerLife.threadStep
  rw [hplace]
  cases place with
  | apply => exact ⟨_, rfl⟩
  | setRunning => exact ⟨_, rfl⟩
  | func =>
      simp only
      split
      · exact ⟨_, rfl⟩
      · next hdone =>
          have htotal : ∃ run, s.run.work ck env.ret = some run :=
            work_total (fun ret heq => hdone ret heq) env.ret
          obtain ⟨run, hwork⟩ := htotal
          exact ⟨_, by rw [hwork]; rfl⟩
  | terminate ret => exact ⟨_, rfl⟩
  | exited ret => exact absurd rfl (hrunning ret)

theorem LifeOk.proceeds (h : LifeOk s) (hidle : s.owner ≠ .idle) :
    (∃ s', s.step ck .owner = some s') ∨ ∀ env, ∃ s', s.step ck (.thread env) = some s' := by
  have howner := h.owner
  simp only [WorkerLife.step, WorkerLife.ownerStep]
  cases hpc : s.owner with
  | idle => exact absurd hpc hidle
  | load =>
      refine .inl ?_
      simp only
      split
      · exact ⟨_, rfl⟩
      · split
        · exact ⟨_, rfl⟩
        · exact ⟨_, rfl⟩
  | joinLoad => exact .inl ⟨_, rfl⟩
  | join =>
      rw [hpc] at howner
      cases hthread : s.thread with
      | none =>
          have hthr := h.noThread hthread
          rw [howner.1] at hthr
          cases hthr
      | some place =>
          by_cases hexited : ∃ ret, place = .exited ret
          · obtain ⟨ret, rfl⟩ := hexited
            exact .inl ⟨_, rfl⟩
          · exact .inr fun env => threadStep_total hthread (fun ret heq => hexited ⟨ret, heq⟩) env
  | setIdle => exact .inl ⟨_, rfl⟩
  | destroy =>
      refine .inl ?_
      simp only
      split
      · exact ⟨_, rfl⟩
      · exact ⟨_, rfl⟩

/-- **A worker thread lives and ends in order**, in every interleaving of the thread, the requests and
the owner. -/
theorem livesWell_of_run (hck : ck.Documented) (calloc pthreadCreate : Bool)
    (steps : List (LifeStep τ))
    (hrun : exec (WorkerLife.step ck) (workerThreadNewMask τ calloc pthreadCreate).2.2 steps = some s) :
    LivesWell ck s := by
  have h : LifeOk s := exec_invariant (fun _ i _ h hstep => lifeOk_step hck i h hstep)
    (lifeOk_new calloc pthreadCreate) hrun
  have hsticks : StopSticks s.run := by
    refine ⟨fun hne => ?_, h.stopping.neverCalled⟩
    rcases h.stopping.stopped hne with hst | hst <;> rw [hst] <;> rfl
  exact ⟨h.sound, h.reapedAll, h.refused, hsticks, h.proceeds⟩

end Steps

/-- The owner asks too early, then requests a shutdown, and waits for the thread to end. -/
def reapedWorker : List (LifeStep ℕ) :=
  let thread : LifeStep ℕ := .thread ⟨aOk, aOk⟩
  [thread, thread, thread, .delete, .owner, .request 0, .run 0, .run 0, .delete, .owner, .owner, thread,
    thread, thread, thread, .owner, .owner, .owner]

theorem livesWell_of_run_reapedWorker :
    ∃ s, exec (WorkerLife.step compareAndSwapInt)
        (workerThreadNewMask ℕ true true).2.2 reapedWorker = some s ∧
      s.answers.map DeleteAnswer.ret = [aOk, aEBusy] ∧ LivesWell compareAndSwapInt s := by
  have hanswers : (exec (WorkerLife.step compareAndSwapInt)
      (workerThreadNewMask ℕ true true).2.2 reapedWorker).map
        (fun s => s.answers.map DeleteAnswer.ret) = some [aOk, aEBusy] := by decide +kernel
  obtain ⟨s, hrun, hs⟩ := Option.map_eq_some_iff.1 hanswers
  exact ⟨s, hrun, hs, livesWell_of_run compareAndSwapInt_documented true true reapedWorker hrun⟩

end Tsl
